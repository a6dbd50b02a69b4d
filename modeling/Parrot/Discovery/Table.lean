import Parrot.Directory.Command
import Parrot.Lib.Feed
import Parrot.Lib.Slots

/-! # The receptionist (`receptionist.rs`, `actor_path.rs`, `system/receptionist.rs:133-193`)

A table of services under keys, with bounded streams for those who follow a key. -/

namespace Parrot.Discovery
open Machine

structure ReceptionistKey where
  str : String
  legal : str.toList.any (fun c => c == ' '||c == '*'||c == '#')=false
  deriving DecidableEq

structure ReceptionistEntry where
  key : ReceptionistKey
  remotePath : String
  node : String
  deriving DecidableEq

inductive ReceptionistEvent where
  | registered (key : ReceptionistKey) (remotePath : String)
  | unregistered (key : ReceptionistKey) (remotePath : String)

def ReceptionistEvent.key : ReceptionistEvent → ReceptionistKey
  | .registered key _ => key
  | .unregistered key _ => key

def ReceptionistEntry.registered (e : ReceptionistEntry) : ReceptionistEvent := .registered e.key e.remotePath

def ReceptionistEntry.unregistered (e : ReceptionistEntry) : ReceptionistEvent := .unregistered e.key e.remotePath

def segments : List Char → List (List Char)
  | [] => [[]]
  | c::rest =>
    if c = '/' then []::segments rest
    else
      match segments rest with
      | s::more => (c::s)::more
      | [] => [[c]]

/-- `mirror::canonical`. -/
def canonical (path : List Char) : Bool :=
  decide ((String.ofList path).utf8ByteSize≤4096)&&path.head? == some '/' &&
    !path.any (fun c => isControl c||c == '?'||c == '#') &&
    (path==['/']||(segments path.tail).all fun s => !s.isEmpty&&s != ['.']&&s != ['.','.'])

def actix : List Char := "actix://".toList
def parrot : List Char := "parrot://".toList

def nativeActix (path : List Char) : Bool :=
  actix.isPrefixOf path&&decide (path.length>actix.length)&&canonical (path.drop 7)

/-- The node and the local part of a qualified path. -/
def split (path : String) : Option (String × String) :=
  if path.utf8ByteSize>4096 then none
  else if !parrot.isPrefixOf path.toList then none
  else
    let rest:=path.toList.drop parrot.length
    if !rest.contains '/' then none
    else
      let node:=String.ofList (rest.takeWhile (· ≠ '/'))
      let tail:=rest.dropWhile (· ≠ '/')
      if !(Directory.validateNodeId node).isOk then none
      else if nativeActix tail.tail then some (node,String.ofList tail.tail)
      else if tail≠['/']&&canonical tail then some (node,String.ofList tail)
      else none

def qualify (node path : String) : Option String :=
  if path.utf8ByteSize>4096 then none
  else
    let qualified:=if nativeActix path.toList then "parrot://"++node++"/"++path
      else if path≠"/" && canonical path.toList then "parrot://"++node++path
      else path
    if (split qualified).map Prod.fst=some node then some qualified else none

/-- A hash map. What walks it gets its keys, in any order, as `order`. -/
abbrev Entries := String → Option (List ReceptionistEntry)

namespace Entries

def list (t : Entries) (key : String) : List ReceptionistEntry := (t key).getD []

def nonempty (l : List ReceptionistEntry) : Option (List ReceptionistEntry) := if l=[] then none else some l

def push (t : Entries) (e : ReceptionistEntry) : Entries :=
  Function.update t e.key.str (some (t.list e.key.str++[e]))

/-- The entries that `keep` refuses leave the table and are reported in the order of the walk. -/
def retain (t : Entries) (keep : ReceptionistEntry → Bool) (order : List String) : Entries × List ReceptionistEvent :=
  (fun key => (t key).bind fun l => nonempty (l.filter keep),
    order.flatMap fun key => ((t.list key).filter fun e => !keep e).map ReceptionistEntry.unregistered)

/-- The walk of `merge_sync` over one list. `pending` is the set of entries not met yet. -/
def retainSync («from» : String) : List ReceptionistEntry → List ReceptionistEntry →
    List ReceptionistEntry × List ReceptionistEntry × List ReceptionistEvent
  | [],pending => ([],pending,[])
  | e::l,pending =>
    if e.node≠«from» then
      let (kept,pending,events):=retainSync «from» l pending
      (e::kept,pending,events)
    else if e∈pending then
      let (kept,pending,events):=retainSync «from» l (pending.erase e)
      (e::kept,pending,events)
    else
      let (kept,pending,events):=retainSync «from» l pending
      (kept,pending,e.unregistered::events)

def walkSync («from» : String) : List String → Entries → List ReceptionistEntry →
    Entries × List ReceptionistEntry × List ReceptionistEvent
  | [],t,pending => (t,pending,[])
  | key::order,t,pending =>
    let (kept,pending,first):=retainSync «from» (t.list key) pending
    let (t,pending,events):=walkSync «from» order (Function.update t key (nonempty kept)) pending
    (t,pending,first++events)

def upsert : List ReceptionistEntry → Entries → List ReceptionistEntry → Entries × List ReceptionistEvent
  | [],t,_ => (t,[])
  | e::l,t,pending =>
    if e∈pending then
      let (t,events):=upsert l (t.push e) (pending.erase e)
      (t,e.registered::events)
    else upsert l t pending

end Entries

structure ReceptionistSync where
  «from» : String
  entries : List ReceptionistEntry

/-- A stream by what was sent on it so far. `queued` of that has not been read. -/
structure Stream where
  key : String
  capacity : ℕ
  queued : ℕ
  events : List ReceptionistEvent
  /- Somebody still holds the receiver. -/
  alive : Bool

/-- `owners` knows the scopes by their identity. `retired` only records the streams that the
table gave up. -/
structure Receptionist where
  entries : Entries
  subscribers : List Stream
  retired : List Stream
  owners : Slots.Table (ReceptionistKey × String) ℕ

namespace Receptionist

def new : Receptionist := ⟨fun _ => none,[],[],[]⟩

variable (r : Receptionist)

def forget (key : ReceptionistKey) (path : String) : Receptionist :=
  {r with owners:=Slots.remove r.owners (key,path)}

def register (node : String) (key : ReceptionistKey) (path : String) :
    Receptionist × ReceptionistEvent :=
  let e : ReceptionistEntry := ⟨key,path,node⟩
  let r:=r.forget key path
  (if e∈r.entries.list key.str then r else {r with entries:=r.entries.push e},.registered key path)

def deregister (key : ReceptionistKey) (path : String) : Receptionist × ReceptionistEvent :=
  let r:=r.forget key path
  (match r.entries key.str with
    | none => r
    | some l => {r with
      entries := Function.update r.entries key.str (Entries.nonempty (l.filter fun e => e.remotePath≠path))},
    .unregistered key path)

def maxPermits : ℕ := u64Max/8

/-- The snapshot fits: the capacity was chosen for it, and no list is longer than a queue may be. -/
def subscribe (key : ReceptionistKey) (buf : ℕ) : Receptionist :=
  let snapshot:=r.entries.list key.str
  let capacity:=min (min (snapshot.length+max buf 1) u64Max) maxPermits
  if snapshot.length≤capacity then
    {r with
      subscribers := r.subscribers.filter Stream.alive++
        [⟨key.str,capacity,snapshot.length,snapshot.map ReceptionistEntry.registered,true⟩]
      retired := r.retired++r.subscribers.filter fun s => !s.alive}
  else r

variable (ev : ReceptionistEvent)

def accepts (s : Stream) : Bool :=
  decide (s.key≠ev.key.str)||(s.alive&&decide (s.queued<s.capacity))

def deliver (s : Stream) : Stream :=
  if s.key=ev.key.str then {s with events:=s.events++[ev],queued:=s.queued+1} else s

/-- A stream that takes no more, or that nobody reads, is dropped. -/
def broadcast : Receptionist :=
  {r with
    subscribers := (r.subscribers.filter (accepts ev)).map (deliver ev)
    retired := r.retired++r.subscribers.filter fun s => !accepts ev s}

def forgetRemovedOwners (events : List ReceptionistEvent) : Receptionist :=
  events.foldl (fun r ev =>
    match ev with
    | .unregistered key path => r.forget key path
    | .registered _ _ => r) r

/-- `order` are the keys of the table as the map yields them. -/
def mergeSync (sync : ReceptionistSync) (order : List String) :
    Receptionist × List ReceptionistEvent :=
  if sync.entries.any fun e => e.node≠sync.from then (r,[])
  else
    let (t,pending,gone):=Entries.walkSync sync.from order r.entries sync.entries.dedup
    let (t,new):=Entries.upsert sync.entries t pending
    ({r with entries:=t}.forgetRemovedOwners (gone++new),gone++new)

def removeUnavailable («local» : String) (available : List String) (order : List String) :
    Receptionist × List ReceptionistEvent :=
  let (t,events):=r.entries.retain (fun e => !(e.node≠«local» && !available.contains e.node)) order
  ({r with entries:=t}.forgetRemovedOwners events,events)

def broadcastAll (events : List ReceptionistEvent) : Receptionist := events.foldl broadcast r

end Receptionist

end Parrot.Discovery
