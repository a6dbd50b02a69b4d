import Parrot.Discovery.Table

/-! # The gateway of a system (`receptionist.rs:449-602`, `receptionist_scope.rs`, `system/receptionist.rs`)

What local actors, peers, membership and readers can do to the table of one running system. -/

namespace Parrot.Discovery
open Function (update)
open Machine

namespace Caps

def receptionistSync : UInt32 := 0x20000
def receptionistNativePaths : UInt32 := 0x40000

end Caps

/-- One actor generation, as far as this table goes. -/
structure RegistrationScope where
  closed : Bool
  retiring : Bool
  bindings : List (ReceptionistKey × String)

/-- `cleanups` are the callbacks that retiring scopes have still to run. -/
structure System where
  node : String
  acl : String → String → Bool
  table : Receptionist
  scopes : ℕ → RegistrationScope
  cleanups : List (ℕ × ReceptionistKey × String)

namespace System

def start (node : String) (acl : String → String → Bool) : System :=
  ⟨node,acl,.new,fun _ => ⟨false,false,[]⟩,[]⟩

variable (s : System)

variable (key : ReceptionistKey)

/-- The ACL and the path that the gateway checks before anything else. -/
def admitted (path : String) : Option String :=
  if s.acl s.node key.str then qualify s.node path else none

def broadcasting (change : Receptionist × ReceptionistEvent) : System :=
  {s with table:=change.1.broadcast change.2}

def broadcastingAll (change : Receptionist × List ReceptionistEvent) : System :=
  {s with table:=change.1.broadcastAll change.2}

def register (path : String) : System :=
  match s.admitted key path with
  | none => s
  | some path => s.broadcasting (s.table.register s.node key path)

def deregister (path : String) : System :=
  match s.admitted key path with
  | none => s
  | some path => s.broadcasting (s.table.deregister key path)

def owned (r : Receptionist) (key : ReceptionistKey) (path : String) (generation : ℕ) : Bool :=
  Slots.get r.owners (key,path)==some generation

def maxBindings : ℕ := 1024

/-- `others` counts the scope's bindings in other tables. -/
def registerScoped (path : String) (generation others : ℕ) : System :=
  match s.admitted key path with
  | none => s
  | some path =>
    let scope:=s.scopes generation
    if scope.closed then s
    else if (key,path)∉scope.bindings ∧ scope.bindings.length+others≥maxBindings then s
    else
      let (r,event):=s.table.register s.node key path
      {s.broadcasting ({r with owners:=((key,path),generation)::Slots.remove r.owners (key,path)},event) with
        scopes := update s.scopes generation {scope with bindings:=scope.bindings.insert (key,path)}}

def deregisterScoped (path : String) (generation : ℕ) : System :=
  match s.admitted key path with
  | none => s
  | some path =>
    let scope:=s.scopes generation
    if scope.closed then s
    else
      let s:=if owned s.table key path generation then s.broadcasting (s.table.deregister key path) else s
      {s with scopes := update s.scopes generation {scope with bindings:=scope.bindings.erase (key,path)}}

def closeScope (generation : ℕ) : System :=
  {s with scopes := update s.scopes generation {s.scopes generation with closed:=true}}

def retire (generation : ℕ) : System :=
  let scope:=s.scopes generation
  if scope.retiring then s.closeScope generation
  else {s with
    scopes := update s.scopes generation ⟨true,true,[]⟩
    cleanups := s.cleanups++scope.bindings.map fun b => (generation,b)}

def cleanup (callback : ℕ × ReceptionistKey × String) : System :=
  if callback∈s.cleanups then
    let (generation,key,path):=callback
    let s:={s with cleanups:=s.cleanups.erase callback}
    if owned s.table key path generation then s.broadcasting (s.table.deregister key path) else s
  else s

/-- What the system knows of the connection a snapshot came over. -/
structure Link where
  node : String
  allowsCluster : Bool
  capabilities : UInt32
  /- The sender is a member that is not dead, and this is its current connection. -/
  current : Bool

def accepts (link : Link) (sync : ReceptionistSync) : Bool :=
  decide (sync.from=link.node)&&decide (sync.from≠s.node)&&link.allowsCluster &&
    decide (link.capabilities &&& Caps.receptionistSync≠0) &&
    sync.entries.all (fun e => decide (e.node=sync.from) &&
      (split e.remotePath).any (fun (node,path) => decide (node=sync.from) &&
        (!actix.isPrefixOf path.toList||decide (link.capabilities &&& Caps.receptionistNativePaths≠0))) &&
      s.acl sync.from e.key.str) &&
    link.current

/-- The walks below need each key of the table once. -/
def Keys (t : Entries) (order : List String) : Prop := order.Nodup ∧ ∀ key, (t key).isSome → key∈order

def receive (link : Link) (sync : ReceptionistSync) (order : List String) : System :=
  if s.accepts link sync then s.broadcastingAll (s.table.mergeSync sync order) else s

def tick (available : List String) (order : List String) : System :=
  s.broadcastingAll (s.table.removeUnavailable s.node available order)

def subscribe (buf : ℕ) : System :=
  if s.acl s.node key.str then {s with table:=s.table.subscribe key buf} else s

/-- A reader acts on the `i`-th stream. -/
def onStream (i : ℕ) (f : Stream → Stream) : System :=
  {s with table := {s.table with subscribers:=s.table.subscribers.modify i f}}

inductive Step : System → System → Prop
  | register (s key path) : Step s (s.register key path)
  | deregister (s key path) : Step s (s.deregister key path)
  | registerScoped (s key path generation others) : Step s (s.registerScoped key path generation others)
  | deregisterScoped (s key path generation) : Step s (s.deregisterScoped key path generation)
  | closeScope (s generation) : Step s (s.closeScope generation)
  | retire (s generation) : Step s (s.retire generation)
  | cleanup (s callback) : Step s (s.cleanup callback)
  | receive (s link sync order) (h : Keys s.table.entries order) : Step s (s.receive link sync order)
  | tick (s available order) (h : Keys s.table.entries order) : Step s (s.tick available order)
  | subscribe (s key buf) : Step s (s.subscribe key buf)
  | read (s i) : Step s (s.onStream i fun stream => {stream with queued:=stream.queued-1})
  | leave (s i) : Step s (s.onStream i fun stream => {stream with alive:=false})

/-- Every state a system can reach from its start. -/
inductive Reachable (node : String) (acl : String → String → Bool) : System → Prop
  | start : Reachable node acl (start node acl)
  | step {s s' : System} (h : Reachable node acl s) (hs : Step s s') : Reachable node acl s'

end System

end Parrot.Discovery
