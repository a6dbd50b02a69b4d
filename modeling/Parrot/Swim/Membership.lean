import Mathlib.Data.Finmap
import Mathlib.Data.Prod.Lex
import Parrot.Lib.Bincode
import Parrot.Lib.Machine

/-! # The membership table (`swim.rs:25-408`, `swim.rs:585-596`)

A member is known by its node id, and a record of it is newer than another by incarnation and
then by status. -/

namespace Parrot.Swim
open Machine

inductive MemberStatus where
  | alive
  | suspect
  | dead
  deriving DecidableEq

def statusRank : MemberStatus → ℕ
  | .alive => 0
  | .suspect => 1
  | .dead => 2

theorem statusRank_injective : Function.Injective statusRank := by
  intro a b h
  cases a <;> cases b <;> first | rfl | contradiction

structure NodeAddrWire where
  nodeId : String
  scheme : String
  host : String
  port : ℕ
  deriving DecidableEq

structure Member where
  nodeId : String
  addr : NodeAddrWire
  status : MemberStatus
  incarnation : ℕ
  statusUntilMs : ℕ
  metadata : List UInt8
  deriving DecidableEq

/-- `(incarnation, status_rank)`, compared as the source compares its keys. -/
def Member.version (m : Member) : ℕ ×ₗ ℕ := toLex (m.incarnation,statusRank m.status)

/-- The records by node id. Every insertion of the source files a record under its own id. -/
structure Members where
  table : Finmap fun _ : String => Member
  keyed : ∀ id m, table.lookup id=some m → m.nodeId=id

namespace Members

variable (t : Members)

def get (id : String) : Option Member := t.table.lookup id

theorem insert_keyed (m : Member) (id : String) (x : Member)
    (h : (t.table.insert m.nodeId m).lookup id=some x) : x.nodeId=id := by
  by_cases hid : id=m.nodeId
  · subst hid
    rw [Finmap.lookup_insert] at h
    exact congrArg Member.nodeId (Option.some.inj h).symm
  · rw [Finmap.lookup_insert_of_ne _ hid] at h
    exact t.keyed id x h

theorem remove_keyed (key id : String) (x : Member) (h : (t.table.erase key).lookup id=some x) : x.nodeId=id := by
  by_cases hid : id=key
  · subst hid
    rw [Finmap.lookup_erase] at h
    contradiction
  · rw [Finmap.lookup_erase_ne hid] at h
    exact t.keyed id x h

def empty : Members := ⟨∅,fun _ _ h => nomatch (Finmap.lookup_empty _).symm.trans h⟩
def insert (m : Member) : Members := ⟨t.table.insert m.nodeId m,t.insert_keyed m⟩
def remove (id : String) : Members := ⟨t.table.erase id,t.remove_keyed id⟩

/-- `values().cloned().collect()`, in any of the map's orders. -/
def Listing (l : List Member) : Prop := (l : Multiset Member)=t.table.entries.map Sigma.snd

@[simp] theorem get_insert_self (m : Member) : (t.insert m).get m.nodeId=some m := Finmap.lookup_insert _

theorem get_insert_of_ne {t : Members} {m : Member} {id : String} (h : id≠m.nodeId) : (t.insert m).get id=t.get id :=
  Finmap.lookup_insert_of_ne _ h

theorem get_insert (m : Member) (id : String) : (t.insert m).get id=if id=m.nodeId then some m else t.get id := by
  split
  · rename_i h
    rw [h,get_insert_self]
  · rename_i h
    exact get_insert_of_ne h

theorem get_remove_of_ne {t : Members} {key id : String} (h : id≠key) : (t.remove key).get id=t.get id :=
  Finmap.lookup_erase_ne h

theorem get_nodeId {t : Members} {id : String} {m : Member} (h : t.get id=some m) : m.nodeId=id := t.keyed id m h

theorem Listing.mem {t : Members} {l : List Member} (h : t.Listing l) {m : Member} : m∈l ↔ t.get m.nodeId=some m := by
  rw [← Multiset.mem_coe,h,Multiset.mem_map]
  constructor
  · intro hm
    obtain ⟨⟨id,x⟩,hx,rfl⟩:=hm
    have hget : t.get id=some x := Finmap.lookup_eq_some_iff.mpr hx
    rw [get_nodeId hget]
    exact hget
  · intro hm
    exact ⟨⟨m.nodeId,m⟩,Finmap.lookup_eq_some_iff.mp hm,rfl⟩

end Members

structure Membership where
  members : Members
  nowMs : ℕ
  suspectTimeout : ℕ
  deadRetention : ℕ
  owner : Option Member

inductive MemberEvent where
  | upsert (m : Member)
  | remove (id : String)

structure MembershipGossip where
  events : List MemberEvent
  seenFrom : String
  digest : UInt64
  fullSync : Option (List Member)

namespace Membership

/-- `SwimConfig::default()`: three seconds of suspicion, a day of retention. -/
def new (nowMs : ℕ) : Membership := ⟨.empty,nowMs,3000,24*3600*1000,none⟩

variable (s : Membership)

def publishLocal (addr : NodeAddrWire) : Membership :=
  let member : Member := ⟨addr.nodeId,addr,.alive,1,0,[]⟩
  {s with owner:=some member,members:=s.members.insert member}

/-- A view of the owner: the owner answers a conflicting one with a higher incarnation. -/
def mergeOwner (owner incoming : Member) : Bool × Membership :=
  let current:=s.members.get owner.nodeId
  let incarnation:=(current.map fun m => max m.incarnation owner.incarnation).getD owner.incarnation
  if incoming.incarnation < incarnation then (false,s)
  else
    let conflict:=incoming.status ≠ .alive ∨ incoming.addr≠owner.addr ∨ incoming.metadata≠owner.metadata
    match if conflict then checkedAdd incoming.incarnation 1 else some incoming.incarnation with
    | none => (false,s)
    | some next =>
      let owner:={owner with incarnation:=next}
      if current≠some owner then (true,{s with members:=s.members.insert owner,owner:=some owner})
      else (false,s)

def setClock (nowMs : ℕ) : Membership := {s with nowMs:=nowMs}

/-- An accepted failure starts its deadline on the receiving clock. -/
def localMember (m : Member) : Member :=
  match m.status with
  | .alive => {m with statusUntilMs:=0}
  | .suspect => {m with statusUntilMs:=saturatingAdd s.nowMs (min s.suspectTimeout u64Max)}
  | .dead => {m with statusUntilMs:=saturatingAdd s.nowMs (min s.deadRetention u64Max)}

def owns (id : String) : Option Member := s.owner.filter fun owner => owner.nodeId=id

def mergeEvent : MemberEvent → Bool × Membership
  | .upsert m =>
    match s.owns m.nodeId with
    | some owner => s.mergeOwner owner m
    | none =>
      match s.members.get m.nodeId with
      | some cur => if cur.version < m.version then (true,{s with members:=s.members.insert (s.localMember m)}) else (false,s)
      | none => (true,{s with members:=s.members.insert (s.localMember m)})
  | .remove id =>
    match s.owns id with
    | some _ => (false,s)
    | none => ((s.members.get id).isSome,{s with members:=s.members.remove id})

def mergeAll (events : List MemberEvent) : Membership := events.foldl (fun s ev => (s.mergeEvent ev).2) s

/-- One member's turn of `tick_with_retention`: what became dead and what was removed. -/
def expire (retentionMs : ℕ) (p : Membership × List Member × List String) (id : String) :
    Membership × List Member × List String :=
  match p.1.members.get id with
  | none => p
  | some m =>
    if m.status=.suspect ∧ p.1.nowMs≥m.statusUntilMs then
      let m:={m with status:=.dead,statusUntilMs:=saturatingAdd p.1.nowMs retentionMs}
      ({p.1 with members:=p.1.members.insert m},p.2.1++[m],p.2.2)
    else if m.status=.dead ∧ p.1.nowMs≥m.statusUntilMs then
      ({p.1 with members:=p.1.members.remove id},p.2.1,p.2.2++[id])
    else p

/-- `ids` are the keys, in the map's order. -/
def tickWithRetention (ids : List String) (deadRetention : ℕ) :
    Membership × List Member × List String :=
  ids.foldl (expire (min deadRetention u64Max)) (s,[],[])

def tick (ids : List String) : Membership × List Member × List String :=
  s.tickWithRetention ids (24*3600*1000)

def markSuspectWithTimeout (nodeId : String) (timeout : ℕ) : Bool × Membership :=
  match s.members.get nodeId with
  | some m =>
    if m.status=.alive then
      let m:={m with status:=.suspect,statusUntilMs:=saturatingAdd s.nowMs (min timeout u64Max)}
      (true,{s with members:=s.members.insert m})
    else (false,s)
  | none => (false,s)

def refute (nodeId : String) : Option Member × Membership :=
  match s.members.get nodeId with
  | some m =>
    if m.status ≠ .alive then
      match checkedAdd m.incarnation 1 with
      | none => (none,s)
      | some incarnation =>
        let m:={m with incarnation:=incarnation,status:=.alive,statusUntilMs:=0}
        match s.owns nodeId with
        | some owner =>
          let m:={m with addr:=owner.addr,metadata:=owner.metadata}
          (some m,{s with members:=s.members.insert m,owner:=some m})
        | none => (some m,{s with members:=s.members.insert m})
    else (none,s)
  | none => (none,s)

end Membership

def fxhash (s : String) : UInt64 :=
  (Bincode.utf8 s).foldl (fun h b => (h ^^^ b.toUInt64)*0x100000001b3) 0xcbf29ce484222325

def memberHash (hash : String → UInt64) (m : Member) : UInt64 :=
  hash m.nodeId ^^^ hash (toString m.incarnation) ^^^ (UInt64.ofNat (statusRank m.status) <<< 56) ^^^
    hash m.addr.host ^^^ (UInt64.ofNat m.addr.port*0x9e3779b97f4a7c15) ^^^ hash m.addr.scheme

/-- The fingerprint with `hash` for `fxhash`. A record's key is its node id. -/
def Membership.digestWith (hash : String → UInt64) (s : Membership) : UInt64 :=
  (s.members.table.entries.map fun e => memberHash hash e.2).fold (· ^^^ ·) 0

def Membership.digest (s : Membership) : UInt64 := s.digestWith fxhash

/-- The fingerprint that `handle_gossip` compares is taken after the events were merged. -/
def handleGossip (hash : String → UInt64) (s : Membership) (g : MembershipGossip) : Bool × Membership :=
  let s:=s.mergeAll g.events
  match g.fullSync with
  | some full => (false,s.mergeAll (full.map .upsert))
  | none => (decide (g.digest≠s.digestWith hash),s)

end Parrot.Swim
