import Parrot.Swim.Merge

/-! # A running node vouches for itself

The owner's record stays in the table as the process published it. -/

namespace Parrot.Swim
open Machine

/-- What happens to a table after `publish_local`. `ids` is the map's order of keys. -/
inductive MembershipOp where
  | merge (ev : MemberEvent)
  | gossip (g : MembershipGossip)
  | setClock (nowMs : ℕ)
  | tick (ids : List String)
  | maintain (nowMs : ℕ) (ids : List String) (deadRetention : ℕ)

/-- `maintain` is the maintenance turn of `run_inner`. -/
def Membership.perform (selfNode : String) (s : Membership) : MembershipOp → Membership
  | .merge ev => (s.mergeEvent ev).2
  | .gossip g => (handleGossip fxhash s g).2
  | .setClock nowMs => s.setClock nowMs
  | .tick ids => (s.tick ids).1
  | .maintain nowMs ids deadRetention => (((s.setClock nowMs).refute selfNode).2.tickWithRetention ids deadRetention).1

structure Vouched (addr : NodeAddrWire) (s : Membership) (o : Member) : Prop where
  owner : s.owner=some o
  held : s.members.get addr.nodeId=some o
  nodeId : o.nodeId=addr.nodeId
  addr : o.addr=addr
  metadata : o.metadata=[]
  status : o.status=.alive

def Conflicts (addr : NodeAddrWire) (view : Member) : Prop :=
  view.status ≠ .alive ∨ view.addr≠addr ∨ view.metadata≠[]

section owner
variable {addr : NodeAddrWire} {s : Membership} {o : Member}

theorem publishLocal_vouched (s : Membership) (addr : NodeAddrWire) :
    Vouched addr (s.publishLocal addr) ⟨addr.nodeId,addr,.alive,1,0,[]⟩ :=
  ⟨rfl,Members.get_insert_self _ ⟨addr.nodeId,addr,.alive,1,0,[]⟩,rfl,rfl,rfl,rfl⟩

section
variable (h : Vouched addr s o)
include h

theorem Vouched.owns_self : s.owns addr.nodeId=some o := by
  unfold Membership.owns
  rw [h.owner]
  simp [h.nodeId]

theorem Vouched.owns_other {id : String} (hid : id≠addr.nodeId) : s.owns id=none := by
  unfold Membership.owns
  rw [h.owner]
  simp [h.nodeId,hid.symm]

theorem Vouched.other {t : Membership} (howner : t.owner=s.owner)
    (hheld : t.members.get addr.nodeId=s.members.get addr.nodeId) : Vouched addr t o :=
  ⟨howner.trans h.owner,hheld.trans h.held,h.nodeId,h.addr,h.metadata,h.status⟩

theorem Vouched.insert {m : Member} (hm : m.nodeId≠addr.nodeId) :
    Vouched addr {s with members:=s.members.insert m} o := h.other rfl (Members.get_insert_of_ne hm.symm)

theorem Vouched.raise (next : ℕ) :
    Vouched addr {s with members := s.members.insert {o with incarnation:=next},owner := some {o with incarnation:=next}}
      {o with incarnation:=next} where
  owner := rfl
  held := by
    rw [← h.nodeId]
    exact Members.get_insert_self s.members {o with incarnation:=next}
  nodeId := h.nodeId
  addr := h.addr
  metadata := h.metadata
  status := h.status

theorem mergeOwner_vouched (view : Member) : ∃ o', Vouched addr (s.mergeOwner o view).2 o' ∧
    o.incarnation≤o'.incarnation ∧ (Conflicts addr view → o.incarnation≤view.incarnation → view.incarnation<u64Max →
    view.incarnation<o'.incarnation) := by
  unfold Membership.mergeOwner
  simp only [h.nodeId,h.held,h.addr,h.metadata,Option.map_some,max_self,Option.getD_some]
  by_cases hold : view.incarnation<o.incarnation
  · rw [if_pos hold]
    exact ⟨o,h,le_rfl,fun _ hle => absurd hold (not_lt.mpr hle)⟩
  · rw [if_neg hold]
    cases hnext : if view.status ≠ .alive ∨ view.addr≠addr ∨ view.metadata≠[] then checkedAdd view.incarnation 1
        else some view.incarnation with
    | none =>
      refine ⟨o,h,le_rfl,?_⟩
      intro hconflict hle hmax
      unfold Conflicts at hconflict
      rw [if_pos hconflict,checkedAdd,if_pos (by omega)] at hnext
      contradiction
    | some next =>
      have hge : view.incarnation≤next ∧ (Conflicts addr view → view.incarnation<next) := by
        by_cases hconflict : view.status ≠ .alive ∨ view.addr≠addr ∨ view.metadata≠[]
        · rw [if_pos hconflict] at hnext
          obtain ⟨rfl,-⟩:=checkedAdd_eq_some.mp hnext
          exact ⟨Nat.le_succ _,fun _ => Nat.lt_succ_self _⟩
        · rw [if_neg hconflict] at hnext
          exact ⟨(Option.some.inj hnext).le,fun hc => absurd hc hconflict⟩
      dsimp only
      split
      · have hraised:=h.raise next
        rw [h.nodeId,h.addr,h.metadata] at hraised
        exact ⟨_,hraised,by simp only; omega,fun hc _ _ => hge.2 hc⟩
      · rename_i hsame
        have heq:=Option.some.inj (not_not.mp hsame)
        have hnext : o.incarnation=next := congrArg Member.incarnation heq
        exact ⟨o,h,le_rfl,fun hc _ _ => hnext ▸ hge.2 hc⟩

theorem mergeEvent_vouched (ev : MemberEvent) :
    ∃ o', Vouched addr (s.mergeEvent ev).2 o' ∧ o.incarnation≤o'.incarnation := by
  cases ev with
  | upsert m =>
    unfold Membership.mergeEvent
    by_cases hid : m.nodeId=addr.nodeId
    · simp only [hid,h.owns_self]
      obtain ⟨o',ho,hle,-⟩:=mergeOwner_vouched h m
      exact ⟨o',ho,hle⟩
    · simp only [h.owns_other hid]
      refine ⟨o,?_,le_rfl⟩
      have hlocal : (s.localMember m).nodeId≠addr.nodeId := by rwa [localMember_nodeId]
      cases s.members.get m.nodeId with
      | none => exact h.insert hlocal
      | some cur =>
        dsimp only
        split
        · exact h.insert hlocal
        · exact h
  | remove id =>
    unfold Membership.mergeEvent
    by_cases hid : id=addr.nodeId
    · simp only [hid,h.owns_self]
      exact ⟨o,h,le_rfl⟩
    · simp only [h.owns_other hid]
      exact ⟨o,h.other rfl (Members.get_remove_of_ne (Ne.symm hid)),le_rfl⟩

theorem mergeAll_vouched (events : List MemberEvent) :
    ∃ o', Vouched addr (s.mergeAll events) o' ∧ o.incarnation≤o'.incarnation := by
  induction events generalizing s o with
  | nil => exact ⟨o,h,le_rfl⟩
  | cons ev events ih =>
    obtain ⟨o1,h1,hle1⟩:=mergeEvent_vouched h ev
    obtain ⟨o2,h2,hle2⟩:=ih h1
    exact ⟨o2,h2,hle1.trans hle2⟩

theorem handleGossip_vouched (g : MembershipGossip) :
    ∃ o', Vouched addr (handleGossip fxhash s g).2 o' ∧ o.incarnation≤o'.incarnation := by
  obtain ⟨o1,h1,hle1⟩:=mergeAll_vouched h g.events
  unfold handleGossip
  cases g.fullSync with
  | none => exact ⟨o1,h1,hle1⟩
  | some full =>
    obtain ⟨o2,h2,hle2⟩:=mergeAll_vouched h1 (full.map .upsert)
    exact ⟨o2,h2,hle1.trans hle2⟩

end

theorem expire_vouched {p : Membership × List Member × List String} (h : Vouched addr p.1 o) (retentionMs : ℕ) (id : String) :
    Vouched addr (Membership.expire retentionMs p id).1 o := by
  unfold Membership.expire
  by_cases hid : id=addr.nodeId
  · simp [hid,h.held,h.status,h]
  · cases hget : p.1.members.get id with
    | none => exact h
    | some m =>
      have hm : m.nodeId≠addr.nodeId := by rwa [Members.get_nodeId hget]
      dsimp only
      split
      · exact h.insert hm
      · split
        · exact h.other rfl (Members.get_remove_of_ne (Ne.symm hid))
        · exact h

theorem tick_vouched (h : Vouched addr s o) (ids : List String) (deadRetention : ℕ) :
    Vouched addr (s.tickWithRetention ids deadRetention).1 o := by
  unfold Membership.tickWithRetention
  generalize hp : (s,([] : List Member),([] : List String))=p
  have hvouched : Vouched addr p.1 o := by rwa [← hp]
  clear hp
  induction ids generalizing p with
  | nil => exact hvouched
  | cons id ids ih => exact ih _ (expire_vouched hvouched _ id)

theorem refute_vouched (h : Vouched addr s o) (nodeId : String) : Vouched addr (s.refute nodeId).2 o := by
  unfold Membership.refute
  by_cases hid : nodeId=addr.nodeId
  · simp [hid,h.held,h.status,h]
  · cases hget : s.members.get nodeId with
    | none => exact h
    | some m =>
      have hm : m.nodeId≠addr.nodeId := by rwa [Members.get_nodeId hget]
      simp only [h.owns_other hid]
      split
      · split
        · exact h
        · exact h.insert hm
      · exact h

theorem perform_vouched (selfNode : String) (h : Vouched addr s o) (op : MembershipOp) :
    ∃ o', Vouched addr (s.perform selfNode op) o' ∧ o.incarnation≤o'.incarnation := by
  cases op with
  | merge ev => exact mergeEvent_vouched h ev
  | gossip g => exact handleGossip_vouched h g
  | setClock nowMs => exact ⟨o,h.other rfl rfl,le_rfl⟩
  | tick ids => exact ⟨o,tick_vouched h ids _,le_rfl⟩
  | maintain nowMs ids deadRetention =>
    have hclock : Vouched addr (s.setClock nowMs) o := h.other rfl rfl
    exact ⟨o,tick_vouched (refute_vouched hclock selfNode) ids deadRetention,le_rfl⟩

theorem performs_vouched (selfNode : String) (h : Vouched addr s o) (ops : List MembershipOp) :
    ∃ o', Vouched addr (ops.foldl (Membership.perform selfNode) s) o' ∧ o.incarnation≤o'.incarnation := by
  induction ops generalizing s o with
  | nil => exact ⟨o,h,le_rfl⟩
  | cons op ops ih =>
    obtain ⟨o1,h1,hle1⟩:=perform_vouched selfNode h op
    obtain ⟨o2,h2,hle2⟩:=ih h1
    exact ⟨o2,h2,hle1.trans hle2⟩

end owner

/-- After any operations the owner's record is alive at its own address. Its incarnation
only grows, and a conflicting view that is not older raises it past the view's. -/
theorem owner_vouches (start : Membership) (addr : NodeAddrWire) (selfNode : String) (ops : List MembershipOp) : ∃ o,
    (ops.foldl (Membership.perform selfNode) (start.publishLocal addr)).members.get addr.nodeId=some o ∧ o.addr=addr ∧
    o.metadata=[] ∧ o.status=.alive ∧ (∀ later : List MembershipOp, ∃ o',
    ((ops++later).foldl (Membership.perform selfNode) (start.publishLocal addr)).members.get addr.nodeId=some o' ∧
    o.incarnation≤o'.incarnation) ∧ ∀ view : Member, view.nodeId=addr.nodeId → Conflicts addr view →
    o.incarnation≤view.incarnation → view.incarnation<u64Max → ∃ o',
    (((ops.foldl (Membership.perform selfNode) (start.publishLocal addr)).mergeEvent (.upsert view)).2).members.get
    addr.nodeId=some o' ∧ view.incarnation<o'.incarnation := by
  obtain ⟨o,h,-⟩:=performs_vouched selfNode (publishLocal_vouched start addr) ops
  refine ⟨o,h.held,h.addr,h.metadata,h.status,?_,?_⟩
  · intro later
    obtain ⟨o',h',hle⟩:=performs_vouched selfNode h later
    rw [List.foldl_append]
    exact ⟨o',h'.held,hle⟩
  · intro view hid hconflict hle hmax
    obtain ⟨o',h',-,hlt⟩:=mergeOwner_vouched h view
    unfold Membership.mergeEvent
    simp only [hid,h.owns_self]
    exact ⟨o',h'.held,hlt hconflict hle hmax⟩

end Parrot.Swim
