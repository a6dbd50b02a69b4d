import Parrot.Raft.Handlers

/-! # A node driven by arbitrary input

A session is a node together with everything `committed()` has returned so far. -/

namespace Parrot.Raft
open Machine

structure Session where
  node : RaftNode
  handed : List LogEntry

inductive Event where
  | tick (clock : Clock)
  | propose (cmd : Bytes)
  | outbox
  | committed
  | step (clock : Clock) (sender : NodeId) (rpc : RaftRpc)

namespace Session

def start (clock : Clock) (id : NodeId) (peers : List NodeId) : Session :=
  ⟨RaftNode.new clock id peers,[]⟩

def drive (s : Session) : Event → Except Panic Session
  | .tick clock => (s.node.tick clock).map fun n => {s with node:=n}
  | .propose cmd => (s.node.propose cmd).map fun r => {s with node:=r.2}
  | .outbox => .ok {s with node:=s.node.takeOutbox.2}
  | .committed => .ok ⟨s.node.committed.2,s.handed++s.node.committed.1⟩
  | .step clock sender rpc => (s.node.step clock sender rpc).map fun n => {s with node:=n}

def run (s : Session) (events : List Event) : Except Panic Session := events.foldlM drive s

/-- No abort but the allocator's, and `P` of the state reached. -/
def Safe (P : Session → Prop) : Except Panic Session → Prop
  | .ok s => P s
  | .error p => p=.capacityOverflow

end Session

def Published (handed : List LogEntry) (n : RaftNode) : Prop :=
  handed++n.pendingApply=n.log.take n.commitIndex

structure Progress (n n' : RaftNode) : Prop where
  term_le : n.currentTerm≤n'.currentTerm
  commit_le : n.commitIndex≤n'.commitIndex
  kept : n'.log.take n.commitIndex=n.log.take n.commitIndex
  published : ∀ handed, Published handed n → Published handed n'

theorem Progress.refl (n : RaftNode) : Progress n n :=
  ⟨le_rfl,le_rfl,rfl,fun _ h => h⟩

theorem Progress.trans {a b c : RaftNode} (h : Progress a b) (g : Progress b c) : Progress a c := by
  refine ⟨h.term_le.trans g.term_le,h.commit_le.trans g.commit_le,?_,
    fun handed hp => g.published handed (h.published handed hp)⟩
  calc c.log.take a.commitIndex
      = (c.log.take b.commitIndex).take a.commitIndex := by
        rw [List.take_take,Nat.min_eq_left h.commit_le]
    _ = b.log.take a.commitIndex := by rw [g.kept,List.take_take,Nat.min_eq_left h.commit_le]
    _ = a.log.take a.commitIndex := h.kept

theorem published_slice {handed pending log log' : List LogEntry} {c c' : ℕ} (h : handed++pending=log.take c)
    (hkept : log'.take c=log.take c) (hc : c≤c') : handed++(pending++(log'.take c').drop c)=log'.take c' := by
  have hfront : (log'.take c').take c=log.take c := by
    rw [List.take_take,Nat.min_eq_left hc,hkept]
  rw [← List.append_assoc,h,← hfront,List.take_append_drop]

variable {inp : Input} {n n' : RaftNode}

theorem move_progress (hm : Move inp n n') (h : WellFormed n) : Progress n n' := by
  cases hm with
  | observe term hlt =>
    rw [observeTerm_of_lt hlt]
    exact ⟨hlt.le,le_rfl,rfl,fun _ hp => hp⟩
  | campaign clock _ _ => exact ⟨Nat.le_succ _,le_rfl,rfl,fun _ hp => hp⟩
  | accept c prev prevTerm entries commit plan _ _ _ _ hval hplan _ =>
    have hkept:=accepted_keeps c commit hval hplan
    refine ⟨le_rfl,Nat.le_max_left _ _,hkept,?_⟩
    intro handed hp
    exact published_slice hp hkept (Nat.le_max_left _ _)
  | commit m _ hnew _ _ _ =>
    refine ⟨le_rfl,hnew.le,rfl,?_⟩
    intro handed hp
    exact published_slice hp rfl hnew.le
  | append cmd _ _ _ =>
    have hkept : (n.log++[LogEntry.mk n.currentTerm (n.log.length+1) cmd]).take n.commitIndex =
        n.log.take n.commitIndex := List.take_append_of_le_length h.commit_le
    exact ⟨le_rfl,le_rfl,hkept,fun handed hp => Eq.trans hp hkept.symm⟩
  | _ => exact ⟨le_rfl,le_rfl,rfl,fun _ hp => hp⟩

theorem moves_progress (hm : Moves inp n n') (h : WellFormed n) : Progress n n' := by
  induction hm with
  | refl => exact Progress.refl n
  | tail hmoves hstep ih => exact ih.trans (move_progress hstep (moves_wellFormed hmoves h))

def Session.Inv (s : Session) : Prop := WellFormed s.node ∧ Published s.handed s.node

/-- The part of `Progress` that a reader of the node can observe. -/
structure Extends (n n' : RaftNode) : Prop where
  term_le : n.currentTerm≤n'.currentTerm
  commit_le : n.commitIndex≤n'.commitIndex
  kept : n'.log.take n.commitIndex=n.log.take n.commitIndex

theorem Progress.extends (h : Progress n n') : Extends n n' :=
  ⟨h.term_le,h.commit_le,h.kept⟩

variable {s : Session}

theorem inv_of_moves {n' : RaftNode} (h : s.Inv)
    (hm : Moves inp s.node n') :
    Session.Inv {s with node:=n'} ∧ Extends s.node n' := by
  have hp:=moves_progress hm h.1
  exact ⟨⟨moves_wellFormed hm h.1,hp.published _ h.2⟩,hp.extends⟩

theorem safe_of_handled {r : Except Panic RaftNode}
    (h : s.Inv) (hr : Handled inp s.node r) :
    Session.Safe (fun s' => s'.Inv ∧ Extends s.node s'.node)
      (r.map fun n => {s with node:=n}) := by
  rcases hr with ⟨n',rfl,hm⟩ | rfl
  · exact inv_of_moves h hm
  · rfl

theorem drive_safe (h : s.Inv) (ev : Event) :
    Session.Safe (fun s' => s'.Inv ∧ Extends s.node s'.node) (s.drive ev) := by
  cases ev with
  | tick clock => exact safe_of_handled h (.inl (tick_moved h.1 clock))
  | step clock sender rpc => exact safe_of_handled h (step_handled h.1 clock sender rpc)
  | propose cmd =>
    rcases propose_handled h.1 cmd with ⟨r,n',heq,hm⟩ | heq
    · simp only [Session.drive,heq,Except.map]
      exact inv_of_moves h hm
    · simp only [Session.drive,heq,Except.map]
      rfl
  | outbox =>
    obtain ⟨⟨hix,hpos,hord,hbd,happ,hcl,hact,hnext,hcap⟩,hpub⟩:=h
    exact ⟨⟨⟨hix,hpos,hord,hbd,happ,hcl,hact,hnext,hcap⟩,hpub⟩,le_rfl,le_rfl,rfl⟩
  | committed =>
    obtain ⟨⟨hix,hpos,hord,hbd,happ,hcl,hact,hnext,hcap⟩,hpub⟩:=h
    refine ⟨⟨⟨hix,hpos,hord,hbd,happ,hcl,hact,hnext,hcap⟩,?_⟩,le_rfl,le_rfl,rfl⟩
    simpa [Published,RaftNode.committed] using hpub

theorem run_safe (h : s.Inv) (events : List Event) : Session.Safe Session.Inv (s.run events) := by
  induction events generalizing s with
  | nil => exact h
  | cons ev events ih =>
    have hd:=drive_safe h ev
    unfold Session.run at ih ⊢
    rw [List.foldlM_cons]
    cases hs : s.drive ev with
    | ok s' =>
      rw [hs] at hd
      exact ih hd.1
    | error p =>
      rw [hs] at hd
      exact hd

theorem start_inv (clock : Clock) (id : NodeId) (peers : List NodeId) : (Session.start clock id peers).Inv :=
  ⟨wellFormed_new clock id peers,by simp [Published,Session.start,RaftNode.new]⟩

/-- The invariants of a node in the words of its own fields. -/
structure Robust (s : Session) : Prop where
  index_eq : ∀ i e, s.node.log[i]? = some e → e.index=i+1
  term_pos : ∀ e∈s.node.log, 0<e.term
  term_mono : s.node.log.Pairwise fun a b => a.term≤b.term
  term_le : ∀ e∈s.node.log, e.term ≤ s.node.currentTerm
  applied : s.node.commitIndex=s.node.lastApplied
  commit_le : s.node.commitIndex ≤ s.node.log.length
  handed_eq : s.handed++s.node.pendingApply=s.node.log.take s.node.commitIndex
  handed_once : (s.handed++s.node.pendingApply).map LogEntry.index=List.range' 1 s.node.commitIndex

theorem indexes_range {log : List LogEntry} (h : Indexed log) {c : ℕ} (hc : c≤log.length) :
    (log.take c).map LogEntry.index=List.range' 1 c := by
  apply List.ext_getElem
  · simp [Nat.min_eq_left hc]
  · intro i h1 h2
    have hi : i<c := by simpa using h2
    have hget:=h i _ (List.getElem?_eq_getElem (show i<log.length by omega))
    simp only [List.getElem_map,List.getElem_take,List.getElem_range',hget]
    omega

theorem Session.Inv.robust (h : s.Inv) : Robust s :=
  ⟨h.1.indexed,h.1.positive,h.1.ordered,h.1.bounded,h.1.applied,h.1.commit_le,h.2,by
    rw [h.2]
    exact indexes_range h.1.indexed h.1.commit_le⟩

/- Every run of a new node on arbitrary input: no index, slice, addition or debug
assertion fails, the invariants hold in the state reached, and whatever event
comes next neither lowers the term or the commit index nor touches a committed
entry. -/
theorem robust_against_arbitrary_input (clock : Clock) (id : NodeId) (peers : List NodeId) (events : List Event) :
    Session.Safe (fun s => Robust s ∧ ∀ ev, Session.Safe (fun s' => Extends s.node s'.node) (s.drive ev))
    ((Session.start clock id peers).run events) := by
  have hrun:=run_safe (start_inv clock id peers) events
  cases hs : (Session.start clock id peers).run events with
  | error p =>
    rw [hs] at hrun
    exact hrun
  | ok s =>
    rw [hs] at hrun
    refine ⟨hrun.robust,?_⟩
    intro ev
    have hd:=drive_safe hrun ev
    cases he : s.drive ev with
    | ok s' =>
      rw [he] at hd
      exact hd.2
    | error p =>
      rw [he] at hd
      exact hd

end Parrot.Raft
