import Parrot.Scheduler.Order
import Parrot.Scheduler.Slot

/-! # Where a mailbox waits

The queue of a pool keeps every registered mailbox alive: the map of scheduled paths holds it,
or the call that takes it out. -/

namespace Parrot.Scheduler
open QueueState

def allAlive : Alive := fun _ => true

def residentCount (q : QueueState) (mailbox : ℕ) : ℕ := (residentsOf q).countP fun e => e.mailbox==mailbox

def markerCount (q : QueueState) (mailbox : ℕ) : ℕ := q.markers.countP fun e => e.mailbox==mailbox

def waiting (q : QueueState) (mailbox : ℕ) : ℕ := residentCount q mailbox+markerCount q mailbox

def Ready (capacity : ℕ) (q : QueueState) : Prop := ∃ a, Represents capacity ⟨q,allAlive⟩ a

variable {capacity : ℕ} {q q' : QueueState} {a : Pending} {mailbox : ℕ}

theorem new_ready (capacity : ℕ) : Ready capacity .new := ⟨_,start_represents capacity⟩

theorem waiting_eq (h : Represents capacity ⟨q,allAlive⟩ a) (mailbox : ℕ) :
    waiting q mailbox=a.entries.countP fun e => e.mailbox==mailbox := by
  have hperm:=h.pending.countP_eq fun e => e.mailbox==mailbox
  rw [← hperm]
  simp [waiting,residentCount,markerCount,pendingOf,allAlive]

theorem contains_eq (h : Represents capacity ⟨q,allAlive⟩ a) (mailbox : ℕ) : q.contains mailbox=decide (mailbox∈a.registered) := by
  have:=h.registered mailbox
  simp only [allAlive,true_and] at this
  rw [Bool.eq_iff_iff,decide_eq_true_iff]
  exact this.symm

theorem waiting_enter (mailbox : ℕ) (lane : Lane) (id : ℕ) : (a.enter mailbox lane).entries.countP
    (fun e => e.mailbox==id)=a.entries.countP (fun e => e.mailbox==id)+share id mailbox := by
  simp [Pending.enter,share]

structure Section (capacity : ℕ) (q q' : QueueState) : Prop where
  ready : Ready capacity q'
  closed : q'.closed=q.closed

theorem register_section (h : Ready capacity q) (hq : q.register mailbox=(true,q')) : Section capacity q q' ∧
    (∀ id, waiting q' id=waiting q id) ∧ ∀ id, q'.contains id=(q.contains id||mailbox==id) := by
  obtain ⟨a,ha⟩:=h
  have hstep : Represents capacity (QueueRun.step capacity ⟨q,allAlive⟩ (.register mailbox)).1 _ := (register_represents ha rfl).1
  simp only [QueueRun.step] at hstep
  rw [hq] at hstep
  simp only [QueueState.register] at hq
  split at hq
  · simp at hq
  · obtain rfl:=(Prod.mk.inj hq).2
    refine ⟨⟨⟨_,hstep⟩,rfl⟩,fun id => ?_,fun id => ?_⟩
    · simp [waiting,residentCount,markerCount,residentsOf,QueueState.markers]
    · simp [QueueState.contains]

theorem find_none (h : q.contains mailbox=false) : (q.registered.find? fun r => r.mailbox==mailbox)=none := by
  rw [List.find?_eq_none]
  intro r hr
  exact List.any_eq_false.mp h r hr

theorem enqueue_refused (lane : Lane) (h : q.closed=true ∨ q.contains mailbox=false) :
    q.enqueueRegistered allAlive capacity mailbox lane=(false,q) := by
  unfold QueueState.enqueueRegistered
  split
  · rfl
  · rename_i hopen
    rw [find_none (h.resolve_left hopen)]

theorem enqueue_enabled (hfree : waiting q mailbox=0) (lane : Lane) :
    QueueRun.Enabled ⟨q,allAlive⟩ (.enqueueRegistered mailbox lane) := by
  refine ⟨rfl,fun _ e he heq => ?_⟩
  have hzero : (residentsOf q++q.markers).countP (fun e => e.mailbox==mailbox)=0 := by
    rw [List.countP_append]
    exact hfree
  exact List.countP_eq_zero.mp hzero e he (beq_iff_eq.mpr heq)

theorem enqueue_section {lane : Lane} {ok : Bool} (h : Ready capacity q) (hfree : waiting q mailbox=0)
    (hq : q.enqueueRegistered allAlive capacity mailbox lane=(ok,q')) : Section capacity q q' ∧
      (∀ id, waiting q' id=waiting q id+if ok then share id mailbox else 0) ∧ (∀ id, q'.contains id=q.contains id) ∧
      (ok=false → q.closed=true ∨ q.contains mailbox=false) := by
  obtain ⟨a,ha⟩:=h
  obtain ⟨hstep,hout⟩:=step_represents ha (enqueue_enabled hfree lane)
  simp only [QueueRun.step,Pending.step] at hstep hout
  by_cases hrefused : a.closed=true ∨ mailbox∉a.registered
  · have hrefused : q.closed=true ∨ q.contains mailbox=false := by
      rw [contains_eq ha,decide_eq_false_iff_not]
      exact hrefused.imp_left ha.closed.trans
    rw [enqueue_refused lane hrefused] at hq
    cases hq
    exact ⟨⟨⟨a,ha⟩,rfl⟩,by simp,fun _ => rfl,fun _ => hrefused⟩
  · rw [if_neg hrefused,hq] at hstep hout
    obtain rfl : ok=true := QueueOutcome.accepted.inj hout
    refine ⟨⟨⟨_,hstep⟩,hstep.closed.trans ha.closed.symm⟩,fun id => ?_,fun id => ?_,by simp⟩
    · rw [waiting_eq hstep,waiting_eq ha,if_pos rfl]
      exact waiting_enter mailbox lane id
    · rw [contains_eq hstep,contains_eq ha]
      rfl

theorem pop_section {popped : Option ℕ} (h : Ready capacity q) (hq : q.tryPop allAlive capacity=(popped,q')) :
    Section capacity q q' ∧ (∀ id, waiting q' id+popped.elim 0 (share id)=waiting q id) ∧
      ∀ id, q'.contains id=q.contains id := by
  obtain ⟨a,ha⟩:=h
  obtain ⟨hstep,hout⟩:=pop_represents ha
  simp only [QueueRun.step,Pending.step] at hstep hout
  rw [hq] at hstep hout
  refine ⟨⟨⟨_,hstep⟩,?_⟩,fun id => ?_,fun id => ?_⟩
  · refine hstep.closed.trans (Eq.trans ?_ ha.closed.symm)
    split <;> rfl
  · rw [waiting_eq hstep,waiting_eq ha]
    cases hnext : a.next with
    | none =>
      rw [hnext] at hout
      obtain rfl:=QueueOutcome.popped.inj hout
      rfl
    | some e =>
      rw [hnext] at hout
      obtain rfl:=QueueOutcome.popped.inj hout
      have he : e∈a.entries := List.argmin_mem hnext
      have hcount:=(List.perm_cons_erase he).countP_eq fun e => e.mailbox==id
      rw [List.countP_cons] at hcount
      simp only [beq_iff_eq] at hcount
      exact hcount.symm
  · rw [contains_eq hstep,contains_eq ha]
    split <;> rfl

theorem removed_iff (q : QueueState) (mailbox : ℕ) :
    ((q.normal++q.high).any fun e => e.mailbox==mailbox)=true ↔ 0 < residentCount q mailbox := by
  rw [residentCount,List.countP_pos_iff,List.any_eq_true]
  simp only [residentsOf,List.mem_append]
  exact exists_congr fun e => and_congr_left fun _ => or_comm

theorem deferred_iff (hids : (q.registered.map Registration.mailbox).Nodup) (mailbox : ℕ) :
    ((q.registered.find? fun r => r.mailbox==mailbox).any fun r => r.deferred.isSome)=true ↔ 0 < markerCount q mailbox := by
  rw [markerCount,List.countP_pos_iff]
  constructor
  · intro hany
    obtain ⟨r,hfind,hdeferred⟩:=(Option.any_eq_true ..).mp hany
    obtain ⟨d,hd⟩:=Option.isSome_iff_exists.mp hdeferred
    have hmailbox : (r.mailbox==mailbox)=true := List.find?_some (p := fun r : Registration => r.mailbox==mailbox) hfind
    refine ⟨⟨r.mailbox,d⟩,?_,hmailbox⟩
    rw [markers_eq,mem_markersOf,← hd]
    exact List.mem_of_find?_eq_some hfind
  · rintro ⟨e,he,heq⟩
    obtain rfl:=beq_iff_eq.mp heq
    rw [find_registration hids (mem_markersOf.mp he)]
    rfl

theorem unregister_section {ok : Bool} (h : Ready capacity q) (hq : q.unregister allAlive capacity mailbox=(ok,q')) :
    Section capacity q q' ∧ (ok=true ↔ 0<waiting q mailbox) ∧
      (∀ id, waiting q' id=if id=mailbox then 0 else waiting q id) ∧
      ∀ id, q'.contains id=(q.contains id&&id != mailbox) := by
  obtain ⟨a,ha⟩:=h
  have hstep : Represents capacity (QueueRun.step capacity ⟨q,allAlive⟩ (.unregister mailbox)).1 _ := (unregister_represents ha).1
  simp only [QueueRun.step,Pending.step] at hstep
  rw [hq] at hstep
  refine ⟨⟨⟨_,hstep⟩,hstep.closed.trans ha.closed.symm⟩,?_,fun id => ?_,fun id => ?_⟩
  · have hok : (_||_)=ok := congrArg Prod.fst hq
    rw [← hok,Bool.or_eq_true]
    refine (or_congr (deferred_iff ha.sound.ids mailbox) (removed_iff q mailbox)).trans ?_
    change 0 < markerCount q mailbox ∨ _ ↔ _
    unfold waiting
    omega
  · rw [waiting_eq hstep,waiting_eq ha,Pending.others,List.countP_filter]
    split
    · rename_i heq
      subst heq
      simp
    · rename_i hne
      refine List.countP_congr fun e _ => ?_
      simp only [Bool.and_eq_true,beq_iff_eq,bne_iff_ne]
      exact ⟨fun h => h.1,fun h => ⟨h,fun heq => hne (h.symm.trans heq)⟩⟩
  · rw [contains_eq hstep,contains_eq ha,Bool.eq_iff_iff]
    simp

theorem close_section {mailboxes : List ℕ} (h : Ready capacity q) (hq : q.closeAndTake allAlive=(mailboxes,q')) :
    Ready capacity q' ∧ (∀ id, waiting q' id=0) ∧ (∀ id, mailboxes.count id=waiting q id) ∧ ∀ id, q'.contains id=false := by
  obtain ⟨a,ha⟩:=h
  obtain ⟨hstep,hout⟩:=close_represents ha
  simp only [QueueRun.step,Pending.step] at hstep hout
  rw [hq] at hstep hout
  refine ⟨⟨_,hstep⟩,fun id => ?_,fun id => ?_,fun id => ?_⟩
  · rw [waiting_eq hstep]
    rfl
  · have hperm:=Multiset.coe_eq_coe.mp (QueueOutcome.taken.inj hout)
    rw [hperm.count_eq,waiting_eq ha,List.count,List.countP_map]
    rfl
  · rw [contains_eq hstep]
    simp

end Parrot.Scheduler
