import Parrot.Scheduler.Pool

/-! # Who owns a mailbox of the pool

What each step can do, and the account that every step keeps: the slot word of a mailbox is
taken exactly while one place of the queue, one job or one call has it. -/

namespace Parrot.Scheduler.SharedPool

open Threads Threads.Program

variable {capacity : ℕ} {s s' : State} {t t' : Thread} {p p' : Pool} {a : Action} {move : Move}

section frames
variable (s : State) (mailbox id : ℕ) (m : Mailbox)

@[simp] theorem update_queue : (s.update mailbox m).schedulingQueue=s.schedulingQueue := rfl
theorem update_mailboxes : (s.update mailbox m).mailboxes id=if id=mailbox then m else s.mailboxes id :=
  Function.update_apply ..

theorem slot_setSlot (slot : ScheduleState) : (s.setSlot mailbox slot).slot id=if id=mailbox then slot else s.slot id := by
  unfold State.slot State.setSlot
  rw [update_mailboxes]
  split <;> rfl

variable {s mailbox m}

theorem update_keeps {α : Type} (g : Mailbox → α) (h : g m=g (s.mailboxes mailbox)) :
    g ((s.update mailbox m).mailboxes id)=g (s.mailboxes id) := by
  rw [update_mailboxes]
  split
  · rename_i heq
    rw [h,heq]
  · rfl

variable (s mailbox)

@[simp] theorem unlock_queue (hook : Bool) : (s.unlock mailbox hook).schedulingQueue=s.schedulingQueue := by
  cases hook <;> rfl

@[simp] theorem unlock_shuttingDown (hook : Bool) : (s.unlock mailbox hook).isShuttingDown=s.isShuttingDown := by
  cases hook <;> rfl

theorem unlock_keeps {α : Type} (g : Mailbox → α) (hook : Bool)
    (h : g {s.mailboxes mailbox with hookLocked:=false}=g (s.mailboxes mailbox)) :
    g ((s.unlock mailbox hook).mailboxes id)=g (s.mailboxes id) := by
  cases hook with
  | false => rfl
  | true => exact update_keeps id g h

@[simp] theorem slot_unlock (hook : Bool) : (s.unlock mailbox hook).slot id=s.slot id :=
  unlock_keeps s mailbox id Mailbox.scheduleState hook rfl

end frames

def Thread.leased : Thread → Option ℕ
  | .fetched mailbox | .batch mailbox | .finished mailbox | .checking mailbox | .counting mailbox => some mailbox
  | _ => none

inductive Advance (capacity : ℕ) (s : State) : Thread → State → Thread → Prop
  | refused {path mailbox} : Advance capacity s (.admitted path mailbox) s .done
  | register {path mailbox queue} (h : s.schedulingQueue.register mailbox=(true,queue)) :
    Advance capacity s (.admitted path mailbox)
      {s with schedulingQueue:=queue,scheduledPaths:=Function.update s.scheduledPaths path (some mailbox)} (.arming mailbox)
  | arm {mailbox} :
    Advance capacity s (.arming mailbox) (s.update mailbox {s.mailboxes mailbox with wakeHook:=true}) (.initial mailbox)
  | acquire {mailbox} (h : (s.slot mailbox).owned=false) :
    Advance capacity s (.initial mailbox) (s.setSlot mailbox ⟨true,false⟩) (.enqueueing mailbox .normal false)
  | record {mailbox} (h : (s.slot mailbox).owned=true) :
    Advance capacity s (.initial mailbox) (s.setSlot mailbox ⟨true,true⟩) .done
  | unhooked {mailbox} (h : (s.mailboxes mailbox).wakeHook=false) : Advance capacity s (.arrived mailbox) s .done
  | hook {mailbox} (h : (s.mailboxes mailbox).wakeHook=true) :
    Advance capacity s (.arrived mailbox) (s.update mailbox {s.mailboxes mailbox with hookLocked:=true}) (.hooked mailbox)
  | ignore {mailbox} (h : s.isShuttingDown=true) : Advance capacity s (.hooked mailbox) (s.unlock mailbox true) .done
  | heed {mailbox} : Advance capacity s (.hooked mailbox) s (.waking mailbox)
  | wakeAcquire {mailbox} (h : (s.slot mailbox).owned=false) :
    Advance capacity s (.waking mailbox) (s.setSlot mailbox ⟨true,false⟩) (.acquired mailbox true)
  | wakeRecord {mailbox} (h : (s.slot mailbox).owned=true) :
    Advance capacity s (.waking mailbox) ((s.setSlot mailbox ⟨true,true⟩).unlock mailbox true) .done
  | choose {mailbox lane hook} : Advance capacity s (.acquired mailbox hook) s (.enqueueing mailbox lane hook)
  | enqueue {mailbox lane hook queue} (h : s.schedulingQueue.enqueueRegistered allAlive capacity mailbox lane=(true,queue)) :
    Advance capacity s (.enqueueing mailbox lane hook) (State.unlock {s with schedulingQueue:=queue} mailbox hook) .done
  | reject {mailbox lane hook queue} (h : s.schedulingQueue.enqueueRegistered allAlive capacity mailbox lane=(false,queue)) :
    Advance capacity s (.enqueueing mailbox lane hook)
      ((State.forceRelease {s with schedulingQueue:=queue} mailbox).unlock mailbox hook) .done
  | withdraw {mailbox queue} (h : s.schedulingQueue.unregister allAlive capacity mailbox=(true,queue)) :
    Advance capacity s (.unregistering mailbox) (State.forceRelease {s with schedulingQueue:=queue} mailbox) .done
  | forget {mailbox queue} (h : s.schedulingQueue.unregister allAlive capacity mailbox=(false,queue)) :
    Advance capacity s (.unregistering mailbox) {s with schedulingQueue:=queue} .done
  | close {mailboxes queue} (h : s.schedulingQueue.closeAndTake allAlive=(mailboxes,queue)) :
    Advance capacity s .closing {s with schedulingQueue:=queue} (.discarding mailboxes)
  | discard {mailbox rest} : Advance capacity s (.discarding (mailbox::rest)) (s.forceRelease mailbox) (.discarding rest)
  | clear : Advance capacity s (.discarding []) {s with scheduledPaths:=fun _ => none} .done
  | accept {mailbox} : Advance capacity s (.fetched mailbox) s (.batch mailbox)
  | detached {mailbox} (h : (s.mailboxes mailbox).processor=false) : Advance capacity s (.fetched mailbox) s (.dropping mailbox)
  | abort {t mailbox} (h : s.isShuttingDown=true) (ht : t.leased=some mailbox) : Advance capacity s t s (.dropping mailbox)
  | pop {mailbox lane m} (h : (s.mailboxes mailbox).pop lane=some m) :
    Advance capacity s (.batch mailbox) (s.update mailbox m) (.batch mailbox)
  | finish {mailbox} : Advance capacity s (.batch mailbox) s (.finished mailbox)
  | fail {mailbox} :
    Advance capacity s (.batch mailbox) (s.update mailbox {s.mailboxes mailbox with failed:=true}) (.dropping mailbox)
  | cancel {mailbox} (h : (s.mailboxes mailbox).cancelled=true) : Advance capacity s (.batch mailbox) s (.dropping mailbox)
  | proceed {mailbox} : Advance capacity s (.finished mailbox) s (.checking mailbox)
  | shut {mailbox} (h : (s.mailboxes mailbox).closed=true) : Advance capacity s (.checking mailbox) s (.dropping mailbox)
  | inspect {mailbox} : Advance capacity s (.checking mailbox) s (.counting mailbox)
  | count {mailbox} : Advance capacity s (.counting mailbox) s (.releasing mailbox !(s.mailboxes mailbox).isEmpty)
  | requeue {mailbox hasMore} :
    Advance capacity s (.releasing mailbox hasMore) (s.setSlot mailbox ⟨true,false⟩) (.acquired mailbox false)
  | idle {mailbox hasMore} (h : hasMore=false ∧ (s.slot mailbox).wake=false) :
    Advance capacity s (.releasing mailbox hasMore) (s.setSlot mailbox ⟨false,false⟩) .done
  | drop {mailbox} : Advance capacity s (.dropping mailbox) (s.forceRelease mailbox) .done

theorem tryEnqueue_eq (mailbox : ℕ) (acquired recorded : State → State × Thread) :
    ((s.slot mailbox).owned=false ∧ tryEnqueue s mailbox acquired recorded=acquired (s.setSlot mailbox ⟨true,false⟩)) ∨
      ((s.slot mailbox).owned=true ∧ tryEnqueue s mailbox acquired recorded=recorded (s.setSlot mailbox ⟨true,true⟩)) := by
  rcases (s.slot mailbox).tryEnqueue_cases with ⟨h,howned⟩ | ⟨h,howned⟩
  · exact .inl ⟨howned,by simp [tryEnqueue,h]⟩
  · exact .inr ⟨howned,by simp [tryEnqueue,h]⟩

theorem call_advance (h : callStep s t=some (s',t')) : Advance capacity s t s' t' := by
  cases t with simp only [callStep,reduceCtorEq] at h
  | admitted path mailbox =>
    cases hpath : s.scheduledPaths path with
    | some other =>
      simp only [hpath,Option.some.injEq,Prod.mk.injEq] at h
      obtain ⟨rfl,rfl⟩:=h
      exact .refused
    | none =>
      simp only [hpath] at h
      cases hregister : s.schedulingQueue.register mailbox with
      | mk ok queue =>
        cases ok <;> simp only [hregister,Option.some.injEq,Prod.mk.injEq] at h <;> obtain ⟨rfl,rfl⟩ := h
        · exact .refused
        · exact .register hregister
  | arming mailbox =>
    simp only [Option.ite_none_left_eq_some,Option.some.injEq,Prod.mk.injEq] at h
    obtain ⟨_,rfl,rfl⟩:=h
    exact .arm
  | initial mailbox =>
    rcases tryEnqueue_eq (s:=s) mailbox (fun s => (s,Thread.enqueueing mailbox .normal false)) fun s => (s,.done) with
      ⟨ho,he⟩ | ⟨ho,he⟩ <;> simp only [he,Option.some.injEq,Prod.mk.injEq] at h <;> obtain ⟨rfl,rfl⟩ := h
    · exact .acquire ho
    · exact .record ho
  | arrived mailbox =>
    rw [Option.ite_none_left_eq_some] at h
    obtain ⟨_,h⟩:=h
    split at h <;> simp only [Option.some.injEq,Prod.mk.injEq] at h <;> obtain ⟨rfl,rfl⟩ := h
    · rename_i hhook
      exact .hook hhook
    · rename_i hnone
      exact .unhooked (by simpa using hnone)
  | hooked mailbox =>
    split at h <;> simp only [Option.some.injEq,Prod.mk.injEq] at h <;> obtain ⟨rfl,rfl⟩ := h
    · rename_i hdown
      exact .ignore hdown
    · exact .heed
  | waking mailbox =>
    rcases tryEnqueue_eq (s:=s) mailbox (fun s => (s,Thread.acquired mailbox true)) fun s => (s.unlock mailbox true,.done) with
      ⟨ho,he⟩ | ⟨ho,he⟩ <;> simp only [he,Option.some.injEq,Prod.mk.injEq] at h <;> obtain ⟨rfl,rfl⟩ := h
    · exact .wakeAcquire ho
    · exact .wakeRecord ho

theorem queue_advance (h : queueStep capacity s t=some (s',t')) : Advance capacity s t s' t' := by
  cases t with simp only [queueStep,reduceCtorEq] at h
  | acquired mailbox hook =>
    simp only [Option.some.injEq,Prod.mk.injEq] at h
    obtain ⟨rfl,rfl⟩:=h
    exact .choose
  | enqueueing mailbox lane hook =>
    cases hqueue : s.schedulingQueue.enqueueRegistered allAlive capacity mailbox lane with
    | mk ok queue =>
      cases ok <;> simp only [hqueue,Option.some.injEq,Prod.mk.injEq] at h <;> obtain ⟨rfl,rfl⟩ := h
      · exact .reject hqueue
      · exact .enqueue hqueue
  | unregistering mailbox =>
    cases hqueue : s.schedulingQueue.unregister allAlive capacity mailbox with
    | mk ok queue =>
      cases ok <;> simp only [hqueue,Option.some.injEq,Prod.mk.injEq] at h <;> obtain ⟨rfl,rfl⟩ := h
      · exact .forget hqueue
      · exact .withdraw hqueue
  | closing =>
    simp only [Option.some.injEq,Prod.mk.injEq] at h
    obtain ⟨rfl,rfl⟩:=h
    exact .close rfl
  | discarding mailboxes =>
    cases mailboxes <;> simp only [Option.some.injEq,Prod.mk.injEq] at h <;> obtain ⟨rfl,rfl⟩ := h
    · exact .clear
    · exact .discard

theorem read_advance {b : Bool} {u v : Thread} (h : some (s,if b=true then u else v)=some (s',t'))
    (hu : b=true → Advance capacity s t s u) (hv : b=false → Advance capacity s t s v) : Advance capacity s t s' t' := by
  simp only [Option.some.injEq,Prod.mk.injEq] at h
  obtain ⟨rfl,rfl⟩:=h
  cases b with
  | true => exact hu rfl
  | false => exact hv rfl

theorem abort_advance {mailbox : ℕ} (h : (if s.isShuttingDown=true then some (s,Thread.dropping mailbox) else none)=some (s',t'))
    (ht : t.leased=some mailbox) : Advance capacity s t s' t' := by
  simp only [Option.ite_none_right_eq_some,Option.some.injEq,Prod.mk.injEq] at h
  obtain ⟨hdown,rfl,rfl⟩:=h
  exact .abort hdown ht

theorem batch_advance {mailbox : ℕ} (h : workerStep move s (.batch mailbox)=some (s',t')) :
    Advance capacity s (.batch mailbox) s' t' := by
  cases move with simp only [workerStep] at h
  | go =>
    simp only [Option.some.injEq,Prod.mk.injEq] at h
    obtain ⟨rfl,rfl⟩:=h
    exact .finish
  | pop lane =>
    simp only [Option.map_eq_some_iff,Prod.mk.injEq] at h
    obtain ⟨m,hm,rfl,rfl⟩:=h
    exact .pop hm
  | fail =>
    simp only [Option.some.injEq,Prod.mk.injEq] at h
    obtain ⟨rfl,rfl⟩:=h
    exact .fail
  | cancel =>
    simp only [Option.ite_none_right_eq_some,Option.some.injEq,Prod.mk.injEq] at h
    obtain ⟨hcancelled,rfl,rfl⟩:=h
    exact .cancel hcancelled
  | abort => exact abort_advance h rfl

theorem worker_advance (h : workerStep move s t=some (s',t')) : Advance capacity s t s' t' := by
  cases t with
  | fetched mailbox =>
    cases move with
    | abort => exact abort_advance h rfl
    | _ => exact read_advance h (fun _ => .accept) .detached
  | batch mailbox => exact batch_advance h
  | finished mailbox => exact read_advance h (fun hdown => .abort hdown rfl) fun _ => .proceed
  | checking mailbox =>
    cases move with
    | abort => exact abort_advance h rfl
    | _ => exact read_advance h .shut fun _ => .inspect
  | counting mailbox =>
    cases move with
    | abort => exact abort_advance h rfl
    | _ =>
      simp only [workerStep,Option.some.injEq,Prod.mk.injEq] at h
      obtain ⟨rfl,rfl⟩:=h
      exact .count
  | releasing mailbox hasMore =>
    simp only [workerStep] at h
    rcases (s.slot mailbox).release_cases hasMore with ⟨hr,_⟩ | ⟨hr,hidle⟩ <;>
      simp only [hr,Option.some.injEq,Prod.mk.injEq] at h <;> obtain ⟨rfl,rfl⟩ := h
    · exact .requeue
    · exact .idle hidle
  | dropping mailbox =>
    simp only [workerStep,Option.some.injEq,Prod.mk.injEq] at h
    obtain ⟨rfl,rfl⟩:=h
    exact .drop
  | _ => simp [workerStep] at h

theorem step_advance (h : step capacity move s t=some (s',t')) : Advance capacity s t s' t' := by
  cases t with
  | admitted | arming | initial | arrived | hooked | waking => exact call_advance h
  | acquired | enqueueing | unregistering | closing | discarding => exact queue_advance h
  | _ =>
    simp only [step] at h
    exact worker_advance h

inductive Entry (capacity : ℕ) (s : State) : State → Option Thread → Prop
  | schedule {path mailbox} (h : (s.mailboxes mailbox).processor=true) : Entry capacity s s (some (.admitted path mailbox))
  | deschedule {path mailbox} :
    Entry capacity s {s with scheduledPaths:=Function.update s.scheduledPaths path none} (some (.unregistering mailbox))
  | push {mailbox lane} : Entry capacity s (s.update mailbox ((s.mailboxes mailbox).push lane)) (some (.arrived mailbox))
  | pop {popped queue} (h : s.schedulingQueue.tryPop allAlive capacity=(popped,queue)) :
    Entry capacity s {s with schedulingQueue:=queue} (popped.map .fetched)
  | setProcessor {mailbox} : Entry capacity s (s.update mailbox {s.mailboxes mailbox with processor:=true}) none
  | cancelProcessing {mailbox} : Entry capacity s (s.update mailbox {s.mailboxes mailbox with cancelled:=true}) none
  | close {mailbox} : Entry capacity s (s.update mailbox {s.mailboxes mailbox with closed:=true}) none
  | shutdown : Entry capacity s {s with isShuttingDown:=true} (some .closing)

variable {o : Option Thread}

theorem enter_entry {e : Event} (h : enter capacity s e=some (s',o)) : Entry capacity s s' o := by
  cases e with simp only [enter] at h
  | scheduleNow path mailbox =>
    simp only [Option.ite_none_left_eq_some,Bool.or_eq_true,Bool.not_eq_true',not_or,Option.some.injEq,Prod.mk.injEq] at h
    obtain ⟨⟨_,hprocessor⟩,rfl,rfl⟩:=h
    exact .schedule (by simpa using hprocessor)
  | deschedule path =>
    cases hpath : s.scheduledPaths path with
    | none => simp [hpath] at h
    | some mailbox =>
      simp only [hpath,Option.some.injEq,Prod.mk.injEq] at h
      obtain ⟨rfl,rfl⟩:=h
      exact .deschedule
  | push mailbox lane =>
    simp only [Option.ite_none_left_eq_some,Option.some.injEq,Prod.mk.injEq] at h
    obtain ⟨_,rfl,rfl⟩:=h
    exact .push
  | tryPop =>
    simp only [Option.some.injEq,Prod.mk.injEq] at h
    obtain ⟨rfl,rfl⟩:=h
    exact .pop rfl
  | shutdown =>
    simp only [Option.ite_none_left_eq_some,Option.some.injEq,Prod.mk.injEq] at h
    obtain ⟨_,rfl,rfl⟩:=h
    exact .shutdown
  | _ =>
    simp only [Option.some.injEq,Prod.mk.injEq] at h
    obtain ⟨rfl,rfl⟩:=h
    constructor

def Thread.holds (mailbox : ℕ) : Thread → ℕ
  | .acquired m _ | .enqueueing m _ _ | .fetched m | .batch m | .finished m | .checking m | .counting m | .releasing m _
  | .dropping m => share mailbox m
  | .discarding mailboxes => mailboxes.count mailbox
  | _ => 0

theorem leased_holds {m : ℕ} (h : t.leased=some m) (mailbox : ℕ) : t.holds mailbox=share mailbox m := by
  cases t <;> simp only [Thread.leased,reduceCtorEq,Option.some.injEq] at h <;> subst h <;> rfl

def owning (p : Pool) (mailbox : ℕ) : ℕ := waiting p.shared.schedulingQueue mailbox+held (Thread.holds mailbox) p.threads

def Covers (s : State) (t : Thread) : Prop :=
  ∀ mailbox, waiting s.schedulingQueue mailbox+t.holds mailbox≤(s.slot mailbox).owners

theorem enqueueing_free {mailbox : ℕ} {lane : Lane} {hook : Bool} (h : Covers s (.enqueueing mailbox lane hook)) :
    waiting s.schedulingQueue mailbox=0 := by
  have hle:=h mailbox
  have hone:=(s.slot mailbox).owners_le
  simp only [Thread.holds,share_self] at hle
  omega

theorem advance_ready (h : Advance capacity s t s' t') (hready : Ready capacity s.schedulingQueue) (hle : Covers s t) :
    Ready capacity s'.schedulingQueue := by
  cases h with
  | register hq => exact (register_section hready hq).1.ready
  | enqueue hq =>
    rw [unlock_queue]
    exact (enqueue_section hready (enqueueing_free hle) hq).1.ready
  | reject hq =>
    rw [unlock_queue]
    exact (enqueue_section hready (enqueueing_free hle) hq).1.ready
  | withdraw hq | forget hq => exact (unregister_section hready hq).1.ready
  | close hq => exact (close_section hready hq).1
  | ignore | wakeRecord =>
    rw [unlock_queue]
    exact hready
  | _ => exact hready

def Settles (mailbox : ℕ) (s : State) (t : Thread) (s' : State) (t' : Thread) : Prop :=
  waiting s'.schedulingQueue mailbox+t'.holds mailbox+(s.slot mailbox).owners =
    waiting s.schedulingQueue mailbox+t.holds mailbox+(s'.slot mailbox).owners

theorem settles_kept {mailbox : ℕ} (hqueue : s'.schedulingQueue=s.schedulingQueue) (hslot : ∀ id, s'.slot id=s.slot id)
    (hholds : t'.holds mailbox=t.holds mailbox) : Settles mailbox s t s' t' := by
  unfold Settles
  rw [hqueue,hslot,hholds]

theorem settles_update {mailbox m : ℕ} {box : Mailbox} (hslot : box.scheduleState=(s.mailboxes m).scheduleState)
    (hholds : t'.holds mailbox=t.holds mailbox) : Settles mailbox s t (s.update m box) t' :=
  settles_kept rfl (fun id => update_keeps id Mailbox.scheduleState hslot) hholds

theorem release_settles {mailbox m : ℕ} {slot : ScheduleState} (hslot : slot.owned=false)
    (hheld : share mailbox m≤(s.slot mailbox).owners) (hholds : t.holds mailbox=t'.holds mailbox+share mailbox m) :
    Settles mailbox s t (s.setSlot m slot) t' := by
  have:=owners_left (slot_setSlot s m · slot) hheld hslot
  unfold Settles
  simp only [State.setSlot,update_queue] at this ⊢
  omega

theorem acquire_settles {mailbox m : ℕ} (hfree : (s.slot m).owned=false) (hholds : t'.holds mailbox=t.holds mailbox+share mailbox m) :
    Settles mailbox s t (s.setSlot m ⟨true,false⟩) t' := by
  have:=owners_taken (slot_setSlot s m · ⟨true,false⟩) hfree rfl mailbox
  unfold Settles
  simp only [State.setSlot,update_queue] at this ⊢
  omega

theorem keep_settles {mailbox m : ℕ} {wake : Bool} (hheld : share mailbox m≤(s.slot mailbox).owners)
    (hholds : t'.holds mailbox=t.holds mailbox) : Settles mailbox s t (s.setSlot m ⟨true,wake⟩) t' := by
  have:=owners_kept (slot_setSlot s m · ⟨true,wake⟩) hheld rfl
  unfold Settles
  simp only [State.setSlot,update_queue] at this ⊢
  omega

theorem Settles.unlock {mailbox m : ℕ} {hook : Bool} (h : Settles mailbox s t s' t') : Settles mailbox s t (s'.unlock m hook) t' := by
  unfold Settles at h ⊢
  rw [unlock_queue,slot_unlock]
  exact h

theorem Settles.of_queue {mailbox : ℕ} {queue : QueueState} (hwaiting : waiting queue mailbox=waiting s.schedulingQueue mailbox)
    (h : Settles mailbox {s with schedulingQueue:=queue} t s' t') : Settles mailbox s t s' t' := by
  unfold Settles at h ⊢
  rw [← hwaiting]
  exact h

theorem withdraw_settles {mailbox m : ℕ} {queue : QueueState} (hready : Ready capacity s.schedulingQueue)
    (hle : Covers s (.unregistering m)) (hq : s.schedulingQueue.unregister allAlive capacity m=(true,queue)) :
    Settles mailbox s (.unregistering m) (State.forceRelease {s with schedulingQueue:=queue} m) .done := by
  obtain ⟨_,hok,hwaiting,_⟩:=unregister_section hready hq
  have hpos:=hok.mp rfl
  have hone:=(s.slot m).owners_le
  have hm:=hle m
  have hheld : share mailbox m≤(s.slot mailbox).owners := by
    unfold share
    split
    · rename_i heq
      rw [← heq]
      omega
    · omega
  have hleft:=owners_left (slot_setSlot {s with schedulingQueue:=queue} m · ⟨false,false⟩) hheld rfl
  have hplaces : waiting queue mailbox+share mailbox m=waiting s.schedulingQueue mailbox := by
    rw [hwaiting,share]
    split
    · rename_i heq
      rw [if_pos heq.symm,heq]
      omega
    · rename_i hne
      rw [if_neg fun heq => hne heq.symm]
      rfl
  unfold Settles
  change waiting queue mailbox+0+_=_+0+_
  simp only [State.forceRelease,ScheduleState.forceRelease] at hleft ⊢
  change (s.slot mailbox).owners=_ at hleft
  omega

theorem pop_keeps {m m' : Mailbox} {lane : Lane} (h : m.pop lane=some m') :
    m'={m with normal:=m'.normal,high:=m'.high} ∧ m'.normal ≤ m.normal ∧ m'.high ≤ m.high := by
  cases lane <;> simp only [Mailbox.pop,Option.ite_none_left_eq_some,Option.some.injEq] at h <;> obtain ⟨_,rfl⟩ := h <;>
    simp

theorem advance_settles (h : Advance capacity s t s' t') (hready : Ready capacity s.schedulingQueue) (hle : Covers s t)
    (mailbox : ℕ) : Settles mailbox s t s' t' := by
  have hshare : t.holds mailbox≤(s.slot mailbox).owners := by
    have:=hle mailbox
    omega
  cases h with
  | register hq =>
    obtain ⟨_,hwaiting,_⟩:=register_section hready hq
    unfold Settles
    rw [hwaiting]
    rfl
  | arm | hook | fail => exact settles_update rfl rfl
  | acquire ho | wakeAcquire ho => exact acquire_settles ho (Nat.zero_add _).symm
  | record ho => exact keep_settles (share_le_owners ho mailbox) rfl
  | wakeRecord ho => exact (keep_settles (share_le_owners ho mailbox) rfl).unlock
  | ignore => exact Settles.unlock (settles_kept rfl (fun _ => rfl) rfl)
  | enqueue hq =>
    obtain ⟨_,hwaiting,_⟩:=enqueue_section hready (enqueueing_free hle) hq
    apply Settles.unlock
    unfold Settles
    rw [hwaiting]
    rfl
  | reject hq =>
    obtain ⟨_,hwaiting,_⟩:=enqueue_section hready (enqueueing_free hle) hq
    exact (Settles.of_queue (hwaiting mailbox) (release_settles rfl hshare (Nat.zero_add _).symm)).unlock
  | withdraw hq => exact withdraw_settles hready hle hq
  | @forget m queue hq =>
    obtain ⟨_,hok,hwaiting,_⟩:=unregister_section hready hq
    have hnone : waiting s.schedulingQueue m=0 := by simpa using hok
    have hsame : waiting queue mailbox=waiting s.schedulingQueue mailbox := by
      rw [hwaiting]
      split
      · rename_i heq
        rw [heq,hnone]
      · rfl
    exact Settles.of_queue hsame (settles_kept rfl (fun _ => rfl) rfl)
  | close hq =>
    obtain ⟨_,hnone,hcount,_⟩:=close_section hready hq
    unfold Settles
    change _+List.count mailbox _+_=_+0+(s.slot mailbox).owners
    rw [hnone,hcount]
    omega
  | @discard m rest =>
    have hcount : (Thread.discarding (m::rest)).holds mailbox=(Thread.discarding rest).holds mailbox+share mailbox m := by
      simp [Thread.holds,List.count_cons,share]
    exact release_settles rfl (by omega) hcount
  | abort hdown ht => exact settles_kept rfl (fun _ => rfl) (leased_holds ht mailbox).symm
  | pop hpop =>
    refine settles_update ?_ rfl
    rw [(pop_keeps hpop).1]
  | requeue => exact keep_settles hshare rfl
  | idle | drop => exact release_settles rfl hshare (Nat.zero_add _).symm
  | _ => exact settles_kept rfl (fun _ => rfl) rfl

theorem entry_ready (h : Entry capacity s s' o) (hready : Ready capacity s.schedulingQueue) :
    Ready capacity s'.schedulingQueue := by
  cases h with
  | pop hq => exact (pop_section hready hq).1.ready
  | _ => exact hready

theorem entry_settles (h : Entry capacity s s' o) (hready : Ready capacity s.schedulingQueue) (mailbox : ℕ) :
    waiting s'.schedulingQueue mailbox+held (Thread.holds mailbox) o.toList+(s.slot mailbox).owners =
      waiting s.schedulingQueue mailbox+(s'.slot mailbox).owners := by
  have hkept : ∀ {m : ℕ} {box : Mailbox}, box.scheduleState=(s.mailboxes m).scheduleState →
      (s.update m box).slot mailbox=s.slot mailbox := fun hslot => update_keeps mailbox Mailbox.scheduleState hslot
  cases h with
  | @pop popped queue hq =>
    obtain ⟨_,hwaiting,_⟩:=pop_section hready hq
    have hpopped : held (Thread.holds mailbox) (popped.map Thread.fetched).toList=popped.elim 0 (share mailbox) := by
      cases popped <;> rfl
    rw [hpopped,← hwaiting]
    exact Nat.add_right_comm .. ▸ rfl
  | @push m lane =>
    rw [hkept (by cases lane <;> rfl)]
    rfl
  | setProcessor | cancelProcessing | close =>
    rw [hkept (by rfl)]
    rfl
  | _ => rfl

structure Balanced (capacity : ℕ) (p : Pool) : Prop where
  ready : Ready capacity p.shared.schedulingQueue
  account : ∀ mailbox, owning p mailbox=(p.shared.slot mailbox).owners

theorem Balanced.owning_le (h : Balanced capacity p) (mailbox : ℕ) : owning p mailbox≤1 :=
  h.account mailbox ▸ ScheduleState.owners_le _

theorem Balanced.covers (h : Balanced capacity p) (ht : t∈p.threads) : Covers p.shared t := by
  intro mailbox
  have hheld:=le_held (h := Thread.holds mailbox) ht
  have:=h.account mailbox
  unfold owning at this
  omega

theorem balanced_next (h : Balanced capacity p) (hnext : (program capacity).next p a=some p') : Balanced capacity p' := by
  constructor
  · obtain ⟨e,s,t,_,he,rfl⟩ | ⟨k,l,t,r,s,t',_,hl,hs,rfl⟩:=next_cases hnext
    · exact entry_ready (enter_entry he) h.ready
    · exact advance_ready (step_advance hs) h.ready (h.covers (by simp [hl]))
  · intro mailbox
    exact next_balanced (fun s : State => waiting s.schedulingQueue mailbox) (fun s => (s.slot mailbox).owners) (Thread.holds mailbox)
      (h.account mailbox) (fun _ _ _ he => entry_settles (enter_entry he) h.ready mailbox)
      (fun _ _ _ _ ht _ hs => advance_settles (step_advance hs) h.ready (h.covers ht) mailbox) hnext

end Parrot.Scheduler.SharedPool
