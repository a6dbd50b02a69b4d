import Parrot.Scheduler.Leases

/-! # Mailboxes at work in the pool

What a mailbox has been through is never undone, and the pool knows only of mailboxes that
have a processor. -/

namespace Parrot.Scheduler.SharedPool

open Threads Threads.Program

variable {capacity : ℕ} {s s' : State} {t t' : Thread} {p p' : Pool} {a : Action} {mailbox : ℕ}

structure Mailbox.Older (m m' : Mailbox) : Prop where
  processor : m.processor=true → m'.processor=true
  failed : m.failed=true → m'.failed=true
  cancelled : m.cancelled=true → m'.cancelled=true
  closed : m.closed=true → m'.closed=true
  wakeHook : m.wakeHook=true → m'.wakeHook=true

structure Older (s s' : State) : Prop where
  mailboxes : ∀ m, (s.mailboxes m).Older (s'.mailboxes m)
  shuttingDown : s.isShuttingDown=true → s'.isShuttingDown=true

theorem older_refl (m : Mailbox) : m.Older m := ⟨id,id,id,id,id⟩

theorem older_update (s : State) {box : Mailbox} (h : (s.mailboxes mailbox).Older box) : Older s (s.update mailbox box) := by
  refine ⟨fun m => ?_,id⟩
  rw [update_mailboxes]
  split
  · rename_i heq
    rw [heq]
    exact h
  · exact older_refl _

theorem older_same (hmailboxes : s'.mailboxes=s.mailboxes) (hdown : s.isShuttingDown=true → s'.isShuttingDown=true) :
    Older s s' := ⟨fun _ => hmailboxes ▸ older_refl _,hdown⟩

theorem Older.unlock (h : Older s s') (m : ℕ) (hook : Bool) : Older s (s'.unlock m hook) := by
  have hkept:=fun {α : Type} (g : Mailbox → α) (hg : ∀ box : Mailbox, g {box with hookLocked:=false}=g box) (id : ℕ) =>
    unlock_keeps s' m id g hook (hg _)
  refine ⟨fun id => ⟨?_,?_,?_,?_,?_⟩,fun hdown => (unlock_shuttingDown s' m hook).trans (h.shuttingDown hdown)⟩
  · exact fun hold => (hkept Mailbox.processor (fun _ => rfl) id).trans ((h.mailboxes id).processor hold)
  · exact fun hold => (hkept Mailbox.failed (fun _ => rfl) id).trans ((h.mailboxes id).failed hold)
  · exact fun hold => (hkept Mailbox.cancelled (fun _ => rfl) id).trans ((h.mailboxes id).cancelled hold)
  · exact fun hold => (hkept Mailbox.closed (fun _ => rfl) id).trans ((h.mailboxes id).closed hold)
  · exact fun hold => (hkept Mailbox.wakeHook (fun _ => rfl) id).trans ((h.mailboxes id).wakeHook hold)

theorem older_setSlot (s : State) (m : ℕ) (slot : ScheduleState) : Older s (s.setSlot m slot) :=
  older_update s ⟨id,id,id,id,id⟩

theorem Older.of_queue {queue : QueueState} (h : Older {s with schedulingQueue:=queue} s') : Older s s' :=
  ⟨h.mailboxes,h.shuttingDown⟩

theorem advance_older (h : Advance capacity s t s' t') : Older s s' := by
  cases h with
  | arm => exact older_update s ⟨id,id,id,id,fun _ => rfl⟩
  | hook => exact older_update s ⟨id,id,id,id,id⟩
  | fail => exact older_update s ⟨id,fun _ => rfl,id,id,id⟩
  | pop hpop =>
    refine older_update s ?_
    rw [(pop_keeps hpop).1]
    exact ⟨id,id,id,id,id⟩
  | acquire | record | wakeAcquire | requeue | idle | discard | drop => exact older_setSlot ..
  | wakeRecord => exact (older_setSlot ..).unlock ..
  | ignore => exact (older_same rfl id).unlock ..
  | enqueue =>
    apply Older.unlock
    exact older_same rfl id
  | reject =>
    apply Older.unlock
    exact Older.of_queue (older_setSlot ..)
  | withdraw => exact Older.of_queue (older_setSlot ..)
  | _ => exact older_same rfl id

variable {o : Option Thread}

theorem entry_older (h : Entry capacity s s' o) : Older s s' := by
  cases h with
  | @push m lane => exact older_update s (by cases lane <;> exact ⟨id,id,id,id,id⟩)
  | setProcessor => exact older_update s ⟨fun _ => rfl,id,id,id,id⟩
  | cancelProcessing => exact older_update s ⟨id,id,fun _ => rfl,id,id⟩
  | close => exact older_update s ⟨id,id,id,fun _ => rfl,id⟩
  | shutdown => exact older_same rfl fun _ => rfl
  | _ => exact older_same rfl id

def Thread.mentions : Thread → Option ℕ
  | .admitted _ m | .arming m | .initial m | .hooked m | .waking m | .acquired m _ | .enqueueing m _ _ | .fetched m | .batch m
  | .finished m | .checking m | .counting m | .releasing m _ | .dropping m => some m
  | _ => none

def Known (s : State) (threads : List Thread) (m : ℕ) : Prop :=
  (∃ t∈threads, t.mentions=some m) ∨ 0<waiting s.schedulingQueue m ∨ s.schedulingQueue.contains m=true ∨
    (s.mailboxes m).wakeHook=true

def Manned (p : Pool) : Prop := ∀ m, Known p.shared p.threads m → (p.shared.mailboxes m).processor=true

theorem start_manned : Manned start := by
  rintro m (⟨t,ht,_⟩ | hwaiting | hcontains | hhook)
  · simp [start] at ht
  · simp [start,waiting,residentCount,markerCount,residentsOf,QueueState.markers,QueueState.new] at hwaiting
  · simp [start,QueueState.contains,QueueState.new] at hcontains
  · simp [start,Mailbox.new] at hhook

variable {m : ℕ}

theorem leased_mentions (h : t.leased=some m) : t.mentions=some m := by
  cases t <;> simp only [Thread.leased,reduceCtorEq,Option.some.injEq] at h <;> subst h <;> rfl

theorem advance_mentions (h : Advance capacity s t s' t') (hm : t'.mentions=some m) :
    t.mentions=some m ∨ (s.mailboxes m).wakeHook=true := by
  cases h with
  | hook hhook =>
    cases hm
    exact .inr hhook
  | abort _ ht =>
    cases hm
    exact .inl (leased_mentions ht)
  | close | discard => simp [Thread.mentions] at hm
  | _ => first | exact .inl hm | simp [Thread.mentions] at hm

structure Moved (s : State) (t : Thread) (s' : State) : Prop where
  waiting : ∀ m, 0<Scheduler.waiting s'.schedulingQueue m → 0<Scheduler.waiting s.schedulingQueue m ∨ t.mentions=some m
  kept : ∀ m, 0<Scheduler.waiting s.schedulingQueue m → s'.schedulingQueue.contains m=true →
    0<Scheduler.waiting s'.schedulingQueue m
  contains : ∀ m, s'.schedulingQueue.contains m=true →
    s.schedulingQueue.contains m=true ∨ ∃ path, t=.admitted path m
  closed : s'.schedulingQueue.closed=true → s.schedulingQueue.closed=true ∨ t=.closing

theorem moved_same (h : s'.schedulingQueue=s.schedulingQueue) : Moved s t s' := by
  refine ⟨?_,?_,?_,?_⟩ <;> rw [h]
  · exact fun _ => .inl
  · exact fun _ hm _ => hm
  · exact fun _ => .inl
  · exact .inl

theorem advance_moved (h : Advance capacity s t s' t') (hready : Ready capacity s.schedulingQueue) (hle : Covers s t) :
    Moved s t s' := by
  cases h with
  | @register path mailbox queue hq =>
    obtain ⟨hsection,hwaiting,hcontains⟩:=register_section hready hq
    refine ⟨fun m hm => ?_,fun m hm _ => ?_,fun m hm => ?_,fun hm => ?_⟩
    · exact .inl (hwaiting m ▸ hm)
    · exact (hwaiting m).symm ▸ hm
    · rw [hcontains,Bool.or_eq_true,beq_iff_eq] at hm
      rcases hm with hm | rfl
      · exact .inl hm
      · exact .inr ⟨path,rfl⟩
    · exact .inl (hsection.closed ▸ hm)
  | @enqueue mailbox lane hook queue hq =>
    obtain ⟨hsection,hwaiting,hcontains,_⟩:=enqueue_section hready (enqueueing_free hle) hq
    refine ⟨fun m hm => ?_,fun m hm _ => ?_,fun m hm => ?_,fun hm => ?_⟩ <;> simp only [unlock_queue,ite_true] at *
    · rw [hwaiting] at hm
      by_cases heq : mailbox=m
      · exact .inr (congrArg some heq)
      · rw [share,if_neg heq] at hm
        exact .inl hm
    · rw [hwaiting]
      omega
    · exact .inl (hcontains m ▸ hm)
    · exact .inl (hsection.closed ▸ hm)
  | reject hq =>
    obtain ⟨hsection,hwaiting,hcontains,_⟩:=enqueue_section hready (enqueueing_free hle) hq
    simp only [Bool.false_eq_true,ite_false,Nat.add_zero] at hwaiting
    refine ⟨fun m hm => ?_,fun m hm _ => ?_,fun m hm => ?_,fun hm => ?_⟩ <;> simp only [unlock_queue] at *
    · exact .inl (hwaiting m ▸ hm)
    · exact (hwaiting m).symm ▸ hm
    · exact .inl (hcontains m ▸ hm)
    · exact .inl (hsection.closed ▸ hm)
  | @withdraw mailbox queue hq | @forget mailbox queue hq =>
    obtain ⟨hsection,_,hwaiting,hcontains⟩:=unregister_section hready hq
    refine ⟨fun m hm => ?_,fun m hm hm' => ?_,fun m hm => ?_,fun hm => ?_⟩
    · change 0<Scheduler.waiting queue m at hm
      rw [hwaiting] at hm
      split at hm
      · omega
      · exact .inl hm
    · change queue.contains m=true at hm'
      rw [hcontains,Bool.and_eq_true,bne_iff_ne] at hm'
      change 0<Scheduler.waiting queue m
      rw [hwaiting,if_neg hm'.2]
      exact hm
    · change queue.contains m=true at hm
      rw [hcontains,Bool.and_eq_true] at hm
      exact .inl hm.1
    · exact .inl (hsection.closed ▸ hm)
  | @close mailboxes queue hq =>
    obtain ⟨_,hwaiting,_,hcontains⟩:=close_section hready hq
    refine ⟨fun m hm => ?_,fun m _ hm => ?_,fun m hm => ?_,fun _ => .inr rfl⟩
    · exact absurd hm (by simp [hwaiting])
    · exact absurd hm (by simp [hcontains])
    · exact absurd hm (by simp [hcontains])
  | ignore | wakeRecord => exact moved_same (unlock_queue ..)
  | _ => exact moved_same rfl

theorem setSlot_keeps {α : Type} (g : Mailbox → α) (hg : ∀ box slot, g {box with scheduleState:=slot}=g box) (m id : ℕ)
    (slot : ScheduleState) : g ((s.setSlot m slot).mailboxes id)=g (s.mailboxes id) := update_keeps id g (hg _ _)

theorem advance_hook (h : Advance capacity s t s' t') (hm : (s'.mailboxes m).wakeHook=true) :
    (s.mailboxes m).wakeHook=true ∨ t=.arming m := by
  have hslot:=fun (s : State) (m' id : ℕ) (slot : ScheduleState) => setSlot_keeps (s := s) Mailbox.wakeHook (fun _ _ => rfl) m' id slot
  have hlock:=fun (s : State) (m' id : ℕ) (hook : Bool) => unlock_keeps s m' id Mailbox.wakeHook hook rfl
  cases h with
  | @arm m' =>
    rw [update_mailboxes] at hm
    split at hm
    · rename_i heq
      exact .inr (heq ▸ rfl)
    · exact .inl hm
  | hook | fail => exact .inl ((update_keeps _ Mailbox.wakeHook (by rfl)).symm.trans hm)
  | pop hpop => exact .inl ((update_keeps _ Mailbox.wakeHook (by rw [(pop_keeps hpop).1])).symm.trans hm)
  | acquire | record | wakeAcquire | requeue | idle | discard | drop | withdraw => exact .inl ((hslot ..).symm.trans hm)
  | wakeRecord | reject =>
    rw [hlock] at hm
    exact .inl ((hslot ..).symm.trans hm)
  | ignore | enqueue =>
    rw [hlock] at hm
    exact .inl hm
  | _ => exact .inl hm

theorem known_advance {l r : List Thread} (h : Advance capacity s t s' t') (hready : Ready capacity s.schedulingQueue)
    (hle : Covers s t) (hm : Known s' (l++t'::r) m) : Known s (l++t::r) m := by
  have hown : t.mentions=some m → Known s (l++t::r) m := fun ht => .inl ⟨t,by simp,ht⟩
  have hmoved:=advance_moved h hready hle
  rcases hm with ⟨u,hu,hum⟩ | hwaiting | hcontains | hhook
  · simp only [List.mem_append,List.mem_cons] at hu
    rcases hu with hu | rfl | hu
    · exact .inl ⟨u,by simp [hu],hum⟩
    · rcases advance_mentions h hum with ht | hhook
      · exact hown ht
      · exact .inr (.inr (.inr hhook))
    · exact .inl ⟨u,by simp [hu],hum⟩
  · rcases hmoved.waiting m hwaiting with hold | ht
    · exact .inr (.inl hold)
    · exact hown ht
  · rcases hmoved.contains m hcontains with hold | ⟨path,rfl⟩
    · exact .inr (.inr (.inl hold))
    · exact hown rfl
  · rcases advance_hook h hhook with hold | rfl
    · exact .inr (.inr (.inr hold))
    · exact hown rfl

theorem entry_mentions (h : Entry capacity s s' o) (hready : Ready capacity s.schedulingQueue)
    (ht : t∈o) (hm : t.mentions=some m) : 0<Scheduler.waiting s.schedulingQueue m ∨ (s.mailboxes m).processor=true := by
  cases h with
  | schedule hprocessor =>
    obtain rfl:=Option.some.inj ht
    obtain rfl:=Option.some.inj hm
    exact .inr hprocessor
  | @pop popped queue hq =>
    obtain ⟨m',rfl,rfl⟩:=Option.map_eq_some_iff.mp ht
    obtain rfl:=Option.some.inj hm
    have hwaiting:=(pop_section hready hq).2.1 m'
    simp only [Option.elim,share_self] at hwaiting
    exact .inl (by omega)
  | deschedule | push | shutdown =>
    obtain rfl:=Option.some.inj ht
    simp [Thread.mentions] at hm
  | _ => simp at ht

structure Arrived (s : State) (o : Option Thread) (s' : State) : Prop where
  waiting : ∀ m, Scheduler.waiting s'.schedulingQueue m+held (Thread.holds m) o.toList=Scheduler.waiting s.schedulingQueue m
  contains : ∀ m, s'.schedulingQueue.contains m=s.schedulingQueue.contains m
  closed : s'.schedulingQueue.closed=s.schedulingQueue.closed
  wakeHook : ∀ m, (s'.mailboxes m).wakeHook=(s.mailboxes m).wakeHook
  slot : ∀ m, s'.slot m=s.slot m

theorem entry_arrived (h : Entry capacity s s' o) (hready : Ready capacity s.schedulingQueue) : Arrived s o s' := by
  cases h with
  | @pop popped queue hq =>
    obtain ⟨hsection,hwaiting,hcontains⟩:=pop_section hready hq
    refine ⟨fun m => ?_,hcontains,hsection.closed,fun _ => rfl,fun _ => rfl⟩
    rw [← hwaiting m]
    cases popped <;> rfl
  | @push m lane =>
    refine ⟨fun _ => rfl,fun _ => rfl,rfl,fun id => ?_,fun id => ?_⟩
    · exact update_keeps id Mailbox.wakeHook (by cases lane <;> rfl)
    · exact update_keeps id Mailbox.scheduleState (by cases lane <;> rfl)
  | setProcessor | cancelProcessing | close =>
    refine ⟨fun _ => rfl,fun _ => rfl,rfl,fun id => ?_,fun id => ?_⟩
    · exact update_keeps id Mailbox.wakeHook (by rfl)
    · exact update_keeps id Mailbox.scheduleState (by rfl)
  | _ => exact ⟨fun _ => rfl,fun _ => rfl,rfl,fun _ => rfl,fun _ => rfl⟩

theorem manned_entry (h : Entry capacity p.shared s' o) (hready : Ready capacity p.shared.schedulingQueue)
    (hmanned : Manned p) : Manned ⟨s',p.threads++o.toList⟩ := by
  intro m hm
  have harrived:=entry_arrived h hready
  refine ((entry_older h).mailboxes m).processor ?_
  rcases hm with ⟨u,hu,hum⟩ | hwaiting | hcontains | hhook
  · rcases List.mem_append.mp hu with hu | hu
    · exact hmanned m (.inl ⟨u,hu,hum⟩)
    · rcases entry_mentions h hready (Option.mem_toList.mp hu) hum with hwaiting | hprocessor
      · exact hmanned m (.inr (.inl hwaiting))
      · exact hprocessor
  · have:=harrived.waiting m
    dsimp only at hwaiting
    exact hmanned m (.inr (.inl (by omega)))
  · exact hmanned m (.inr (.inr (.inl (harrived.contains m ▸ hcontains))))
  · exact hmanned m (.inr (.inr (.inr (harrived.wakeHook m ▸ hhook))))

theorem manned_next (hbalanced : Balanced capacity p) (h : Manned p) (hnext : (program capacity).next p a=some p') : Manned p' := by
  obtain ⟨e,s,t,_,he,rfl⟩ | ⟨k,l,t,r,s,t',_,hl,hs,rfl⟩:=next_cases hnext
  · exact manned_entry (enter_entry he) hbalanced.ready h
  · intro m hm
    have hadvance:=step_advance hs
    have hknown:=known_advance hadvance hbalanced.ready (hbalanced.covers (by simp [hl])) hm
    exact ((advance_older hadvance).mailboxes m).processor (h m (hl ▸ hknown))

end Parrot.Scheduler.SharedPool
