import Parrot.Scheduler.Manned

/-! # The pool loses no wakeup

A message that arrives is followed by someone who will look into the mailbox: the hook that
its producer fires, the call that is about to set the hook, a place in the queue, a job, or
the wake recorded in the slot word for the job at hand. -/

namespace Parrot.Scheduler.SharedPool
open List (mem_append mem_cons)

open Threads Threads.Program

variable {capacity : ℕ} {s s' : State} {t t' : Thread} {p p' : Pool} {a : Action}

def Thread.covers (s : State) (mailbox : ℕ) : Thread → Prop
  | .arming m | .initial m | .hooked m | .waking m | .acquired m _ | .enqueueing m _ _ | .fetched m | .batch m | .finished m
  | .checking m | .counting m => m=mailbox
  | .releasing m hasMore => m=mailbox ∧ (hasMore=true ∨ (s.slot mailbox).wake=true)
  | .arrived m => m=mailbox ∧ (s.mailboxes mailbox).wakeHook=true
  | _ => False

/-- Registered, open, with a healthy processor, in a pool that is not shutting down. -/
structure Live (s : State) (m : ℕ) : Prop where
  registered : s.schedulingQueue.contains m=true
  opened : (s.mailboxes m).closed=false
  healthy : (s.mailboxes m).healthy=true
  running : s.isShuttingDown=false

def Excused (s : State) (m : ℕ) : Prop :=
  (s.mailboxes m).closed=true ∨ (s.mailboxes m).failed=true ∨ (s.mailboxes m).cancelled=true ∨ s.isShuttingDown=true

def Covered (p : Pool) (m : ℕ) : Prop := 0<waiting p.shared.schedulingQueue m ∨ ∃ t∈p.threads, t.covers p.shared m

structure Alert (p : Pool) : Prop where
  armed : ∀ m, p.shared.schedulingQueue.contains m=true → (p.shared.mailboxes m).wakeHook=true ∨ .arming m∈p.threads
  excused : ∀ m, .dropping m∈p.threads → Excused p.shared m
  discarding : ∀ ms, .discarding ms∈p.threads → p.shared.isShuttingDown=true
  closing : .closing∈p.threads → p.shared.isShuttingDown=true
  closed : p.shared.schedulingQueue.closed=true → p.shared.isShuttingDown=true
  awake : ∀ m, Live p.shared m → (p.shared.mailboxes m).isEmpty=false → Covered p m

theorem Excused.older {m : ℕ} (h : Excused s m) (holder : Older s s') : Excused s' m :=
  h.imp (holder.mailboxes m).closed (Or.imp (holder.mailboxes m).failed (Or.imp (holder.mailboxes m).cancelled holder.shuttingDown))

theorem Live.not_excused {m : ℕ} (h : Live s m) : ¬Excused s m := by
  have hhealthy:=h.healthy
  simp only [Mailbox.healthy,Bool.and_eq_true,Bool.not_eq_true'] at hhealthy
  simp [Excused,h.opened,hhealthy,h.running]

theorem start_alert : Alert start := by
  refine ⟨?_,?_,?_,?_,?_,?_⟩
  · simp [start,QueueState.contains,QueueState.new]
  · simp [start]
  · simp [start]
  · simp [start]
  · simp [start,QueueState.new]
  · intro m hlive
    have:=hlive.registered
    simp [start,QueueState.contains,QueueState.new] at this

theorem Live.older {m : ℕ} (h : Live s' m) (holder : Older s s') (hregistered : s.schedulingQueue.contains m=true)
    (hprocessor : (s.mailboxes m).processor=true) : Live s m := by
  have hold:=holder.mailboxes m
  have hhealthy:=h.healthy
  simp only [Mailbox.healthy,Bool.and_eq_true,Bool.not_eq_true'] at hhealthy
  refine ⟨hregistered,?_,?_,?_⟩
  · exact Bool.eq_false_iff.mpr fun hc => absurd (hold.closed hc) (by simp [h.opened])
  · simp only [Mailbox.healthy,Bool.and_eq_true,Bool.not_eq_true']
    refine ⟨⟨hprocessor,?_⟩,?_⟩
    · exact Bool.eq_false_iff.mpr fun hc => absurd (hold.failed hc) (by simp [hhealthy])
    · exact Bool.eq_false_iff.mpr fun hc => absurd (hold.cancelled hc) (by simp [hhealthy])
  · exact Bool.eq_false_iff.mpr fun hc => absurd (holder.shuttingDown hc) (by simp [h.running])

section
variable (h : Advance capacity s t s' t')
include h

theorem advance_registered {m : ℕ} (hmoved : Moved s t s')
    (hm : s'.schedulingQueue.contains m=true) : s.schedulingQueue.contains m=true ∨ t'=.arming m := by
  rcases hmoved.contains m hm with hold | ⟨path,rfl⟩
  · exact .inl hold
  · cases h with
    | refused => exact .inl hm
    | register => exact .inr rfl
    | abort _ ht => simp [Thread.leased] at ht

theorem advance_dropping {m : ℕ} (hprocessor : ∀ m∈t.mentions, (s.mailboxes m).processor=true)
    (ht' : t'=.dropping m) : Excused s' m := by
  cases h with simp only [reduceCtorEq,Thread.dropping.injEq] at ht'
  | detached hnone =>
    subst ht'
    simp [hprocessor _ rfl] at hnone
  | abort hdown => exact .inr (.inr (.inr hdown))
  | fail =>
    subst ht'
    refine .inr (.inl ?_)
    rw [update_mailboxes,if_pos rfl]
  | cancel hcancelled =>
    subst ht'
    exact .inr (.inr (.inl hcancelled))
  | shut hclosed =>
    subst ht'
    exact .inl hclosed

theorem advance_messages {m : ℕ} (hm : (s'.mailboxes m).isEmpty=false) : (s.mailboxes m).isEmpty=false := by
  have hslot:=fun (s : State) (m' id : ℕ) (slot : ScheduleState) => setSlot_keeps (s := s) Mailbox.isEmpty (fun _ _ => rfl) m' id slot
  have hlock:=fun (s : State) (m' id : ℕ) (hook : Bool) => unlock_keeps s m' id Mailbox.isEmpty hook rfl
  cases h with
  | arm | hook | fail => exact (update_keeps _ Mailbox.isEmpty (by rfl)).symm.trans hm
  | pop hpop =>
    rw [update_mailboxes] at hm
    split at hm
    · rename_i heq
      obtain ⟨_,hnormal,hhigh⟩:=pop_keeps hpop
      simp only [Mailbox.isEmpty,Bool.and_eq_false_iff,beq_eq_false_iff_ne] at hm ⊢
      rw [heq]
      omega
    · exact hm
  | acquire | record | wakeAcquire | requeue | idle | discard | drop | withdraw => exact (hslot ..).symm.trans hm
  | wakeRecord | reject =>
    rw [hlock] at hm
    exact (hslot ..).symm.trans hm
  | ignore | enqueue =>
    rw [hlock] at hm
    exact hm
  | _ => exact hm

theorem advance_wake {m : ℕ} (hready : Ready capacity s.schedulingQueue)
    (hfree : waiting s.schedulingQueue m+t.holds m=0) (howned : (s.slot m).owned=true) (hwake : (s.slot m).wake=true) :
    (s'.slot m).wake=true := by
  have hupdate : ∀ {m' : ℕ} {box : Mailbox}, box.scheduleState=(s.mailboxes m').scheduleState →
      (s.update m' box).slot m=s.slot m := fun hslot => update_keeps m Mailbox.scheduleState hslot
  cases h with
  | arm | hook | fail => rwa [hupdate (by rfl)]
  | pop hpop => rwa [hupdate (by rw [(pop_keeps hpop).1])]
  | acquire ho | wakeAcquire ho =>
    rw [slot_setSlot]
    split
    · rename_i heq
      subst heq
      simp [howned] at ho
    · exact hwake
  | record | wakeRecord =>
    simp only [slot_unlock,slot_setSlot]
    split
    · rfl
    · exact hwake
  | requeue | idle | discard | drop | reject =>
    simp only [State.forceRelease,slot_unlock,slot_setSlot]
    split
    · rename_i heq
      subst heq
      simp [Thread.holds] at hfree
    · exact hwake
  | withdraw hq =>
    simp only [State.forceRelease,slot_setSlot]
    split
    · rename_i heq
      subst heq
      have:=(unregister_section hready hq).2.1.mp rfl
      omega
    · exact hwake
  | ignore | enqueue => rwa [slot_unlock]
  | _ => exact hwake

end

theorem covers_kept {u : Thread} {m : ℕ} (h : u.covers s m)
    (hwake : u.holds m=1 → (s.slot m).wake=true → (s'.slot m).wake=true)
    (hhook : (s.mailboxes m).wakeHook=true → (s'.mailboxes m).wakeHook=true) : u.covers s' m := by
  cases u with
  | releasing m' hasMore =>
    obtain ⟨rfl,hmore | hset⟩:=h
    · exact ⟨rfl,.inl hmore⟩
    · exact ⟨rfl,.inr (hwake (share_self _) hset)⟩
  | arrived m' => exact ⟨h.1,hhook h.2⟩
  | _ => exact h

theorem covers_of_holds {u : Thread} {m : ℕ} (h : 0<u.holds m) (hwake : (s.slot m).wake=true) (hdropping : u ≠ .dropping m)
    (hdiscarding : ∀ ms, u ≠ .discarding ms) : u.covers s m := by
  cases u with
  | releasing m' hasMore => exact ⟨share_pos.mp h,.inr hwake⟩
  | dropping m' =>
    obtain rfl:=share_pos.mp h
    exact absurd rfl hdropping
  | discarding ms => exact absurd rfl (hdiscarding ms)
  | acquired | enqueueing | fetched | batch | finished | checking | counting => exact share_pos.mp h
  | _ => simp [Thread.holds] at h

theorem held_pos {threads : List Thread} {m : ℕ} (h : 0<held (Thread.holds m) threads) : ∃ u∈threads, 0<u.holds m := by
  induction threads with
  | nil => simp at h
  | cons u threads ih =>
    rw [held_cons] at h
    by_cases hu : 0<u.holds m
    · exact ⟨u,by simp,hu⟩
    · obtain ⟨v,hv,hpos⟩:=ih (by omega)
      exact ⟨v,by simp [hv],hpos⟩

section advance
variable {l r : List Thread} {m : ℕ} (hbalanced : Balanced capacity p) (halert : Alert p) (hthreads : p.threads=l++t::r)
  (hadvance : Advance capacity p.shared t s' t') (hlive : Live p.shared m)
include hthreads

theorem mem_others {u : Thread} (hu : u∈p.threads) : u=t ∨ u∈l++r := by
  rw [hthreads] at hu
  simp only [mem_append,mem_cons] at hu ⊢
  tauto

include hbalanced

theorem others_covered (hadvance : Advance capacity p.shared t s' t') {u : Thread} (hu : u∈l++r) (hcovers : u.covers p.shared m) : Covered ⟨s',l++t'::r⟩ m := by
  have hmem : u∈l++t'::r := by
    simp only [mem_append,mem_cons] at hu ⊢
    tauto
  refine .inr ⟨u,hmem,covers_kept hcovers (fun hholds hwake => ?_) ((advance_older hadvance).mailboxes m).wakeHook⟩
  have haccount:=hbalanced.account m
  have hone:=(p.shared.slot m).owners_le
  have hheld:=le_held (h := Thread.holds m) hu
  rw [owning,hthreads,held_append,held_cons] at haccount
  rw [held_append] at hheld
  refine advance_wake hadvance hbalanced.ready (by omega) (ScheduleState.owners_pos.mp (by omega)) hwake

include halert hlive

theorem recorded_covered (ht : t.holds m=0) (howned : (p.shared.slot m).owned=true)
    (hqueue : s'.schedulingQueue=p.shared.schedulingQueue) (hwake : (s'.slot m).wake=true) : Covered ⟨s',l++t'::r⟩ m := by
  have haccount:=hbalanced.account m
  have hone:=ScheduleState.owners_pos.mpr howned
  unfold owning at haccount
  by_cases hwaiting : 0<waiting p.shared.schedulingQueue m
  · exact .inl (hqueue ▸ hwaiting)
  · have hheld : 0<held (Thread.holds m) p.threads := by omega
    obtain ⟨u,hu,hpos⟩:=held_pos hheld
    refine .inr ⟨u,?_,covers_of_holds hpos hwake ?_ ?_⟩
    · rcases mem_others hthreads hu with rfl | hu
      · omega
      · simp only [mem_append,mem_cons] at hu ⊢
        tauto
    · rintro rfl
      exact hlive.not_excused (halert.excused m hu)
    · rintro ms rfl
      exact absurd (halert.discarding ms hu) (by simp [hlive.running])

include hadvance

theorem own_covered (hprocessor : (p.shared.mailboxes m).processor=true) (hlive' : Live s' m) (hcovers : t.covers p.shared m)
    (hmessages : (p.shared.mailboxes m).isEmpty=false) : Covered ⟨s',l++t'::r⟩ m := by
  have hgoes : t'.covers s' m → Covered ⟨s',l++t'::r⟩ m := fun h => .inr ⟨t',by simp,h⟩
  have ht : t∈p.threads := by simp [hthreads]
  cases hadvance with
  | record ho =>
    obtain rfl:=hcovers
    exact recorded_covered hbalanced halert hthreads hlive rfl ho rfl (by simp [slot_setSlot])
  | wakeRecord ho =>
    obtain rfl:=hcovers
    exact recorded_covered hbalanced halert hthreads hlive rfl ho (unlock_queue ..) (by simp [slot_setSlot])
  | unhooked hnone =>
    obtain ⟨rfl,hhook⟩:=hcovers
    simp [hnone] at hhook
  | ignore hdown => exact absurd hdown (by simp [hlive.running])
  | enqueue hq =>
    obtain rfl:=hcovers
    have hwaiting:=(enqueue_section hbalanced.ready (enqueueing_free (hbalanced.covers ht)) hq).2.1
    refine .inl ?_
    simp only [unlock_queue,hwaiting,ite_true,share_self]
    omega
  | reject hq =>
    obtain rfl:=hcovers
    rcases (enqueue_section hbalanced.ready (enqueueing_free (hbalanced.covers ht)) hq).2.2.2 rfl with hclosed | hnot
    · exact absurd (halert.closed hclosed) (by simp [hlive.running])
    · exact absurd hlive.registered (by simp [hnot])
  | detached hnone =>
    obtain rfl:=hcovers
    simp [hprocessor] at hnone
  | abort hdown => exact absurd hdown (by simp [hlive.running])
  | fail =>
    obtain rfl:=hcovers
    refine absurd (.inr (.inl ?_)) hlive'.not_excused
    rw [update_mailboxes,if_pos rfl]
  | cancel hcancelled =>
    obtain rfl:=hcovers
    exact absurd (.inr (.inr (.inl hcancelled))) hlive.not_excused
  | shut hclosed =>
    obtain rfl:=hcovers
    exact absurd (.inl hclosed) hlive.not_excused
  | count =>
    obtain rfl:=hcovers
    exact hgoes ⟨rfl,.inl (by simp [hmessages])⟩
  | requeue | hook => exact hgoes hcovers.1
  | idle hidle =>
    obtain ⟨rfl,hmore⟩:=hcovers
    simp [hidle] at hmore
  | refused | register | withdraw | forget | close | discard | clear | drop => exact hcovers.elim
  | _ => exact hgoes hcovers

end advance

theorem alert_advance {l r : List Thread} (hbalanced : Balanced capacity p) (hmanned : Manned p) (halert : Alert p)
    (hthreads : p.threads=l++t::r) (hadvance : Advance capacity p.shared t s' t') : Alert ⟨s',l++t'::r⟩ := by
  have ht : t∈p.threads := by simp [hthreads]
  have holder:=advance_older hadvance
  have hmoved:=advance_moved hadvance hbalanced.ready (hbalanced.covers ht)
  have hkeep : ∀ {u}, u∈l++r → u∈l++t'::r := by
    intro u hu
    simp only [mem_append,mem_cons] at hu ⊢
    tauto
  have hsource : ∀ {u}, u∈l++t'::r → u=t' ∨ u∈p.threads := by
    intro u hu
    rw [hthreads]
    simp only [mem_append,mem_cons] at hu ⊢
    tauto
  refine ⟨?_,?_,?_,?_,?_,?_⟩
  · intro m hm
    rcases advance_registered hadvance hmoved hm with hold | rfl
    · rcases halert.armed m hold with hhook | harming
      · exact .inl ((holder.mailboxes m).wakeHook hhook)
      · rcases mem_others hthreads harming with rfl | hu
        · cases hadvance with
          | arm => exact .inl (by rw [update_mailboxes,if_pos rfl])
          | abort _ hleased => simp [Thread.leased] at hleased
        · exact .inr (hkeep hu)
    · exact .inr (by simp)
  · intro m hm
    rcases hsource hm with heq | hm
    · exact advance_dropping hadvance (fun m hm => hmanned m (.inl ⟨t,ht,hm⟩)) heq.symm
    · exact (halert.excused m hm).older holder
  · intro ms hm
    refine holder.shuttingDown ?_
    rcases hsource hm with heq | hm
    · subst heq
      cases hadvance with
      | close => exact halert.closing ht
      | discard => exact halert.discarding _ ht
    · exact halert.discarding ms hm
  · intro hm
    rcases hsource hm with heq | hm
    · subst heq
      cases hadvance
    · exact holder.shuttingDown (halert.closing hm)
  · intro hclosed
    rcases hmoved.closed hclosed with hold | rfl
    · exact holder.shuttingDown (halert.closed hold)
    · exact holder.shuttingDown (halert.closing ht)
  · intro m hlive hmessages
    rcases advance_registered hadvance hmoved hlive.registered with hregistered | rfl
    · have hprocessor:=hmanned m (.inr (.inr (.inl hregistered)))
      have hbefore:=hlive.older holder hregistered hprocessor
      have hsome:=advance_messages hadvance hmessages
      rcases halert.awake m hbefore hsome with hwaiting | ⟨u,hu,hcovers⟩
      · exact .inl (hmoved.kept m hwaiting hlive.registered)
      · rcases mem_others hthreads hu with rfl | hu
        · exact own_covered hbalanced halert hthreads hadvance hbefore hprocessor hlive hcovers hsome
        · exact others_covered hbalanced hthreads hadvance hu hcovers
    · exact .inr ⟨.arming m,by simp,rfl⟩

variable {o : Option Thread}

theorem entry_messages {m : ℕ} (h : Entry capacity s s' o) (hm : (s'.mailboxes m).isEmpty=false) :
    (s.mailboxes m).isEmpty=false ∨ o=some (.arrived m) := by
  cases h with
  | @push m' lane =>
    by_cases heq : m=m'
    · exact .inr (heq ▸ rfl)
    · rw [update_mailboxes,if_neg heq] at hm
      exact .inl hm
  | setProcessor | cancelProcessing | close => exact .inl ((update_keeps _ Mailbox.isEmpty (by rfl)).symm.trans hm)
  | _ => exact .inl hm

theorem entry_started (h : Entry capacity s s' o) (ht : t∈o) : (∀ m, t ≠ .dropping m) ∧ (∀ ms, t ≠ .discarding ms) ∧
    (t=.closing → s'.isShuttingDown=true) ∧ ∀ m, 0<t.holds m → t.covers s' m := by
  cases h with
  | pop =>
    obtain ⟨m,_,rfl⟩:=Option.map_eq_some_iff.mp ht
    exact ⟨by simp,by simp,by simp,fun _ hpos => share_pos.mp hpos⟩
  | schedule | deschedule | push | shutdown =>
    cases ht
    simp [Thread.holds]
  | _ => simp at ht

theorem alert_entry (hbalanced : Balanced capacity p) (hmanned : Manned p) (halert : Alert p)
    (hentry : Entry capacity p.shared s' o) : Alert ⟨s',p.threads++o.toList⟩ := by
  have holder:=entry_older hentry
  have harrived:=entry_arrived hentry hbalanced.ready
  have hstarted : ∀ {u}, u∈o.toList → _ := fun hu => entry_started hentry (Option.mem_toList.mp hu)
  have harmed : ∀ m, s'.schedulingQueue.contains m=true → (s'.mailboxes m).wakeHook=true ∨ .arming m∈p.threads := by
    intro m hm
    exact (halert.armed m (harrived.contains m ▸ hm)).imp_left (holder.mailboxes m).wakeHook
  refine ⟨?_,?_,?_,?_,?_,?_⟩
  · exact fun m hm => (harmed m hm).imp_right (List.mem_append_left _)
  · intro m hm
    rcases List.mem_append.mp hm with hm | hm
    · exact (halert.excused m hm).older holder
    · exact absurd rfl ((hstarted hm).1 m)
  · intro ms hm
    rcases List.mem_append.mp hm with hm | hm
    · exact holder.shuttingDown (halert.discarding ms hm)
    · exact absurd rfl ((hstarted hm).2.1 ms)
  · intro hm
    rcases List.mem_append.mp hm with hm | hm
    · exact holder.shuttingDown (halert.closing hm)
    · exact (hstarted hm).2.2.1 rfl
  · exact fun hclosed => holder.shuttingDown (halert.closed (harrived.closed ▸ hclosed))
  · intro m hlive hmessages
    have hregistered : p.shared.schedulingQueue.contains m=true := harrived.contains m ▸ hlive.registered
    have hbefore:=hlive.older holder hregistered (hmanned m (.inr (.inr (.inl hregistered))))
    rcases entry_messages hentry hmessages with hsome | rfl
    · rcases halert.awake m hbefore hsome with hwaiting | ⟨u,hu,hcovers⟩
      · have haccount:=harrived.waiting m
        by_cases hstill : 0<waiting s'.schedulingQueue m
        · exact .inl hstill
        · have hheld : 0<held (Thread.holds m) o.toList := by omega
          obtain ⟨u,hu,hpos⟩:=held_pos hheld
          exact .inr ⟨u,List.mem_append_right _ hu,(hstarted hu).2.2.2 m hpos⟩
      · refine .inr ⟨u,List.mem_append_left _ hu,covers_kept hcovers (fun _ hwake => ?_) (holder.mailboxes m).wakeHook⟩
        rwa [harrived.slot]
    · -- a new message is seen through the hook, or by the call that is about to set it
      rcases harmed m hlive.registered with hhook | harming
      · exact .inr ⟨.arrived m,by simp,rfl,hhook⟩
      · exact .inr ⟨.arming m,List.mem_append_left _ harming,rfl⟩

/-- The work of a job on the mailbox, from the pop to the release. -/
def Thread.working (mailbox : ℕ) : Thread → ℕ
  | .fetched m | .batch m | .finished m | .checking m | .counting m | .releasing m _ | .dropping m => share mailbox m
  | _ => 0

/-- A call or a job between the slot and the queue. -/
def Thread.handing (mailbox : ℕ) : Thread → ℕ
  | .acquired m _ | .enqueueing m _ _ => share mailbox m
  | _ => 0

/-- Not halfway through anything; a batch may still be running. -/
def Thread.settled : Thread → Bool
  | .batch _ | .done => true
  | _ => false

/-- A live mailbox with a message in it is in the ready queue, or has a deferred marker, or a
worker has it. -/
def Awake (p : Pool) : Prop :=
  p.threads.all Thread.settled=true → ∀ m, Live p.shared m → (p.shared.mailboxes m).isEmpty=false →
    0 < residentCount p.shared.schedulingQueue m ∨ 0 < markerCount p.shared.schedulingQueue m ∨
      0<held (Thread.working m) p.threads

structure Sound (capacity : ℕ) (p : Pool) : Prop where
  balanced : Balanced capacity p
  manned : Manned p
  alert : Alert p

theorem sound_next (h : Sound capacity p) (hnext : (program capacity).next p a=some p') : Sound capacity p' := by
  refine ⟨balanced_next h.balanced hnext,manned_next h.balanced h.manned hnext,?_⟩
  obtain ⟨e,s,t,_,he,rfl⟩ | ⟨k,l,t,r,s,t',_,hl,hs,rfl⟩:=next_cases hnext
  · exact alert_entry h.balanced h.manned h.alert (enter_entry he)
  · exact alert_advance h.balanced h.manned h.alert hl (step_advance hs)

theorem start_balanced (capacity : ℕ) : Balanced capacity start :=
  ⟨new_ready capacity,fun _ => by simp [owning,start,waiting,residentCount,markerCount,residentsOf,QueueState.markers,
    QueueState.new,State.slot,Mailbox.new,ScheduleState.new,ScheduleState.owners]⟩

theorem run_sound {actions : List Action} (hrun : (program capacity).run start actions=some p) : Sound capacity p :=
  run_invariant (C := fun _ _ => True) (fun _ _ _ h _ => sound_next h) ⟨start_balanced capacity,start_manned,start_alert⟩
    along_true hrun

theorem Sound.awake (h : Sound capacity p) : Awake p := by
  intro hsettled m hlive hmessages
  rcases h.alert.awake m hlive hmessages with hwaiting | ⟨t,ht,hcovers⟩
  · unfold waiting at hwaiting
    omega
  · have hpos : 0<t.working m := by
      have:=List.all_eq_true.mp hsettled t ht
      cases t with simp only [Thread.settled,Bool.false_eq_true] at this
      | batch m' => exact share_pos.mpr hcovers
      | done => exact hcovers.elim
    exact .inr (.inr (Nat.lt_of_lt_of_le hpos (le_held ht)))

theorem working_handing_le (m : ℕ) (threads : List Thread) :
    held (Thread.working m) threads+held (Thread.handing m) threads≤held (Thread.holds m) threads := by
  induction threads with
  | nil => exact le_rfl
  | cons t threads ih =>
    have ht : t.working m+t.handing m≤t.holds m := by
      cases t <;> simp [Thread.working,Thread.handing,Thread.holds]
    simp only [held_cons]
    omega

/-- One owner and no lost wakeup, whatever producers, workers and callers do. -/
theorem shared_pool_wakeups (capacity : ℕ) (actions : List Action) (p : Pool)
    (hrun : (program capacity).run start actions=some p) :
    (∀ m, residentCount p.shared.schedulingQueue m+markerCount p.shared.schedulingQueue m+
      held (Thread.working m) p.threads+held (Thread.handing m) p.threads≤1) ∧
    (∀ m, held (Thread.working m) p.threads≤1) ∧ Awake p := by
  have hsound:=run_sound hrun
  have hone : ∀ m, residentCount p.shared.schedulingQueue m+markerCount p.shared.schedulingQueue m+
      held (Thread.working m) p.threads+held (Thread.handing m) p.threads≤1 := by
    intro m
    have hle:=hsound.balanced.owning_le m
    have hparts:=working_handing_le m p.threads
    unfold owning waiting at hle
    omega
  refine ⟨hone,fun m => ?_,hsound.awake⟩
  have:=hone m
  omega

/- A queue of one place, two mailboxes: the second waits behind a marker. -/
def crowdedPool : List Action :=
  [.enter (.setProcessor 0),.enter (.setProcessor 1),
    .enter (.scheduleNow 0 0),.step 0 .go,.step 0 .go,.step 0 .go,.step 0 .go,
    .enter (.scheduleNow 1 1),.step 1 .go,.step 1 .go,.step 1 .go,.step 1 .go,
    .enter (.push 1 .normal),.step 2 .go,.step 2 .go,.step 2 .go]

theorem shared_pool_wakeups_crowded : ∃ p, (program 1).run start crowdedPool=some p ∧
    markerCount p.shared.schedulingQueue 1=1 ∧ Awake p := by
  have hsome : ((program 1).run start crowdedPool).isSome=true := by decide +kernel
  obtain ⟨p,hp⟩:=Option.isSome_iff_exists.mp hsome
  have hmarker : ∀ p∈(program 1).run start crowdedPool, markerCount p.shared.schedulingQueue 1=1 := by decide +kernel
  exact ⟨p,hp,hmarker p hp,(shared_pool_wakeups 1 crowdedPool p hp).2.2⟩

end Parrot.Scheduler.SharedPool
