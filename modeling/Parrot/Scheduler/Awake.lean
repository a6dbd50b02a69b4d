import Parrot.Scheduler.Tokens

/-! # Wakeups across registrations

A wake is kept only by an owner of the same registration: an item of an older one drops the slot
word, and with it whatever was recorded there. -/

namespace Parrot.Scheduler.Sharded
open List (mem_append mem_cons mem_append_left)

open Threads Threads.Program

variable {config : Config} {s s' : Shared} {t t' : Thread} {p p' : Pool} {a : Action} {move : Move}

def Current (config : Config) (s : Shared) (item : ShardItem) : Prop := s.assigned (config.path item.mailbox)=some item

def Thread.covers (s : Shared) (item : ShardItem) : Thread → Prop
  | .arming i _ | .initial i _ | .sending i _ | .hooked i _ | .waking i _ | .hookSending i _ | .fetched i _ | .batch i _
  | .finished i _ | .counting i _ | .resending i _ => i=item
  | .releasing i _ hasMore => i=item ∧ (hasMore=true ∨ (s.slot item.mailbox).wake=true)
  | .arrived mailbox => mailbox=item.mailbox ∧ ∃ shard, (s.mailboxes item.mailbox).wakeHook=some ⟨item.active,shard⟩
  | .admitted .. | .refused _ | .dropping _ | .done => False

def Covered (p : Pool) (item : ShardItem) : Prop :=
  (∃ q∈p.shared.queued, q.item=item) ∨ ∃ t∈p.threads, t.covers p.shared item

def Held (p : Pool) (item : ShardItem) : Prop :=
  (∃ q∈p.shared.queued, q.item=item) ∨ ∃ t∈p.threads, t.item? = some item

/-- No processor fails or is cancelled, and the scheduler is not shut down. -/
def steady : Action → Bool
  | .enter .requestShutdown | .enter (.cancelProcessing _) | .step _ .fail | .step _ .cancel => false
  | _ => true

/- The registration for which a thread is about to try the slot, and the one whose hook it
is about to set. -/
def Thread.triesFor : Thread → Option ShardItem
  | .initial item _ | .waking item _ => some item
  | _ => none

def Thread.armsFor : Thread → Option ShardItem
  | .arming item _ => some item
  | _ => none

/-- A wake for the registration in the map that finds the slot taken, and a message in the
mailbox, finds it taken for the same registration; and a registration does not put its hook
in the place of the hook of the one in the map. -/
def Undisturbed (config : Config) (p : Pool) (t : Thread) : Prop :=
  (∀ item∈t.triesFor, Current config p.shared item → (p.shared.mailboxes item.mailbox).messages≠0 →
    (p.shared.slot item.mailbox).owned=true → Held p item) ∧
  ∀ item∈t.armsFor, ∀ hook∈(p.shared.mailboxes item.mailbox).wakeHook, ¬Current config p.shared ⟨item.mailbox,hook.active⟩

structure Alert (config : Config) (p : Pool) : Prop where
  running : p.shared.shutdown=false
  armed : ∀ item, Current config p.shared item →
    (∃ shard, (p.shared.mailboxes item.mailbox).wakeHook=some ⟨item.active,shard⟩) ∨ ∃ shard, .arming item shard∈p.threads
  stale : ∀ item, .refused item∈p.threads ∨ .dropping item∈p.threads → p.shared.active item.active=false
  awake : ∀ item, Current config p.shared item → (p.shared.mailboxes item.mailbox).messages≠0 → Covered p item

theorem start_alert : Alert config start := by
  refine ⟨rfl,?_,?_,?_⟩ <;> simp [start,Current]

section kept
variable (mailbox m : ℕ) (slot : ScheduleState) (locked : Bool)

@[simp] theorem setSlot_messages : ((s.setSlot mailbox slot).mailboxes m).messages=(s.mailboxes m).messages :=
  update_keeps _ _ _ _ Mailbox.messages (by intro; rfl)

@[simp] theorem setSlot_wakeHook : ((s.setSlot mailbox slot).mailboxes m).wakeHook=(s.mailboxes m).wakeHook :=
  update_keeps _ _ _ _ Mailbox.wakeHook (by intro; rfl)

@[simp] theorem setLock_messages : ((s.setLock mailbox locked).mailboxes m).messages=(s.mailboxes m).messages :=
  update_keeps _ _ _ _ Mailbox.messages (by intro; rfl)
@[simp] theorem setLock_wakeHook : ((s.setLock mailbox locked).mailboxes m).wakeHook=(s.mailboxes m).wakeHook :=
  update_keeps _ _ _ _ Mailbox.wakeHook (by intro; rfl)

end kept

section
variable (h : Advance config move s t s' t')
include h

theorem advance_messages (m : ℕ) : (s'.mailboxes m).messages≤(s.mailboxes m).messages := by
  cases h with
  | pop =>
    rw [update_mailboxes]
    split
    · rename_i heq
      rw [heq]
      exact Nat.sub_le ..
    · exact Nat.le_refl _
  | arm => exact Nat.le_of_eq (update_keeps _ _ _ _ Mailbox.messages (by intro; rfl))
  | hookSend =>
    rw [setLock_messages]
    exact Nat.le_refl _
  | assign => exact Nat.le_refl _
  | _ => simp [Shared.forceRelease,Shared.send]

theorem advance_hook (m : ℕ) : (s'.mailboxes m).wakeHook=(s.mailboxes m).wakeHook ∨ ∃ item shard,
    t=.arming item shard ∧ item.mailbox=m ∧ (s'.mailboxes m).wakeHook=some ⟨item.active,shard⟩ := by
  cases h with
  | @arm item shard =>
    by_cases heq : m=item.mailbox
    · exact .inr ⟨item,shard,rfl,heq.symm,by rw [update_mailboxes,if_pos heq]⟩
    · exact .inl (by rw [update_mailboxes,if_neg heq])
  | pop => exact .inl (update_keeps _ _ _ _ Mailbox.wakeHook (by intro; rfl))
  | assign => exact .inl rfl
  | _ => simp [Shared.forceRelease,Shared.send]

theorem advance_wake {m : ℕ} (hfree : t.holds m=0) (howned : (s.slot m).owned=true)
    (hwake : (s.slot m).wake=true) : (s'.slot m).wake=true := by
  cases h with
  | acquire ho | wakeAcquire ho =>
    rw [slot_setSlot]
    split
    · rename_i heq
      simp_all
    · exact hwake
  | record | wakeRecord =>
    simp only [slot_setLock,slot_setSlot]
    split
    · rfl
    · exact hwake
  | discard | drop | requeue | idle =>
    simp only [Shared.forceRelease,slot_setSlot]
    split
    · rename_i heq
      simp [Thread.holds,Thread.item?,own,heq] at hfree
    · exact hwake
  | hook | ignore | hookSend => rwa [slot_setLock]
  | arm | pop =>
    rw [slot_update]
    · exact hwake
    · exact fun _ => rfl
  | _ => exact hwake

end

variable {u : Thread}

theorem holds_eq_one {item : ShardItem} (h : u.item? = some item) : u.holds item.mailbox=1 := by
  simp [Thread.holds,h,own]

theorem covers_kept {item : ShardItem} (h : u.covers s item)
    (hwake : u.item? = some item → (s.slot item.mailbox).wake=true → (s'.slot item.mailbox).wake=true)
    (hhook : ∀ hook, (s.mailboxes item.mailbox).wakeHook=some hook → hook.active=item.active →
      (s'.mailboxes item.mailbox).wakeHook=some hook) : u.covers s' item := by
  cases u with
  | releasing i shard hasMore =>
    obtain ⟨rfl,hmore | hset⟩:=h
    · exact ⟨rfl,.inl hmore⟩
    · exact ⟨rfl,.inr (hwake rfl hset)⟩
  | arrived mailbox =>
    obtain ⟨hm,shard,hset⟩:=h
    exact ⟨hm,shard,hhook _ hset rfl⟩
  | _ => exact h

theorem covers_of_item {item : ShardItem} (h : u.item? = some item) (hwake : (s.slot item.mailbox).wake=true)
    (hrefused : u ≠ .refused item) (hdropping : u ≠ .dropping item) : u.covers s item := by
  cases u with
  | releasing i shard hasMore =>
    cases h
    exact ⟨rfl,.inr hwake⟩
  | refused i =>
    cases h
    exact absurd rfl hrefused
  | dropping i =>
    cases h
    exact absurd rfl hdropping
  | admitted | arming | initial | arrived | hooked | waking | done => simp [Thread.item?] at h
  | _ => exact Option.some.inj h

theorem Balanced.owned {item : ShardItem} (h : Balanced p) (hu : u∈p.threads) (hitem : u.item? = some item) :
    (p.shared.slot item.mailbox).owned=true := by
  have hheld:=le_held (h := Thread.holds item.mailbox) hu
  rw [holds_eq_one hitem] at hheld
  refine ScheduleState.owners_pos.mp ?_
  rw [← h item.mailbox,liveItems]
  omega

theorem recorded_covered {l r : List Thread} {item : ShardItem} {shard : ℕ} (hregistered : Registered config p)
    (halert : Alert config p) (hthreads : p.threads=l++t::r) (hundisturbed : Undisturbed config p t)
    (hcurrent : Current config p.shared item) (ht : t=.initial item shard ∨ t=.waking item shard)
    (howned : (p.shared.slot item.mailbox).owned=true) (hmessages : (p.shared.mailboxes item.mailbox).messages≠0)
    (hqueued : s'.queued=p.shared.queued) (hwake : (s'.slot item.mailbox).wake=true) : Covered ⟨s',l++t'::r⟩ item := by
  have hheld : Held p item := by
    rcases ht with rfl | rfl
    · exact hundisturbed.1 item rfl hcurrent hmessages howned
    · exact hundisturbed.1 item rfl hcurrent hmessages howned
  rcases hheld with ⟨q,hq,heq⟩ | ⟨u,hu,hitem⟩
  · exact .inl ⟨q,hqueued ▸ hq,heq⟩
  have hlive:=hregistered.live _ item hcurrent
  refine .inr ⟨u,?_,covers_of_item hitem hwake ?_ ?_⟩
  · have hne : u≠t := by
      rintro rfl
      rcases ht with rfl | rfl <;> simp [Thread.item?] at hitem
    rw [hthreads] at hu
    simp only [mem_append,mem_cons] at hu ⊢
    tauto
  · rintro rfl
    exact absurd hlive (by simp [halert.stale item (.inl hu)])
  · rintro rfl
    exact absurd hlive (by simp [halert.stale item (.inr hu)])

section advance
variable {l r : List Thread} {item : ShardItem} (hbalanced : Balanced p) (hthreads : p.threads=l++t::r)
  (hadvance : Advance config move p.shared t s' t') (hundisturbed : Undisturbed config p t) (hcurrent : Current config p.shared item)
include hadvance hcurrent hundisturbed

theorem hook_kept {hook : WakeHook} (hhook : (p.shared.mailboxes item.mailbox).wakeHook=some hook)
    (hactive : hook.active=item.active) : (s'.mailboxes item.mailbox).wakeHook=some hook := by
  rcases advance_hook hadvance item.mailbox with hkept | ⟨i,shard,rfl,hmailbox,_⟩
  · rwa [hkept]
  · have hfree:=hundisturbed.2 i rfl hook (hmailbox ▸ hhook)
    rw [hmailbox,hactive] at hfree
    exact absurd hcurrent hfree

include hthreads

theorem own_covered (hregistered : Registered config p) (halert : Alert config p) (hmove : move ≠ .fail ∧ move ≠ .cancel)
    (hcovers : t.covers p.shared item) (hmessages : (p.shared.mailboxes item.mailbox).messages≠0) : Covered ⟨s',l++t'::r⟩ item := by
  have hgoes : t'.covers s' item → Covered ⟨s',l++t'::r⟩ item := fun h => .inr ⟨t',by simp,h⟩
  have hlive:=hregistered.live _ item hcurrent
  have hknown:=hregistered.assigned _ item hcurrent
  cases hadvance with
  | record ho =>
    obtain rfl:=hcovers
    exact recorded_covered hregistered halert hthreads hundisturbed hcurrent (.inl rfl) ho hmessages rfl
      (by simp [slot_setSlot])
  | wakeRecord ho =>
    obtain rfl:=hcovers
    exact recorded_covered hregistered halert hthreads hundisturbed hcurrent (.inr rfl) ho hmessages rfl
      (by simp [slot_setSlot])
  | send | hookSend | resend =>
    obtain rfl:=hcovers
    exact .inl ⟨_,List.mem_append_right _ (List.mem_singleton_self _),rfl⟩
  | unhooked hnone =>
    obtain ⟨rfl,shard,hhook⟩:=hcovers
    simp [hnone] at hhook
  | hook hsome =>
    obtain ⟨rfl,shard,hhook⟩:=hcovers
    obtain rfl:=Option.some.inj (hsome.symm.trans hhook)
    exact hgoes rfl
  | ignore hstale =>
    obtain rfl:=hcovers
    simp [halert.running,hlive] at hstale
  | refuse hbad =>
    obtain rfl:=hcovers
    simp [hlive,hknown.processor] at hbad
  | expire hbad =>
    obtain rfl:=hcovers
    simp [hlive] at hbad
  | abandon hbad => exact absurd hbad (by simp [hmove])
  | count =>
    obtain rfl:=hcovers
    exact hgoes ⟨rfl,.inl (by simpa using hmessages)⟩
  | requeue => exact hgoes hcovers.1
  | idle hidle =>
    obtain ⟨rfl,hmore⟩:=hcovers
    simp [hidle] at hmore
  | occupied | assign | discard | drop => exact hcovers.elim
  | _ => exact hgoes hcovers

include hbalanced

theorem others_covered {u : Thread} (hu : u∈l++r) (hcovers : u.covers p.shared item) : Covered ⟨s',l++t'::r⟩ item := by
  have hmem : u∈l++t'::r := by
    simp only [mem_append,mem_cons] at hu ⊢
    tauto
  have hold : u∈p.threads := by
    rw [hthreads]
    simp only [mem_append,mem_cons] at hu ⊢
    tauto
  refine .inr ⟨u,hmem,covers_kept hcovers ?_ fun hook => hook_kept hadvance hundisturbed hcurrent⟩
  intro hitem hwake
  have hexclusive:=hbalanced.exclusive hthreads hu item.mailbox
  rw [holds_eq_one hitem] at hexclusive
  exact advance_wake hadvance (by omega) (hbalanced.owned hold hitem) hwake

end advance

section
variable (h : Advance config move s t s' t')
include h

theorem advance_current {item : ShardItem} (hcurrent : Current config s' item) :
    Current config s item ∨ ∃ shard, t'=.arming item shard := by
  rcases advance_frame h with hframe | ⟨mailbox,shard,rfl,_,rfl,rfl⟩
  · unfold Current at hcurrent ⊢
    rw [hframe.assigned] at hcurrent
    exact .inl hcurrent
  · rcases assigned_assign hcurrent with ⟨_,rfl⟩ | ⟨_,hold⟩
    · exact .inr ⟨shard,rfl⟩
    · exact .inl hold

theorem advance_queued : s.queued⊆s'.queued := by
  cases h with
  | send | hookSend | resend => exact List.subset_append_left ..
  | _ => exact List.Subset.refl _

theorem advance_active {token : ℕ} (htoken : token<s.tokens) : s'.active token=s.active token := by
  rcases advance_frame h with hframe | ⟨mailbox,shard,rfl,_,rfl,rfl⟩
  · rw [hframe.active]
  · exact active_assign htoken

theorem advance_stale {item : ShardItem} (hmove : move ≠ .fail ∧ move ≠ .cancel) (hknown : ∀ item∈t.mentions,
    Known s item) (ht' : t'=.refused item ∨ t'=.dropping item) : item∈t.mentions ∧ s.active item.active=false := by
  cases h with simp only [reduceCtorEq,or_false,false_or,Thread.refused.injEq,Thread.dropping.injEq] at ht'
  | refuse hbad =>
    subst ht'
    exact ⟨rfl,hbad.resolve_right (by simp [(hknown _ rfl).processor])⟩
  | abandon hbad => exact absurd hbad (by simp [hmove])
  | expire hbad =>
    subst ht'
    exact ⟨rfl,hbad⟩

end

theorem alert_advance {l r : List Thread} (hbalanced : Balanced p) (hregistered : Registered config p) (halert : Alert config p)
    (hthreads : p.threads=l++t::r) (hadvance : Advance config move p.shared t s' t') (hundisturbed : Undisturbed config p t)
    (hmove : move ≠ .fail ∧ move ≠ .cancel) : Alert config ⟨s',l++t'::r⟩ := by
  have ht : t∈p.threads := by simp [hthreads]
  have hsplit : ∀ {u}, u∈p.threads → u=t ∨ u∈l++r := by
    intro u hu
    rw [hthreads] at hu
    simp only [mem_append,mem_cons] at hu ⊢
    tauto
  have hkeep : ∀ {u}, u∈l++r → u∈l++t'::r := by
    intro u hu
    simp only [mem_append,mem_cons] at hu ⊢
    tauto
  refine ⟨?_,?_,?_,?_⟩
  · rcases advance_frame hadvance with hframe | ⟨mailbox,shard,rfl,_,rfl,rfl⟩
    · exact hframe.shutdown.trans halert.running
    · exact halert.running
  · intro item hcurrent
    rcases advance_current hadvance hcurrent with hcurrent | ⟨shard,rfl⟩
    · rcases halert.armed item hcurrent with ⟨shard,hhook⟩ | ⟨shard,harming⟩
      · exact .inl ⟨shard,hook_kept hadvance hundisturbed hcurrent hhook rfl⟩
      · rcases hsplit harming with rfl | hu
        · cases hadvance with
          | arm => exact .inl ⟨shard,by rw [update_mailboxes,if_pos rfl]⟩
        · exact .inr ⟨shard,hkeep hu⟩
    · exact .inr ⟨shard,by simp⟩
  · intro item hstale
    have hnew : t'=.refused item ∨ t'=.dropping item ∨ .refused item∈p.threads ∨ .dropping item∈p.threads := by
      rcases hstale with hu | hu
      · rcases mem_replaced (t:=t) hu with heq | hu
        · exact .inl heq.symm
        · exact .inr (.inr (.inl (hthreads ▸ hu)))
      · rcases mem_replaced (t:=t) hu with heq | hu
        · exact .inr (.inl heq.symm)
        · exact .inr (.inr (.inr (hthreads ▸ hu)))
    have hold : Known p.shared item ∧ p.shared.active item.active=false := by
      rcases or_assoc.mpr hnew with hnew | hold
      · obtain ⟨hmentions,hover⟩:=advance_stale hadvance hmove (hregistered.threads t ht) hnew
        exact ⟨hregistered.threads t ht item hmentions,hover⟩
      · refine ⟨?_,halert.stale item hold⟩
        rcases hold with hu | hu
        · exact hregistered.threads _ hu item rfl
        · exact hregistered.threads _ hu item rfl
    exact (advance_active hadvance hold.1.issued).trans hold.2
  · intro item hcurrent hmessages
    have hbefore : (p.shared.mailboxes item.mailbox).messages≠0 := by
      have:=advance_messages hadvance item.mailbox
      dsimp only at hmessages
      omega
    rcases advance_current hadvance hcurrent with hcurrent | ⟨shard,rfl⟩
    · rcases halert.awake item hcurrent hbefore with ⟨q,hq,heq⟩ | ⟨u,hu,hcovers⟩
      · exact .inl ⟨q,advance_queued hadvance hq,heq⟩
      · rcases hsplit hu with rfl | hu
        · exact own_covered hthreads hadvance hundisturbed hcurrent hregistered halert hmove hcovers hbefore
        · exact others_covered hbalanced hthreads hadvance hundisturbed hcurrent hu hcovers
    · exact .inr ⟨.arming item shard,by simp,rfl⟩

variable {o : Option Thread}

theorem covered_event {item : ShardItem} (h : Covered p item)
    (hslot : s'.slot item.mailbox=p.shared.slot item.mailbox)
    (hhook : (s'.mailboxes item.mailbox).wakeHook=(p.shared.mailboxes item.mailbox).wakeHook)
    (hqueued : ∀ q∈p.shared.queued, q∈s'.queued ∨ ∃ t∈o, t.covers s' q.item) : Covered ⟨s',p.threads++o.toList⟩ item := by
  rcases h with ⟨q,hq,rfl⟩ | ⟨u,hu,hcovers⟩
  · rcases hqueued q hq with hq | ⟨t,ht,hcovers⟩
    · exact .inl ⟨q,hq,rfl⟩
    · exact .inr ⟨t,List.mem_append_right _ (Option.mem_toList.mpr ht),hcovers⟩
  · exact .inr ⟨u,mem_append_left _ hu,covers_kept hcovers (fun _ hwake => hslot ▸ hwake) fun hook h _ => hhook ▸ h⟩

section
variable (halert : Alert config p)
include halert

theorem alert_event (hassigned : s'.assigned=p.shared.assigned)
    (hactive : s'.active=p.shared.active) (hshutdown : s'.shutdown=p.shared.shutdown)
    (hmessages : ∀ m, (s'.mailboxes m).messages=(p.shared.mailboxes m).messages) (hslot : ∀ m, s'.slot m=p.shared.slot m)
    (hhook : ∀ m, (s'.mailboxes m).wakeHook=(p.shared.mailboxes m).wakeHook)
    (hqueued : ∀ q∈p.shared.queued, q∈s'.queued ∨ ∃ t∈o, t.covers s' q.item)
    (hstale : ∀ t∈o, ∀ item, t ≠ .refused item ∧ t ≠ .dropping item) : Alert config ⟨s',p.threads++o.toList⟩ := by
  refine ⟨hshutdown.trans halert.running,?_,?_,?_⟩ <;> simp only [Current,hassigned,hactive,hmessages,hhook]
  · intro item hcurrent
    rcases halert.armed item hcurrent with hhook | ⟨shard,harming⟩
    · exact .inl hhook
    · exact .inr ⟨shard,mem_append_left _ harming⟩
  · intro item hover
    refine halert.stale item ?_
    rcases hover with hu | hu <;> rcases List.mem_append.mp hu with hu | hu
    · exact .inl hu
    · exact absurd rfl (hstale _ (Option.mem_toList.mp hu) item).1
    · exact .inr hu
    · exact absurd rfl (hstale _ (Option.mem_toList.mp hu) item).2
  · intro item hcurrent hm
    exact covered_event (halert.awake item hcurrent hm) (hslot _) (hhook _) hqueued

theorem alert_remove {path : ℕ} {item : ShardItem} : Alert config ⟨p.shared.remove path item,p.threads⟩ := by
  refine ⟨halert.running,?_,?_,?_⟩
  · exact fun i hi => halert.armed i (assigned_remove hi).2
  · intro i hi
    by_cases heq : i.active=item.active
    · exact heq ▸ Function.update_self ..
    · exact (Function.update_of_ne heq ..).trans (halert.stale i hi)
  · intro i hi hm
    have hcovered : Covered ⟨p.shared.remove path item,p.threads++(none : Option Thread).toList⟩ i :=
      covered_event (halert.awake i (assigned_remove hi).2 hm) rfl rfl fun q hq => .inl hq
    simpa using hcovered

theorem alert_push {mailbox : ℕ} :
    Alert config ⟨p.shared.update mailbox fun m => {m with messages:=m.messages+1},p.threads++[.arrived mailbox]⟩ := by
  have hhook : ∀ m, ((p.shared.update mailbox fun m => {m with messages:=m.messages+1}).mailboxes m).wakeHook =
      (p.shared.mailboxes m).wakeHook := fun m => update_keeps _ _ _ _ Mailbox.wakeHook (by intro; rfl)
  refine ⟨halert.running,?_,?_,?_⟩ <;> simp only [hhook]
  · intro item hcurrent
    rcases halert.armed item hcurrent with hhook | ⟨shard,harming⟩
    · exact .inl hhook
    · exact .inr ⟨shard,mem_append_left _ harming⟩
  · intro item hover
    refine halert.stale item ?_
    simpa using hover
  · intro item hcurrent hm
    by_cases heq : item.mailbox=mailbox
    · -- a new message is seen through the hook, or by the call that is about to set it
      rcases halert.armed item hcurrent with ⟨shard,hset⟩ | ⟨shard,harming⟩
      · exact .inr ⟨.arrived mailbox,by simp,heq.symm,shard,(hhook _).trans hset⟩
      · exact .inr ⟨_,mem_append_left _ harming,rfl⟩
    · rw [update_mailboxes,if_neg heq] at hm
      exact covered_event (o := some (.arrived mailbox)) (halert.awake item hcurrent hm)
        (slot_update _ _ _ _ fun _ => rfl) (hhook _) fun q hq => .inl hq

theorem alert_entry {e : Event} (hentry : Entry config p.shared e s' o)
    (hsteady : steady (.enter e)=true) : Alert config ⟨s',p.threads++o.toList⟩ := by
  cases hentry with
  | deschedule hpath => simpa using alert_remove halert
  | push => exact alert_push halert
  | @recv q hq =>
    refine alert_event halert rfl rfl rfl (fun _ => rfl) (fun _ => rfl) (fun _ => rfl) (fun q' hq' => ?_) (by simp)
    by_cases heq : q'=q
    · exact .inr ⟨_,rfl,by rw [heq]; rfl⟩
    · exact .inl ((List.mem_erase_of_ne heq).mpr hq')
  | setProcessor =>
    exact alert_event halert rfl rfl rfl (fun _ => update_keeps _ _ _ _ Mailbox.messages (by intro; rfl))
      (fun _ => slot_update _ _ _ _ (by intro; rfl)) (fun _ => update_keeps _ _ _ _ Mailbox.wakeHook (by intro; rfl))
      (fun q hq => .inl hq) (by simp)
  | cancelProcessing | requestShutdown => simp [steady] at hsteady
  | _ => exact alert_event halert rfl rfl rfl (fun _ => rfl) (fun _ => rfl) (fun _ => rfl) (fun q hq => .inl hq) (by simp)

end

/-- The work of `process_item` on the mailbox. -/
def Thread.processing (mailbox : ℕ) : Thread → ℕ
  | .fetched item _ | .refused item | .batch item _ | .finished item _ | .dropping item | .counting item _
  | .releasing item _ _ | .resending item _ => own mailbox item
  | _ => 0

/-- Not halfway through anything; a batch may still be running. -/
def Thread.settled : Thread → Bool
  | .batch .. | .done => true
  | _ => false

/-- A mailbox in the map with a message in it has an active item queued, or is being processed. -/
def Awake (config : Config) (p : Pool) : Prop :=
  p.threads.all Thread.settled=true → ∀ item, Current config p.shared item →
    (p.shared.mailboxes item.mailbox).messages≠0 →
    (∃ q∈p.shared.queued, q.item.mailbox=item.mailbox ∧ p.shared.active q.item.active=true) ∨
      0<held (Thread.processing item.mailbox) p.threads

def wakesKept (config : Config) (p : Pool) : Action → Prop
  | .enter _ => True
  | .step i _ => ∀ t∈p.threads[i]?, Undisturbed config p t

instance (config : Config) (s : Shared) (item : ShardItem) : Decidable (Current config s item) :=
  inferInstanceAs (Decidable (_=_))

instance (p : Pool) (item : ShardItem) : Decidable (Held p item) := inferInstanceAs (Decidable (_ ∨ _))

instance (config : Config) (p : Pool) (t : Thread) : Decidable (Undisturbed config p t) := inferInstanceAs (Decidable (_ ∧ _))

instance (config : Config) (p : Pool) : (a : Action) → Decidable (wakesKept config p a)
  | .enter _ => isTrue trivial
  | .step i _ => inferInstanceAs (Decidable (∀ t∈p.threads[i]?, Undisturbed config p t))

theorem processing_le (mailbox : ℕ) (threads : List Thread) :
    held (Thread.processing mailbox) threads≤held (Thread.holds mailbox) threads := by
  induction threads with
  | nil => exact Nat.le_refl _
  | cons t threads ih =>
    have ht : t.processing mailbox≤t.holds mailbox := by
      cases t <;> simp [Thread.processing,Thread.holds,Thread.item?]
    rw [held_cons,held_cons]
    omega

structure Sound (config : Config) (p : Pool) : Prop where
  balanced : Balanced p
  registered : Registered config p
  alert : Alert config p

theorem sound_next (h : Sound config p) (hsteady : steady a=true) (hkept : wakesKept config p a)
    (hnext : (program config).next p a=some p') : Sound config p' := by
  refine ⟨balanced_next h.balanced hnext,registered_next h.registered hnext,?_⟩
  obtain ⟨e,s,t,rfl,he,rfl⟩ | ⟨k,l,t,r,s,t',rfl,hl,hs,rfl⟩:=next_cases hnext
  · exact alert_entry h.alert (enter_entry he) hsteady
  · refine alert_advance h.balanced h.registered h.alert hl (step_advance hs) (hkept t ?_) ?_
    · simp [hl]
    · constructor <;> rintro rfl <;> simp [steady] at hsteady

theorem Sound.awake (h : Sound config p) : Awake config p := by
  intro hsettled item hcurrent hmessages
  rcases h.alert.awake item hcurrent hmessages with ⟨q,hq,rfl⟩ | ⟨t,ht,hcovers⟩
  · exact .inl ⟨q,hq,rfl,h.registered.live _ _ hcurrent⟩
  · right
    have hpos : 0<t.processing item.mailbox := by
      have:=List.all_eq_true.mp hsettled t ht
      cases t with simp only [Thread.settled,Bool.false_eq_true] at this
      | batch i shard =>
        obtain rfl:=hcovers
        exact share_pos.mpr rfl
      | done => exact hcovers.elim
    exact Nat.lt_of_lt_of_le hpos (le_held ht)

/-- No mailbox is processed twice at once or has two live items, whatever happens. No wakeup
is lost in a run of healthy processors in which a wake of the registration in the map never
meets the slot in the hands of another, and its hook is not replaced. -/
theorem sharded_wakeups (config : Config) (actions : List Action) (p : Pool)
    (hrun : (program config).run start actions=some p) :
    (∀ mailbox, held (Thread.processing mailbox) p.threads≤1 ∧ liveItems p mailbox≤1) ∧
      ((program config).Along (fun p a => steady a=true ∧ wakesKept config p a) start actions → Awake config p) := by
  constructor
  · have hbalanced : Balanced p :=
      run_invariant (C := fun _ _ => True) (fun _ _ _ h _ => balanced_next h) (fun _ => rfl) along_true hrun
    intro mailbox
    have hlive:=hbalanced.liveItems_le mailbox
    have hle:=processing_le mailbox p.threads
    unfold liveItems at hlive ⊢
    omega
  · intro halong
    refine Sound.awake (run_invariant (I := Sound config) (fun p a p' h hC => sound_next h hC.1 hC.2) ?_ halong hrun)
    exact ⟨fun _ => rfl,start_registered,start_alert⟩

/- Two registrations of one mailbox, the second while the slot is free; a message comes, and
the shard is at work on it. -/
def liveRun : List Action :=
  [.enter (.setProcessor 0),.enter (.scheduleAffinity 0 []),.step 0 .go,.step 0 .go,.step 0 .go,.step 0 .go,
    .enter (.recv 0),.step 1 .go,.step 1 .go,.step 1 .go,.step 1 .go,.step 1 .go,
    .enter (.deschedule 0),.enter (.scheduleAffinity 0 [1]),.step 2 .go,.step 2 .go,.step 2 .go,.step 2 .go,
    .enter (.push 0),.step 3 .go,.step 3 .go,.step 3 .go,.enter (.recv 0),.step 4 .go]

theorem sharded_wakeups_live : ∃ p, (program ⟨1,id⟩).run start liveRun=some p ∧ liveItems p 0≤1 ∧ Awake ⟨1,id⟩ p := by
  have hsome : ((program ⟨1,id⟩).run start liveRun).isSome=true := by decide +kernel
  obtain ⟨p,hp⟩:=Option.isSome_iff_exists.mp hsome
  have h:=sharded_wakeups ⟨1,id⟩ liveRun p hp
  exact ⟨p,hp,(h.1 0).2,h.2 (by decide +kernel)⟩

/- The item of the first registration is still queued when the second one tries the slot: its
wake is recorded there, and dropped with the item. -/
def staleRun : List Action :=
  [.enter (.setProcessor 0),.enter (.scheduleAffinity 0 []),.step 0 .go,.step 0 .go,.step 0 .go,.step 0 .go,
    .enter (.push 0),.step 1 .go,.step 1 .go,.step 1 .go,
    .enter (.deschedule 0),.enter (.scheduleAffinity 0 []),.step 2 .go,.step 2 .go,.step 2 .go,
    .enter (.recv 0),.step 3 .go,.step 3 .go]

theorem sharded_loses_wakeup : ¬∀ actions p, (program ⟨1,id⟩).run start actions=some p → actions.all steady=true →
    Awake ⟨1,id⟩ p := by
  intro h
  have hsome : ((program ⟨1,id⟩).run start staleRun).isSome=true := by decide +kernel
  obtain ⟨p,hp⟩:=Option.isSome_iff_exists.mp hsome
  have hasleep : ∀ p∈(program ⟨1,id⟩).run start staleRun, p.threads.all Thread.settled=true ∧
      Current ⟨1,id⟩ p.shared ⟨0,1⟩ ∧ (p.shared.mailboxes 0).messages≠0 ∧ p.shared.queued=[] ∧
      held (Thread.processing 0) p.threads=0 := by
    decide +kernel
  obtain ⟨hsettled,hcurrent,hmessages,hqueued,hidle⟩:=hasleep p hp
  rcases h staleRun p hp rfl hsettled ⟨0,1⟩ hcurrent hmessages with ⟨q,hq,_⟩ | hpos
  · simp [hqueued] at hq
  · exact absurd hidle (Nat.ne_of_gt hpos)

end Parrot.Scheduler.Sharded
