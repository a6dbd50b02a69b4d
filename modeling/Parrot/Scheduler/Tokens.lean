import Parrot.Scheduler.Sharded

/-! # Items and tokens of the shards

What each step can do, and what holds after every step whatever happens: the slot word of
a mailbox accounts for its live item, and a token stands for one registration. -/

namespace Parrot.Scheduler.Sharded
open Function (update_self update_of_ne)

open Threads Threads.Program

variable {config : Config} {s s' : Shared} {t t' : Thread} {p p' : Pool} {a : Action} {move : Move}

section frames
variable (s : Shared) (mailbox m : ℕ) (f : Mailbox → Mailbox)

theorem update_mailboxes : (s.update mailbox f).mailboxes m=if m=mailbox then f (s.mailboxes mailbox) else s.mailboxes m :=
  Function.update_apply ..

theorem update_keeps {α : Type} (g : Mailbox → α) (hf : ∀ box, g (f box)=g box) :
    g ((s.update mailbox f).mailboxes m)=g (s.mailboxes m) := by
  rw [update_mailboxes]
  split
  · rename_i heq
    rw [hf,heq]
  · rfl

theorem slot_setSlot (slot : ScheduleState) : (s.setSlot mailbox slot).slot m=if m=mailbox then slot else s.slot m := by
  unfold Shared.slot Shared.setSlot
  rw [update_mailboxes]
  split <;> rfl

theorem slot_update (h : ∀ box, (f box).scheduleState=box.scheduleState) : (s.update mailbox f).slot m=s.slot m := by
  unfold Shared.slot
  rw [update_mailboxes]
  split
  · rename_i heq
    rw [heq,h]
  · rfl

@[simp] theorem slot_setLock (locked : Bool) : (s.setLock mailbox locked).slot m=s.slot m :=
  slot_update s mailbox m _ fun _ => rfl

end frames

inductive Advance (config : Config) (move : Move) (s : Shared) : Thread → Shared → Thread → Prop
  | occupied {mailbox shard item} (h : s.assigned (config.path mailbox)=some item) :
    Advance config move s (.admitted mailbox shard) s .done
  | assign {mailbox shard} (h : s.assigned (config.path mailbox)=none) :
    Advance config move s (.admitted mailbox shard) (s.assign (config.path mailbox) mailbox) (.arming ⟨mailbox,s.tokens⟩ shard)
  | arm {item shard} :
    Advance config move s (.arming item shard) (s.update item.mailbox fun m => {m with wakeHook:=some ⟨item.active,shard⟩})
      (.initial item shard)
  | acquire {item shard} (h : (s.slot item.mailbox).owned=false) :
    Advance config move s (.initial item shard) (s.setSlot item.mailbox ⟨true,false⟩) (.sending item shard)
  | record {item shard} (h : (s.slot item.mailbox).owned=true) :
    Advance config move s (.initial item shard) (s.setSlot item.mailbox ⟨true,true⟩) .done
  | send {item shard} : Advance config move s (.sending item shard) (s.send shard item) .done
  | unhooked {mailbox} (h : (s.mailboxes mailbox).wakeHook=none) : Advance config move s (.arrived mailbox) s .done
  | hook {mailbox hook} (h : (s.mailboxes mailbox).wakeHook=some hook) :
    Advance config move s (.arrived mailbox) (s.setLock mailbox true) (.hooked ⟨mailbox,hook.active⟩ hook.shard)
  | ignore {item shard} (h : s.shutdown=true ∨ s.active item.active=false) :
    Advance config move s (.hooked item shard) (s.setLock item.mailbox false) .done
  | heed {item shard} : Advance config move s (.hooked item shard) s (.waking item shard)
  | wakeAcquire {item shard} (h : (s.slot item.mailbox).owned=false) :
    Advance config move s (.waking item shard) (s.setSlot item.mailbox ⟨true,false⟩) (.hookSending item shard)
  | wakeRecord {item shard} (h : (s.slot item.mailbox).owned=true) :
    Advance config move s (.waking item shard) ((s.setSlot item.mailbox ⟨true,true⟩).setLock item.mailbox false) .done
  | hookSend {item shard} :
    Advance config move s (.hookSending item shard) ((s.send shard item).setLock item.mailbox false) .done
  | accept {item shard} : Advance config move s (.fetched item shard) s (.batch item shard)
  | refuse {item shard} (h : s.active item.active=false ∨ (s.mailboxes item.mailbox).processor=false) :
    Advance config move s (.fetched item shard) s (.refused item)
  | discard {item} : Advance config move s (.refused item) (s.forceRelease item.mailbox) .done
  | pop {item shard} :
    Advance config move s (.batch item shard) (s.update item.mailbox fun m => {m with messages:=m.messages-1}) (.batch item shard)
  | finish {item shard} : Advance config move s (.batch item shard) s (.finished item shard)
  | abandon {item shard} (h : move=.fail ∨ move=.cancel) : Advance config move s (.batch item shard) s (.dropping item)
  | keep {item shard} : Advance config move s (.finished item shard) s (.counting item shard)
  | expire {item shard} (h : s.active item.active=false) : Advance config move s (.finished item shard) s (.dropping item)
  | drop {item} : Advance config move s (.dropping item) (s.forceRelease item.mailbox) .done
  | count {item shard} :
    Advance config move s (.counting item shard) s (.releasing item shard ((s.mailboxes item.mailbox).messages != 0))
  | requeue {item shard hasMore} :
    Advance config move s (.releasing item shard hasMore) (s.setSlot item.mailbox ⟨true,false⟩) (.resending item shard)
  | idle {item shard hasMore} (h : hasMore=false ∧ (s.slot item.mailbox).wake=false) :
    Advance config move s (.releasing item shard hasMore) (s.setSlot item.mailbox ⟨false,false⟩) .done
  | resend {item shard} : Advance config move s (.resending item shard) (s.send shard item) .done

theorem tryEnqueue_eq (item : ShardItem) (acquired recorded : Shared → Shared × Thread) :
    ((s.slot item.mailbox).owned=false ∧ tryEnqueue s item acquired recorded=acquired (s.setSlot item.mailbox ⟨true,false⟩)) ∨
      ((s.slot item.mailbox).owned=true ∧ tryEnqueue s item acquired recorded=recorded (s.setSlot item.mailbox ⟨true,true⟩)) := by
  rcases (s.slot item.mailbox).tryEnqueue_cases with ⟨h,howned⟩ | ⟨h,howned⟩
  · exact .inl ⟨howned,by simp [tryEnqueue,h]⟩
  · exact .inr ⟨howned,by simp [tryEnqueue,h]⟩

theorem schedule_advance (h : scheduleStep config s t=some (s',t')) : Advance config move s t s' t' := by
  cases t with simp only [scheduleStep,reduceCtorEq] at h
  | admitted mailbox shard =>
    cases hpath : s.assigned (config.path mailbox) with
    | some item =>
      simp only [hpath,Option.some.injEq,Prod.mk.injEq] at h
      obtain ⟨rfl,rfl⟩:=h
      exact .occupied hpath
    | none =>
      simp only [hpath,Option.some.injEq,Prod.mk.injEq] at h
      obtain ⟨rfl,rfl⟩:=h
      exact .assign hpath
  | arming item shard =>
    simp only [Option.ite_none_left_eq_some,Option.some.injEq,Prod.mk.injEq] at h
    obtain ⟨_,rfl,rfl⟩:=h
    exact .arm
  | initial item shard =>
    rcases tryEnqueue_eq (s:=s) item (fun s => (s,Thread.sending item shard)) fun s => (s,.done) with ⟨ho,he⟩ | ⟨ho,he⟩ <;>
      simp only [he,Option.some.injEq,Prod.mk.injEq] at h <;> obtain ⟨rfl,rfl⟩ := h
    · exact .acquire ho
    · exact .record ho
  | sending item shard =>
    simp only [Option.some.injEq,Prod.mk.injEq] at h
    obtain ⟨rfl,rfl⟩:=h
    exact .send

theorem hook_advance (h : hookStep s t=some (s',t')) : Advance config move s t s' t' := by
  cases t with simp only [hookStep,reduceCtorEq] at h
  | arrived mailbox =>
    rw [Option.ite_none_left_eq_some] at h
    cases hhook : (s.mailboxes mailbox).wakeHook with
    | none =>
      simp only [hhook,Option.some.injEq,Prod.mk.injEq] at h
      obtain ⟨_,rfl,rfl⟩:=h
      exact .unhooked hhook
    | some hook =>
      simp only [hhook,Option.some.injEq,Prod.mk.injEq] at h
      obtain ⟨_,rfl,rfl⟩:=h
      exact .hook hhook
  | hooked item shard =>
    split at h <;> simp only [Option.some.injEq,Prod.mk.injEq] at h <;> obtain ⟨rfl,rfl⟩ := h
    · rename_i hstale
      exact .ignore (by simpa using hstale)
    · exact .heed
  | waking item shard =>
    rcases tryEnqueue_eq (s:=s) item (fun s => (s,Thread.hookSending item shard)) fun s => (s.setLock item.mailbox false,.done) with
      ⟨ho,he⟩ | ⟨ho,he⟩ <;> simp only [he,Option.some.injEq,Prod.mk.injEq] at h <;> obtain ⟨rfl,rfl⟩ := h
    · exact .wakeAcquire ho
    · exact .wakeRecord ho
  | hookSending item shard =>
    simp only [Option.some.injEq,Prod.mk.injEq] at h
    obtain ⟨rfl,rfl⟩:=h
    exact .hookSend

theorem process_advance (h : processStep move s t=some (s',t')) : Advance config move s t s' t' := by
  cases t with simp only [processStep,reduceCtorEq] at h
  | fetched item shard =>
    split at h <;> simp only [Option.some.injEq,Prod.mk.injEq] at h <;> obtain ⟨rfl,rfl⟩ := h
    · exact .accept
    · rename_i hbad
      refine .refuse ?_
      cases hactive : s.active item.active <;> simp_all
  | batch item shard =>
    cases move with
    | go =>
      simp only [Option.some.injEq,Prod.mk.injEq] at h
      obtain ⟨rfl,rfl⟩:=h
      exact .finish
    | pop =>
      simp only [Option.ite_none_left_eq_some,Option.some.injEq,Prod.mk.injEq] at h
      obtain ⟨_,rfl,rfl⟩:=h
      exact .pop
    | fail =>
      simp only [Option.some.injEq,Prod.mk.injEq] at h
      obtain ⟨rfl,rfl⟩:=h
      exact .abandon (.inl rfl)
    | cancel =>
      simp only [Option.ite_none_right_eq_some,Option.some.injEq,Prod.mk.injEq] at h
      obtain ⟨_,rfl,rfl⟩:=h
      exact .abandon (.inr rfl)
  | finished item shard =>
    split at h <;> simp only [Option.some.injEq,Prod.mk.injEq] at h <;> obtain ⟨rfl,rfl⟩ := h
    · exact .keep
    · rename_i hbad
      exact .expire (by simpa using hbad)
  | releasing item shard hasMore =>
    rcases (s.slot item.mailbox).release_cases hasMore with ⟨hr,_⟩ | ⟨hr,hidle⟩ <;>
      simp only [hr,Option.some.injEq,Prod.mk.injEq] at h <;> obtain ⟨rfl,rfl⟩ := h
    · exact .requeue
    · exact .idle hidle
  | _ =>
    simp only [Option.some.injEq,Prod.mk.injEq] at h
    obtain ⟨rfl,rfl⟩:=h
    constructor

theorem step_advance (h : step config move s t=some (s',t')) : Advance config move s t s' t' := by
  cases t with
  | admitted | arming | initial | sending => exact schedule_advance h
  | arrived | hooked | waking | hookSending => exact hook_advance h
  | _ => exact process_advance h

inductive Entry (config : Config) (s : Shared) : Event → Shared → Option Thread → Prop
  | schedule {mailbox key} (h : (s.mailboxes mailbox).processor=true) :
    Entry config s (.scheduleAffinity mailbox key) s (some (.admitted mailbox (config.shardFor (hashKey key))))
  | absent {path} : Entry config s (.deschedule path) s none
  | deschedule {path item} (h : s.assigned path=some item) :
    Entry config s (.deschedule path) (s.remove path item) none
  | push {mailbox} :
    Entry config s (.push mailbox) (s.update mailbox fun m => {m with messages:=m.messages+1}) (some (.arrived mailbox))
  | recv {q} (h : q∈s.queued) :
    Entry config s (.recv q.shard) {s with queued:=s.queued.erase q} (some (.fetched q.item q.shard))
  | setProcessor {mailbox} : Entry config s (.setProcessor mailbox) (s.update mailbox fun m => {m with processor:=true}) none
  | cancelProcessing {mailbox} :
    Entry config s (.cancelProcessing mailbox) (s.update mailbox fun m => {m with cancelled:=true}) none
  | requestShutdown : Entry config s .requestShutdown {s with shutdown:=true} none

variable {o : Option Thread}

theorem enter_entry {e : Event} (h : enter config e s=some (s',o)) : Entry config s e s' o := by
  cases e with simp only [enter] at h
  | scheduleAffinity mailbox key =>
    simp only [Option.ite_none_left_eq_some,Bool.or_eq_true,Bool.not_eq_true',not_or,Option.some.injEq,Prod.mk.injEq] at h
    obtain ⟨⟨_,hprocessor⟩,rfl,rfl⟩:=h
    exact .schedule (by simpa using hprocessor)
  | deschedule path =>
    cases hpath : s.assigned path with
    | none =>
      simp only [hpath,Option.some.injEq,Prod.mk.injEq] at h
      obtain ⟨rfl,rfl⟩:=h
      exact .absent
    | some item =>
      simp only [hpath,Option.some.injEq,Prod.mk.injEq] at h
      obtain ⟨rfl,rfl⟩:=h
      exact .deschedule hpath
  | recv shard =>
    rw [Option.ite_none_left_eq_some] at h
    cases hfind : s.queued.find? fun q => q.shard==shard with
    | none => simp [hfind] at h
    | some q =>
      simp only [hfind,Option.some.injEq,Prod.mk.injEq] at h
      obtain ⟨_,rfl,rfl⟩:=h
      obtain rfl : q.shard=shard := by simpa using List.find?_some hfind
      exact .recv (List.mem_of_find?_eq_some hfind)
  | _ =>
    simp only [Option.some.injEq,Prod.mk.injEq] at h
    obtain ⟨rfl,rfl⟩:=h
    constructor

def Thread.item? : Thread → Option ShardItem
  | .sending item _ | .hookSending item _ | .fetched item _ | .refused item | .batch item _ | .finished item _
  | .dropping item | .counting item _ | .releasing item _ _ | .resending item _ => some item
  | _ => none

def own (mailbox : ℕ) (item : ShardItem) : ℕ := share mailbox item.mailbox

def Thread.holds (mailbox : ℕ) (t : Thread) : ℕ := t.item?.elim 0 (own mailbox)

def stored (mailbox : ℕ) (s : Shared) : ℕ := held (fun q : Queued => own mailbox q.item) s.queued

/-- The items of a mailbox that are queued or in some hand. -/
def liveItems (p : Pool) (mailbox : ℕ) : ℕ := stored mailbox p.shared+held (Thread.holds mailbox) p.threads

theorem stored_send (mailbox shard : ℕ) (item : ShardItem) :
    stored mailbox (s.send shard item)=stored mailbox s+own mailbox item := by
  simp [stored,Shared.send]

theorem stored_erase (mailbox : ℕ) {q : Queued} (hq : q∈s.queued) :
    stored mailbox {s with queued:=s.queued.erase q}+own mailbox q.item=stored mailbox s :=
  held_erase (fun q : Queued => own mailbox q.item) hq

@[simp] theorem stored_update (mailbox m : ℕ) (f : Mailbox → Mailbox) : stored m (s.update mailbox f)=stored m s := rfl
@[simp] theorem stored_setSlot (mailbox m : ℕ) (slot : ScheduleState) : stored m (s.setSlot mailbox slot)=stored m s := rfl
@[simp] theorem stored_setLock (mailbox m : ℕ) (locked : Bool) : stored m (s.setLock mailbox locked)=stored m s := rfl
@[simp] theorem slot_send (mailbox shard : ℕ) (item : ShardItem) : (s.send shard item).slot mailbox=s.slot mailbox := rfl

theorem advance_balanced (h : Advance config move s t s' t') (mailbox : ℕ)
    (hle : stored mailbox s+t.holds mailbox≤(s.slot mailbox).owners) : stored mailbox s'+t'.holds
    mailbox+(s.slot mailbox).owners=stored mailbox s+t.holds mailbox+(s'.slot mailbox).owners := by
  cases h with simp only [Thread.holds,Thread.item?,Option.elim,own] at hle ⊢
  | acquire ho | wakeAcquire ho =>
    have:=owners_taken (slot_setSlot s _ · ⟨true,false⟩) ho rfl mailbox
    simp only [stored_setSlot]
    omega
  | record ho =>
    have:=owners_kept (slot_setSlot s _ · ⟨true,true⟩) (share_le_owners ho mailbox) rfl
    simp only [stored_setSlot]
    omega
  | wakeRecord ho =>
    have:=owners_kept (slot_setSlot s _ · ⟨true,true⟩) (share_le_owners ho mailbox) rfl
    simp only [stored_setSlot,stored_setLock,slot_setLock]
    omega
  | send | resend =>
    rw [stored_send,slot_send,own]
    omega
  | hookSend =>
    rw [stored_setLock,slot_setLock,stored_send,slot_send,own]
    omega
  | @discard item | @drop item =>
    have hheld : share mailbox item.mailbox≤(s.slot mailbox).owners := by omega
    have:=owners_left (slot_setSlot s _ · (s.slot item.mailbox).forceRelease) hheld rfl
    simp only [Shared.forceRelease,stored_setSlot]
    omega
  | @requeue item =>
    have hheld : share mailbox item.mailbox≤(s.slot mailbox).owners := by omega
    have:=owners_kept (slot_setSlot s _ · ⟨true,false⟩) hheld rfl
    simp only [stored_setSlot]
    omega
  | @idle item =>
    have hheld : share mailbox item.mailbox≤(s.slot mailbox).owners := by omega
    have:=owners_left (slot_setSlot s _ · ⟨false,false⟩) hheld rfl
    simp only [stored_setSlot]
    omega
  | arm | pop =>
    rw [stored_update,slot_update]
    exact fun _ => rfl
  | hook | ignore => rw [stored_setLock,slot_setLock]
  | _ => rfl

theorem entry_balanced {e : Event} (h : Entry config s e s' o) (mailbox : ℕ) : stored mailbox s'+held
    (Thread.holds mailbox) o.toList+(s.slot mailbox).owners=stored mailbox s+(s'.slot mailbox).owners := by
  cases h with simp only [Option.toList,held_cons,held_nil,Thread.holds,Thread.item?,Option.elim]
  | recv hq =>
    have:=stored_erase mailbox hq
    change _=_+(s.slot mailbox).owners
    omega
  | push | setProcessor | cancelProcessing =>
    rw [stored_update,slot_update]
    · omega
    · exact fun _ => rfl
  | _ => rfl

def Balanced (p : Pool) : Prop := ∀ mailbox, liveItems p mailbox=(p.shared.slot mailbox).owners

theorem balanced_next (h : Balanced p) (hnext : (program config).next p a=some p') : Balanced p' := fun mailbox =>
  next_balanced (stored mailbox) (fun s => (s.slot mailbox).owners) (Thread.holds mailbox) (h mailbox)
    (fun _ _ _ he => entry_balanced (enter_entry he) mailbox)
    (fun _ _ _ _ _ hle hs => advance_balanced (step_advance hs) mailbox hle) hnext

theorem Balanced.liveItems_le (h : Balanced p) (mailbox : ℕ) : liveItems p mailbox≤1 :=
  h mailbox ▸ ScheduleState.owners_le _

variable {l r : List Thread}

theorem Balanced.exclusive (h : Balanced p) {u : Thread} (hthreads : p.threads=l++t::r) (hu : u∈l++r)
    (mailbox : ℕ) : t.holds mailbox+u.holds mailbox≤1 := by
  have hle:=h.liveItems_le mailbox
  have hheld:=le_held (h := Thread.holds mailbox) hu
  rw [liveItems,hthreads,held_append,held_cons] at hle
  rw [held_append] at hheld
  omega

def Thread.mentions : Thread → Option ShardItem
  | .arming item _ | .initial item _ | .hooked item _ | .waking item _ => some item
  | t => t.item?

structure Known (s : Shared) (item : ShardItem) : Prop where
  issued : item.active<s.tokens
  processor : (s.mailboxes item.mailbox).processor=true

structure Registered (config : Config) (p : Pool) : Prop where
  path : ∀ path item, p.shared.assigned path=some item → config.path item.mailbox=path
  live : ∀ path item, p.shared.assigned path=some item → p.shared.active item.active=true
  distinct : ∀ path path' item item', p.shared.assigned path=some item → p.shared.assigned path'=some item' →
    item.active=item'.active → path=path'
  assigned : ∀ path item, p.shared.assigned path=some item → Known p.shared item
  queued : ∀ q∈p.shared.queued, Known p.shared q.item
  hooks : ∀ mailbox hook, (p.shared.mailboxes mailbox).wakeHook=some hook → Known p.shared ⟨mailbox,hook.active⟩
  threads : ∀ t∈p.threads, ∀ item∈t.mentions, Known p.shared item
  admitted : ∀ mailbox shard, .admitted mailbox shard∈p.threads → (p.shared.mailboxes mailbox).processor=true

structure Frame (s : Shared) (t : Thread) (s' : Shared) (t' : Thread) : Prop where
  assigned : s'.assigned=s.assigned
  active : s'.active=s.active
  tokens : s'.tokens=s.tokens
  shutdown : s'.shutdown=s.shutdown
  processor : ∀ m, (s'.mailboxes m).processor=(s.mailboxes m).processor
  queued : ∀ q∈s'.queued, q∈s.queued ∨ t.mentions=some q.item
  hook : ∀ m hook, (s'.mailboxes m).wakeHook=some hook →
    (s.mailboxes m).wakeHook=some hook ∨ t=.arming ⟨m,hook.active⟩ hook.shard
  mentions : ∀ item∈t'.mentions, item∈t.mentions ∨ ∃ shard, (s.mailboxes item.mailbox).wakeHook=some ⟨item.active,shard⟩
  admitted : ∀ mailbox shard, t' ≠ .admitted mailbox shard

theorem same_frame (hmentions : ∀ item∈t'.mentions, item∈t.mentions) (hadmitted : ∀ mailbox shard, t' ≠ .admitted mailbox shard) :
    Frame s t s t' where
  assigned := rfl
  active := rfl
  tokens := rfl
  shutdown := rfl
  processor _ := rfl
  queued _ hq := .inl hq
  hook _ _ h := .inl h
  mentions item hitem := .inl (hmentions item hitem)
  admitted := hadmitted

theorem done_frame : Frame s t s .done := same_frame (fun _ h => by simp [Thread.mentions,Thread.item?] at h) fun _ _ => by simp

theorem Frame.update (h : Frame s t s' t') (mailbox : ℕ) {f : Mailbox → Mailbox} (hprocessor : ∀ m, (f m).processor=m.processor)
    (hhook : ∀ m, (f m).wakeHook=m.wakeHook) : Frame s t (s'.update mailbox f) t' where
  assigned := h.assigned
  active := h.active
  tokens := h.tokens
  shutdown := h.shutdown
  processor m := by
    rw [update_mailboxes]
    split
    · rename_i heq
      rw [hprocessor,heq,h.processor]
    · rw [h.processor]
  queued := h.queued
  hook m hook hm := by
    rw [update_mailboxes] at hm
    split at hm
    · rename_i heq
      rw [hhook,← heq] at hm
      exact h.hook m hook hm
    · exact h.hook m hook hm
  mentions := h.mentions
  admitted := h.admitted

theorem Frame.setSlot (h : Frame s t s' t') (mailbox : ℕ) (slot : ScheduleState) : Frame s t (s'.setSlot mailbox slot) t' :=
  h.update mailbox (fun _ => rfl) fun _ => rfl

theorem Frame.setLock (h : Frame s t s' t') (mailbox : ℕ) (locked : Bool) : Frame s t (s'.setLock mailbox locked) t' :=
  h.update mailbox (fun _ => rfl) fun _ => rfl

variable {item : ShardItem}

theorem Frame.send (h : Frame s t s' t') (shard : ℕ) (hitem : t.mentions=some item) :
    Frame s t (s'.send shard item) t' where
  assigned := h.assigned
  active := h.active
  tokens := h.tokens
  shutdown := h.shutdown
  processor := h.processor
  queued q hq := by
    rcases List.mem_append.mp hq with hq | hq
    · exact h.queued q hq
    · rw [List.mem_singleton.mp hq]
      exact .inr hitem
  hook := h.hook
  mentions := h.mentions
  admitted := h.admitted

theorem arm_frame (item : ShardItem) (shard : ℕ) :
    Frame s (.arming item shard) (s.update item.mailbox fun m => {m with wakeHook:=some ⟨item.active,shard⟩}) (.initial item shard) where
  assigned := rfl
  active := rfl
  tokens := rfl
  shutdown := rfl
  processor m := by
    rw [update_mailboxes]
    split
    · rename_i heq
      rw [heq]
    · rfl
  queued _ hq := .inl hq
  hook m hook h := by
    rw [update_mailboxes] at h
    split at h
    · rename_i heq
      subst heq
      cases h
      exact .inr rfl
    · exact .inl h
  mentions _ h := .inl h
  admitted _ _ := by simp

theorem hook_frame {mailbox : ℕ} {hook : WakeHook} (hhook : (s.mailboxes mailbox).wakeHook=some hook) :
    Frame s (.arrived mailbox) s (.hooked ⟨mailbox,hook.active⟩ hook.shard) where
  assigned := rfl
  active := rfl
  tokens := rfl
  shutdown := rfl
  processor _ := rfl
  queued _ hq := .inl hq
  hook _ _ h := .inl h
  mentions item hitem := by
    cases hitem
    exact .inr ⟨hook.shard,hhook⟩
  admitted _ _ := by simp

theorem advance_frame (h : Advance config move s t s' t') : Frame s t s' t' ∨
    ∃ mailbox shard, t=.admitted mailbox shard ∧ s.assigned (config.path mailbox)=none ∧
      s'=s.assign (config.path mailbox) mailbox ∧ t'=.arming ⟨mailbox,s.tokens⟩ shard := by
  cases h with
  | assign hnone => exact .inr ⟨_,_,rfl,hnone,rfl,rfl⟩
  | arm => exact .inl (arm_frame _ _)
  | hook h => exact .inl ((hook_frame h).setLock _ _)
  | occupied | unhooked => exact .inl done_frame
  | record | discard | drop | idle => exact .inl (done_frame.setSlot _ _)
  | ignore => exact .inl (done_frame.setLock _ _)
  | wakeRecord => exact .inl ((done_frame.setSlot _ _).setLock _ _)
  | send | resend => exact .inl (done_frame.send _ rfl)
  | hookSend => exact .inl ((done_frame.send _ rfl).setLock _ _)
  | acquire | wakeAcquire | requeue =>
    left
    apply Frame.setSlot
    exact same_frame (fun _ h => h) (by simp)
  | pop => exact .inl (Frame.update (same_frame (fun _ h => h) (by simp)) _ (fun _ => rfl) fun _ => rfl)
  | _ => exact .inl (same_frame (fun _ h => h) (by simp))

theorem Known.frame (h : Known s item) (hframe : Frame s t s' t') : Known s' item :=
  ⟨hframe.tokens ▸ h.issued,hframe.processor _ ▸ h.processor⟩

theorem mem_replaced {u : Thread} (h : u∈l++t'::r) : u=t' ∨ u∈l++t::r := by
  simp only [List.mem_append,List.mem_cons] at h ⊢
  tauto

theorem registered_frame (h : Registered config p) (hthreads : p.threads=l++t::r)
    (hframe : Frame p.shared t s' t') : Registered config ⟨s',l++t'::r⟩ := by
  have ht : t∈p.threads := by simp [hthreads]
  refine ⟨?_,?_,?_,?_,?_,?_,?_,?_⟩ <;> simp only [hframe.assigned,hframe.active]
  · exact h.path
  · exact h.live
  · exact h.distinct
  · exact fun path item hpath => (h.assigned path item hpath).frame hframe
  · intro q hq
    rcases hframe.queued q hq with hold | hown
    · exact (h.queued q hold).frame hframe
    · exact (h.threads t ht q.item hown).frame hframe
  · intro m hook hhook
    rcases hframe.hook m hook hhook with hold | rfl
    · exact (h.hooks m hook hold).frame hframe
    · exact (h.threads _ ht ⟨m,hook.active⟩ rfl).frame hframe
  · intro u hu item hitem
    rcases mem_replaced hu with rfl | hu
    · rcases hframe.mentions item hitem with hown | ⟨shard,hhook⟩
      · exact (h.threads t ht item hown).frame hframe
      · exact (h.hooks item.mailbox _ hhook).frame hframe
    · exact (h.threads u (hthreads ▸ hu) item hitem).frame hframe
  · intro mailbox shard hu
    rw [hframe.processor]
    rcases mem_replaced hu with heq | hu
    · exact absurd heq.symm (hframe.admitted mailbox shard)
    · exact h.admitted mailbox shard (hthreads ▸ hu)

theorem assigned_assign {path mailbox path' : ℕ} (h : (s.assign path mailbox).assigned path'=some item) :
    (path'=path ∧ item=⟨mailbox,s.tokens⟩) ∨ (path'≠path ∧ s.assigned path'=some item) := by
  simp only [Shared.assign] at h
  by_cases heq : path'=path
  · rw [heq,update_self] at h
    exact .inl ⟨heq,(Option.some.inj h).symm⟩
  · rw [update_of_ne heq] at h
    exact .inr ⟨heq,h⟩

theorem active_assign {path mailbox token : ℕ} (h : token<s.tokens) : (s.assign path mailbox).active token=s.active token :=
  update_of_ne (Nat.ne_of_lt h) ..

theorem Known.assign (h : Known s item) (path mailbox : ℕ) : Known (s.assign path mailbox) item :=
  ⟨Nat.lt_succ_of_lt h.issued,h.processor⟩

theorem registered_assign {mailbox shard : ℕ} (h : Registered config p)
    (hthreads : p.threads=l++.admitted mailbox shard::r) :
    Registered config ⟨p.shared.assign (config.path mailbox) mailbox,l++.arming ⟨mailbox,p.shared.tokens⟩ shard::r⟩ := by
  have hprocessor:=h.admitted mailbox shard (by simp [hthreads])
  have hnew : Known (p.shared.assign (config.path mailbox) mailbox) ⟨mailbox,p.shared.tokens⟩ :=
    ⟨Nat.lt_succ_self _,hprocessor⟩
  refine ⟨?_,?_,?_,?_,?_,?_,?_,?_⟩
  · intro path item hpath
    rcases assigned_assign hpath with ⟨rfl,rfl⟩ | ⟨_,hold⟩
    · rfl
    · exact h.path path item hold
  · intro path item hpath
    rcases assigned_assign hpath with ⟨rfl,rfl⟩ | ⟨_,hold⟩
    · exact update_self ..
    · exact (active_assign (h.assigned path item hold).issued).trans (h.live path item hold)
  · intro path path' item item' hpath hpath' heq
    rcases assigned_assign hpath with ⟨rfl,rfl⟩ | ⟨_,hold⟩ <;> rcases assigned_assign hpath' with ⟨rfl,rfl⟩ | ⟨_,hold'⟩
    · rfl
    · exact absurd heq (Nat.ne_of_gt (h.assigned path' item' hold').issued)
    · exact absurd heq (Nat.ne_of_lt (h.assigned path item hold).issued)
    · exact h.distinct path path' item item' hold hold' heq
  · intro path item hpath
    rcases assigned_assign hpath with ⟨rfl,rfl⟩ | ⟨_,hold⟩
    · exact hnew
    · exact (h.assigned path item hold).assign ..
  · exact fun q hq => (h.queued q hq).assign ..
  · exact fun m hook hhook => (h.hooks m hook hhook).assign ..
  · intro u hu item hitem
    rcases mem_replaced hu with rfl | hu
    · cases hitem
      exact hnew
    · exact (h.threads u (hthreads ▸ hu) item hitem).assign ..
  · intro m k hu
    rcases mem_replaced hu with heq | hu
    · simp at heq
    · exact h.admitted m k (hthreads ▸ hu)

theorem registered_advance (h : Registered config p) (hthreads : p.threads=l++t::r)
    (hadvance : Advance config move p.shared t s' t') : Registered config ⟨s',l++t'::r⟩ := by
  rcases advance_frame hadvance with hframe | ⟨mailbox,shard,rfl,_,rfl,rfl⟩
  · exact registered_frame h hthreads hframe
  · exact registered_assign h hthreads

theorem assigned_remove {path path' : ℕ} {item item' : ShardItem} (h : (s.remove path item).assigned path'=some item') :
    path'≠path ∧ s.assigned path'=some item' := by
  simp only [Shared.remove] at h
  by_cases heq : path'=path
  · rw [heq,update_self] at h
    simp at h
  · rw [update_of_ne heq] at h
    exact ⟨heq,h⟩

section
variable (h : Registered config p)
include h

theorem registered_remove {path : ℕ} (hpath : p.shared.assigned path=some item) :
    Registered config ⟨p.shared.remove path item,p.threads⟩ := by
  have hknown : ∀ {i}, Known p.shared i → Known (p.shared.remove path item) i := fun hk => ⟨hk.issued,hk.processor⟩
  refine ⟨?_,?_,?_,?_,?_,?_,?_,?_⟩
  · exact fun path' item' h' => h.path path' item' (assigned_remove h').2
  · intro path' item' h'
    obtain ⟨hne,hold⟩:=assigned_remove h'
    have htoken : item'.active≠item.active := fun heq => hne (h.distinct path' path item' item hold hpath heq)
    exact (update_of_ne htoken ..).trans (h.live path' item' hold)
  · exact fun path' path'' i i' h' h'' => h.distinct path' path'' i i' (assigned_remove h').2 (assigned_remove h'').2
  · exact fun path' item' h' => hknown (h.assigned path' item' (assigned_remove h').2)
  · exact fun q hq => hknown (h.queued q hq)
  · exact fun m hook hhook => hknown (h.hooks m hook hhook)
  · exact fun u hu i hi => hknown (h.threads u hu i hi)
  · exact h.admitted

theorem registered_event (hassigned : s'.assigned=p.shared.assigned)
    (hactive : s'.active=p.shared.active) (htokens : s'.tokens=p.shared.tokens)
    (hprocessor : ∀ m, (p.shared.mailboxes m).processor=true → (s'.mailboxes m).processor=true)
    (hhook : ∀ m, (s'.mailboxes m).wakeHook=(p.shared.mailboxes m).wakeHook) (hqueued : s'.queued⊆p.shared.queued)
    (hnew : ∀ t∈o, (∀ item∈t.mentions, Known p.shared item) ∧ ∀ mailbox shard, t=.admitted mailbox shard →
    (p.shared.mailboxes mailbox).processor=true) : Registered config ⟨s',p.threads++o.toList⟩ := by
  have hknown : ∀ {i}, Known p.shared i → Known s' i := fun hk => ⟨htokens ▸ hk.issued,hprocessor _ hk.processor⟩
  refine ⟨?_,?_,?_,?_,?_,?_,?_,?_⟩ <;> simp only [hassigned,hactive]
  · exact h.path
  · exact h.live
  · exact h.distinct
  · exact fun path item hpath => hknown (h.assigned path item hpath)
  · exact fun q hq => hknown (h.queued q (hqueued hq))
  · intro m hook hm
    rw [hhook] at hm
    exact hknown (h.hooks m hook hm)
  · intro u hu item hitem
    rcases List.mem_append.mp hu with hu | hu
    · exact hknown (h.threads u hu item hitem)
    · exact hknown ((hnew u (Option.mem_toList.mp hu)).1 item hitem)
  · intro mailbox shard hu
    rcases List.mem_append.mp hu with hu | hu
    · exact hprocessor _ (h.admitted mailbox shard hu)
    · exact hprocessor _ ((hnew _ (Option.mem_toList.mp hu)).2 mailbox shard rfl)

theorem registered_entry {e : Event} (hentry : Entry config p.shared e s' o) :
    Registered config ⟨s',p.threads++o.toList⟩ := by
  cases hentry with
  | deschedule hpath => simpa using registered_remove h hpath
  | schedule hprocessor =>
    refine registered_event h rfl rfl rfl (fun _ => id) (fun _ => rfl) (List.Subset.refl _) fun t ht => ?_
    cases ht
    refine ⟨fun item hitem => by simp [Thread.mentions,Thread.item?] at hitem,fun mailbox shard heq => ?_⟩
    obtain ⟨rfl,_⟩:=Thread.admitted.inj heq
    exact hprocessor
  | recv hq =>
    refine registered_event h rfl rfl rfl (fun _ => id) (fun _ => rfl) List.erase_subset fun t ht => ?_
    cases ht
    refine ⟨fun item hitem => ?_,by simp⟩
    cases hitem
    exact h.queued _ hq
  | push =>
    refine registered_event h rfl rfl rfl (fun m hm => (update_keeps _ _ _ _ Mailbox.processor (by intro; rfl)).trans hm)
      (fun _ => update_keeps _ _ _ _ Mailbox.wakeHook (by intro; rfl)) (List.Subset.refl _) fun t ht => ?_
    cases ht
    exact ⟨fun item hitem => by simp [Thread.mentions,Thread.item?] at hitem,by simp⟩
  | setProcessor =>
    refine registered_event h rfl rfl rfl (fun m hm => ?_) (fun _ => update_keeps _ _ _ _ Mailbox.wakeHook (by intro; rfl)) (List.Subset.refl _) (by simp)
    rw [update_mailboxes]
    split
    · rfl
    · exact hm
  | cancelProcessing =>
    exact registered_event h rfl rfl rfl (fun m hm => (update_keeps _ _ _ _ Mailbox.processor (by intro; rfl)).trans hm)
      (fun _ => update_keeps _ _ _ _ Mailbox.wakeHook (by intro; rfl)) (List.Subset.refl _) (by simp)
  | _ => exact registered_event h rfl rfl rfl (fun _ => id) (fun _ => rfl) (List.Subset.refl _) (by simp)

theorem registered_next (hnext : (program config).next p a=some p') : Registered config p' := by
  obtain ⟨e,s,t,_,he,rfl⟩ | ⟨k,l,t,r,s,t',_,hl,hs,rfl⟩:=next_cases hnext
  · exact registered_entry h (enter_entry he)
  · exact registered_advance h hl (step_advance hs)

end

theorem start_registered : Registered config start := by
  refine ⟨?_,?_,?_,?_,?_,?_,?_,?_⟩ <;> simp [start,Mailbox.new]

end Parrot.Scheduler.Sharded
