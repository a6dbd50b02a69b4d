import Parrot.Mailbox.Fifo

/-! # The ring buffer mailbox (`thread/mailbox/spsc_ringbuf.rs`)

A push holds the lock of the producer from its check to its publication, and takes that of the
consumer inside it. -/

namespace Parrot.Mailbox
open Function (update_of_ne)

variable {β : Type}

/-- Where a call is. From `evict` on, and from `draining` on, it holds the lock of the producer. -/
inductive RingStage (β : Type) where
  | start (m : β) (strategy : BackpressureStrategy)
  | producer (m : β) (strategy : BackpressureStrategy)
  | evict (m : β)
  | publish (m : β) (evicted : Option β)
  | waiting (m : β)
  | ended (result : PushResult)
  | failed (message : String)
  | closing
  | draining
  | closed

def RingStage.publishing : RingStage β → Bool
  | .evict _ | .publish _ _ => true
  | _ => false

def RingStage.holds : RingStage β → Bool
  | .draining => true
  | stage => stage.publishing

structure SpscRingbufMailbox (β : Type) where
  ring : List β
  capacity : ℕ
  isClosed : Bool
  producer : Option ℕ
  tasks : ℕ → Option (RingStage β)
  ledger : Ledger β

namespace SpscRingbufMailbox

def new (capacity : UInt64) : SpscRingbufMailbox β where
  ring := []
  capacity := max capacity.toNat 1
  isClosed := false
  producer := none
  tasks := fun _ => none
  ledger := .new

def setTask (s : SpscRingbufMailbox β) (t : ℕ) (stage : RingStage β) : SpscRingbufMailbox β :=
  {s with tasks:=Function.update s.tasks t (some stage)}

def lock (s : SpscRingbufMailbox β) (t : ℕ) : SpscRingbufMailbox β := {s with producer:=some t}

def unlock (s : SpscRingbufMailbox β) : SpscRingbufMailbox β := {s with producer:=none}

def isFull (s : SpscRingbufMailbox β) : Bool := s.capacity ≤ s.ring.length

/- `Consumer::try_pop`. -/
def tryPop (s : SpscRingbufMailbox β) : SpscRingbufMailbox β := {s with ring:=s.ring.tail}

/-- The section that takes the lock of the producer. -/
def produce (s : SpscRingbufMailbox β) (t : ℕ) (m : β) (strategy : BackpressureStrategy) : SpscRingbufMailbox β :=
  if s.isClosed then s.setTask t (.ended (.err .closed))
  else if s.isFull then
    match strategy with
    | .dropNewest => s.setTask t (.ended (.err (.dropped s.capacity)))
    | .error => s.setTask t (.ended (.err (.full s.capacity)))
    | .dropOldest => (s.lock t).setTask t (.evict m)
    | .block => s.setTask t (.waiting m)
  else (s.lock t).setTask t (.publish m none)

/-- `try_push_msg`, and the end of the section. -/
def publish (s : SpscRingbufMailbox β) (t : ℕ) (m : β) (evicted : Option β) : SpscRingbufMailbox β :=
  if s.isFull then
    ({s.unlock with ledger:=s.ledger.giveUp t evicted}).setTask t (.failed "ring buffer push failed")
  else ({s.unlock with ring:=s.ring++[m],ledger:=s.ledger.admits t m}).setTask t (.ended .ok)

def proceed (s : SpscRingbufMailbox β) (t : ℕ) : RingStage β → SpscRingbufMailbox β
  | .start m strategy =>
    if s.isClosed then s.setTask t (.ended (.err .closed)) else s.setTask t (.producer m strategy)
  | .producer m strategy => if s.producer.isSome then s else s.produce t m strategy
  | .evict m => ({s.tryPop with ledger:=s.ledger.evict s.ring.head?}).setTask t (.publish m s.ring.head?)
  | .publish m evicted => s.publish t m evicted
  | .closing => if s.producer.isSome then s else (s.lock t).setTask t .draining
  | .draining =>
    ({s.unlock with ring := [],ledger := {s.ledger.dispose s.ring with returned:=true}}).setTask t .closed
  | .waiting _ | .ended _ | .failed _ | .closed => s

def step (s : SpscRingbufMailbox β) : Act β → SpscRingbufMailbox β
  | .push t m strategy =>
    match s.tasks t with
    | none => s.setTask t (.start m strategy)
    | some _ => s
  | .close t =>
    match s.tasks t with
    | none => ({s with isClosed:=true}).setTask t .closing
    | some _ => s
  | .proceed t =>
    match s.tasks t with
    | some stage => s.proceed t stage
    | none => s
  | .wake t =>
    match s.tasks t with
    | some (.waiting m) => s.setTask t (.start m .block)
    | _ => s
  | .pop => {s.tryPop with ledger:=s.ledger.deliver s.ring.head?}
  | .sealUp => {s with isClosed:=true}

def result (s : SpscRingbufMailbox β) (t : ℕ) : Option PushResult :=
  match s.tasks t with
  | some (.ended result) => some result
  | some (.waiting _) => some .waiting
  | _ => none

def implementation (β : Type) : Implementation β := ⟨SpscRingbufMailbox β,new,step,ring,result,ledger⟩

def run (s : SpscRingbufMailbox β) (actions : List (Act β)) : SpscRingbufMailbox β := actions.foldl step s

structure Inv (s : SpscRingbufMailbox β) : Prop where
  balanced : s.ledger.Balanced s.ring
  calls : s.ledger.calls.Nodup
  ended : ∀ t∈s.ledger.calls, s.tasks t=some (.ended .ok)
  held : ∀ t stage, s.tasks t=some stage → stage.holds=true → s.producer=some t
  positive : 0<s.capacity
  bound : s.ring.length ≤ s.capacity
  room : ∀ t m evicted, s.tasks t=some (.publish m evicted) → s.ring.length<s.capacity
  «over» : s.ledger.returned=true → s.isClosed=true ∧ ∀ t stage, s.tasks t=some stage → stage.publishing=false
  closing : ∀ t stage, s.tasks t=some stage → stage=.closing ∨ stage=.draining → s.isClosed=true
  lost : s.ledger.lost=[]

variable {s s' : SpscRingbufMailbox β} {t : ℕ} {k : RingStage β}

theorem new_inv (capacity : UInt64) : Inv (new capacity : SpscRingbufMailbox β) where
  balanced := Ledger.new_balanced
  calls := List.nodup_nil
  ended := fun t h => by simp [new,Ledger.calls,Ledger.new] at h
  held := fun t stage h => by simp [new] at h
  positive := Nat.lt_of_lt_of_le Nat.zero_lt_one (Nat.le_max_right _ _)
  bound := Nat.zero_le _
  room := fun t m evicted h => by simp [new] at h
  «over» := fun h => by simp [new,Ledger.new] at h
  closing := fun t stage h => by simp [new] at h
  lost := rfl

theorem publishing_holds (h : k.publishing=true) : k.holds=true := by
  cases k with
  | evict | publish => rfl
  | start | producer | waiting | ended | failed | closing | draining | closed => simp [RingStage.publishing] at h

theorem Inv.fresh (h : Inv s) (ht : s.tasks t≠some (.ended .ok)) : t∉s.ledger.calls :=
  fun hmem => ht (h.ended t hmem)

theorem Inv.alone (h : Inv s) (hlock : s.producer=none ∨ s.producer=some t) {u : ℕ} (hu : u≠t) {stage : RingStage β}
    (hstage : s.tasks u=some stage) : stage.holds=false := by
  rw [← Bool.not_eq_true]
  intro hholds
  have hheld:=h.held u stage hstage hholds
  cases hlock with
  | inl hnone => simp [hnone] at hheld
  | inr hmine => exact hu (Option.some.inj (hheld.symm.trans hmine))

theorem Inv.turn (h : Inv s) (htasks : s'.tasks=Function.update s.tasks t (some k))
    (hcapacity : s'.capacity=s.capacity) (hclosed : s.isClosed=true → s'.isClosed=true)
    (hlock : s'.producer=s.producer ∨ s.producer=none ∨ s.producer=some t)
    (hring : s'.ring.length ≤ s.ring.length ∨ s.producer=some t)
    (hreturned : s'.ledger.returned=true → s.ledger.returned=true ∨ s.producer=some t ∧ s'.isClosed=true)
    (hbalanced : s'.ledger.Balanced s'.ring) (hlost : s'.ledger.lost=[]) (hfresh : t∉s.ledger.calls)
    (hcalls : s'.ledger.calls=s.ledger.calls ∨ s'.ledger.calls=s.ledger.calls++[t] ∧ k=.ended .ok)
    (hbound : s'.ring.length ≤ s.capacity) (hholds : k.holds=true → s'.producer=some t) (hroom : ∀ m evicted,
    k=.publish m evicted → s'.ring.length<s.capacity) (hover : k.publishing=true → s'.ledger.returned=false)
    (hclosing : k=.closing ∨ k=.draining → s'.isClosed=true) : Inv s' := by
  obtain ⟨hnodup,hended⟩:=calls_update h.calls h.ended htasks hfresh hcalls
  refine ⟨hbalanced,hnodup,hended,fun u stage hstage => ?_,hcapacity ▸ h.positive,hcapacity ▸ hbound,
    fun u m evicted hstage => ?_,fun hret => ⟨?_,fun u stage hstage => ?_⟩,fun u stage hstage => ?_,hlost⟩
  · refine forall_update (P := fun u stage => stage.holds=true → s'.producer=some u) htasks (fun u hut stage hstage hh => ?_)
      hholds hstage
    cases hlock with
    | inl hsame =>
      rw [hsame]
      exact h.held u stage hstage hh
    | inr hfree => simp [h.alone hfree hut hstage] at hh
  · rw [hcapacity]
    refine forall_update (P := fun u stage => ∀ m evicted, stage=.publish m evicted → s'.ring.length<s.capacity) htasks
      (fun u hut stage hstage m evicted hk => ?_) hroom hstage m evicted rfl
    subst hk
    cases hring with
    | inl hle => exact Nat.lt_of_le_of_lt hle (h.room u m evicted hstage)
    | inr hmine => simpa [RingStage.holds,RingStage.publishing] using h.alone (.inr hmine) hut hstage
  · cases hreturned hret with
    | inl hold => exact hclosed (h.over hold).1
    | inr hnew => exact hnew.2
  · refine forall_update (P := fun _ stage => stage.publishing=false) htasks (fun u hut stage hstage => ?_) ?_ hstage
    · cases hreturned hret with
      | inl hold => exact (h.over hold).2 u stage hstage
      | inr hnew =>
        have hnone:=h.alone (.inr hnew.1) hut hstage
        rw [← Bool.not_eq_true]
        intro hp
        simp [publishing_holds hp] at hnone
    · rw [← Bool.not_eq_true]
      intro hp
      simp [hover hp] at hret
  · exact forall_update (P := fun _ stage => stage=.closing ∨ stage=.draining → s'.isClosed=true) htasks
      (fun u _ stage hstage hc => hclosed (h.closing u stage hstage hc)) hclosing hstage

theorem Inv.pass (h : Inv s) (htasks : s'.tasks=Function.update s.tasks t (some k))
    (hsame : (s'.capacity,s'.ring,s'.ledger)=(s.capacity,s.ring,s.ledger)) (hclosed : s.isClosed=true →
    s'.isClosed=true) (hlock : s'.producer=s.producer ∨ s.producer=none ∨ s.producer=some t)
    (hfresh : s.tasks t≠some (.ended .ok)) (hholds : k.holds=true → s'.producer=some t) (hroom : ∀ m evicted,
    k=.publish m evicted → s.ring.length<s.capacity) (hover : k.publishing=true → s.isClosed=false)
    (hclosing : k=.closing ∨ k=.draining → s'.isClosed=true) : Inv s' := by
  obtain ⟨hcapacity,hrest⟩:=Prod.mk.inj hsame
  obtain ⟨hring,hledger⟩:=Prod.mk.inj hrest
  refine h.turn htasks hcapacity hclosed hlock (.inl ?_) (fun hret => .inl ?_) ?_ ?_ (h.fresh hfresh) (.inl ?_) ?_ hholds
    (fun m evicted hk => ?_) (fun hp => ?_) hclosing
  · exact Nat.le_of_eq (congrArg List.length hring)
  · rwa [hledger] at hret
  · rw [hledger,hring]
    exact h.balanced
  · rw [hledger]
    exact h.lost
  · rw [hledger]
  · rw [hring]
    exact h.bound
  · rw [hring]
    exact hroom m evicted hk
  · rw [hledger,← Bool.not_eq_true]
    intro hret
    have hopen:=hover hp
    simp [(h.over hret).1] at hopen

theorem Inv.rest (h : Inv s) (hfresh : s.tasks t≠some (.ended .ok)) (hfree : k.holds=false) (hopen : k ≠ .closing) :
    Inv (s.setTask t k) := by
  have hquiet : k.publishing=false := by
    rw [← Bool.not_eq_true]
    intro hp
    simp [publishing_holds hp] at hfree
  refine h.pass rfl rfl id (.inl rfl) hfresh (by simp [hfree]) ?_ (by simp [hquiet]) ?_
  · rintro m evicted rfl
    simp [RingStage.publishing] at hquiet
  · rintro (rfl | rfl)
    · contradiction
    · simp [RingStage.holds] at hfree

theorem isFull_iff (s : SpscRingbufMailbox β) : s.isFull=false ↔ s.ring.length<s.capacity := by
  simp [isFull]

section
variable (h : Inv s)
include h

theorem produce_inv {m : β} {strategy : BackpressureStrategy}
    (ht : s.tasks t=some (.producer m strategy)) (hfree : s.producer=none) : Inv (s.produce t m strategy) := by
  have hfresh : s.tasks t≠some (.ended .ok) := by simp [ht]
  unfold produce
  split
  · exact h.rest hfresh rfl (by simp)
  · rename_i hopen
    have hnot : s.isClosed=false := by simpa using hopen
    split
    · cases strategy with
      | dropNewest | error | block =>
        exact h.rest hfresh rfl (by simp)
      | dropOldest =>
        exact h.pass rfl rfl id (.inr (.inl hfree)) hfresh (fun _ => rfl) (by simp) (fun _ => hnot) (by simp)
    · rename_i hroom
      have hlt : s.ring.length<s.capacity := (isFull_iff s).mp (by simpa using hroom)
      exact h.pass rfl rfl id (.inr (.inl hfree)) hfresh (fun _ => rfl) (fun _ _ _ => hlt) (fun _ => hnot) (by simp)

theorem evict_inv {m : β} (ht : s.tasks t=some (.evict m)) : Inv (s.proceed t (.evict m)) := by
  have hlock:=h.held t _ ht rfl
  have hfresh:=h.fresh (t := t) (by simp [ht])
  have hpositive:=h.positive
  have hbound:=h.bound
  have hret : s.ledger.returned=false := by
    rw [← Bool.not_eq_true]
    intro hret
    have hquiet:=(h.over hret).2 t _ ht
    simp [RingStage.publishing] at hquiet
  have hshort : s.ring.tail.length<s.capacity := by
    rw [List.length_tail]
    omega
  refine h.turn (k := .publish m s.ring.head?) rfl rfl id (.inl rfl) (.inl ?_) .inl h.balanced.evict h.lost hfresh
    (.inl rfl) (Nat.le_of_lt hshort) (fun _ => hlock) (fun _ _ _ => hshort) (fun _ => hret) (by simp)
  change s.ring.tail.length ≤ s.ring.length
  simp

theorem publish_inv {m : β} {evicted : Option β} (ht : s.tasks t=some (.publish m evicted)) :
    Inv (s.publish t m evicted) := by
  have hlock:=h.held t _ ht rfl
  have hroom:=h.room t m evicted ht
  unfold publish
  rw [if_neg (by simp [(isFull_iff s).mpr hroom])]
  refine h.turn (k := .ended .ok) rfl rfl id (.inr (.inr hlock)) (.inr hlock) .inl (h.balanced.admits t m) h.lost
    (h.fresh (by simp [ht])) (.inr ⟨?_,rfl⟩) ?_ (by simp [RingStage.holds,RingStage.publishing]) (by simp)
    (by simp [RingStage.publishing]) (by simp)
  · change (s.ledger.admitted++[(t,m)]).map Prod.fst=_
    simp [Ledger.calls]
  · change (s.ring++[m]).length ≤ s.capacity
    rw [List.length_append,List.length_singleton]
    exact hroom

theorem drain_inv (ht : s.tasks t=some .draining) : Inv (s.proceed t .draining) := by
  have hlock:=h.held t _ ht rfl
  have hclosed:=h.closing t _ ht (.inr rfl)
  exact h.turn (k := .closed) rfl rfl id (.inr (.inr hlock)) (.inr hlock) (fun _ => .inr ⟨hlock,hclosed⟩)
    h.balanced.dispose h.lost (h.fresh (by simp [ht])) (.inl rfl) (Nat.zero_le _)
    (by simp [RingStage.holds,RingStage.publishing]) (by simp) (by simp [RingStage.publishing]) (by simp)

theorem proceed_inv (ht : s.tasks t=some k) : Inv (s.proceed t k) := by
  cases k with
  | start m strategy =>
    simp only [proceed]
    split
    · exact h.rest (by simp [ht]) rfl (by simp)
    · exact h.rest (by simp [ht]) rfl (by simp)
  | producer m strategy =>
    simp only [proceed]
    split
    · exact h
    · rename_i hfree
      exact produce_inv h ht (by simpa using hfree)
  | evict m => exact evict_inv h ht
  | publish m evicted => exact publish_inv h ht
  | closing =>
    have hclosed:=h.closing t _ ht (.inl rfl)
    simp only [proceed]
    split
    · exact h
    · rename_i hfree
      exact h.pass rfl rfl id (.inr (.inl (by simpa using hfree))) (by simp [ht]) (fun _ => rfl) (by simp)
        (by simp [RingStage.publishing]) (fun _ => hclosed)
  | draining => exact drain_inv h ht
  | waiting | ended | failed | closed => exact h

theorem pop_inv : Inv (s.step .pop) := by
  have hle : s.ring.tail.length ≤ s.ring.length := by simp
  exact ⟨h.balanced.deliver,h.calls,h.ended,h.held,h.positive,Nat.le_trans hle h.bound,
    fun t m evicted ht => Nat.lt_of_le_of_lt hle (h.room t m evicted ht),h.over,h.closing,h.lost⟩

theorem sealUp_inv : Inv {s with isClosed:=true} :=
  ⟨h.balanced,h.calls,h.ended,h.held,h.positive,h.bound,h.room,fun hret => ⟨rfl,(h.over hret).2⟩,fun _ _ _ _ => rfl,h.lost⟩

theorem step_inv (a : Act β) : Inv (s.step a) := by
  cases a with
  | push t m strategy =>
    simp only [step]
    split
    · rename_i hnone
      exact h.rest (by simp [hnone]) rfl (by simp)
    · exact h
  | close t =>
    simp only [step]
    split
    · rename_i hnone
      exact (sealUp_inv h).pass rfl rfl id (.inl rfl) (by simp [hnone]) (by simp [RingStage.holds,RingStage.publishing])
        (by simp) (by simp [RingStage.publishing]) (fun _ => rfl)
    · exact h
  | proceed t =>
    simp only [step]
    split
    · rename_i ht
      exact proceed_inv h ht
    · exact h
  | wake t =>
    simp only [step]
    split
    · rename_i ht
      exact h.rest (by simp [ht]) rfl (by simp)
    · exact h
  | pop => exact pop_inv h
  | sealUp => exact sealUp_inv h

theorem run_inv (actions : List (Act β)) : Inv (s.run actions) := by
  induction actions generalizing s with
  | nil => exact h
  | cons a actions ih => exact ih (step_inv h a)

end

theorem produce_ledger (s : SpscRingbufMailbox β) (t : ℕ) (m : β) (strategy : BackpressureStrategy) :
    (s.produce t m strategy).ledger=s.ledger := by
  unfold produce
  split
  · rfl
  · split
    · cases strategy with
      | dropNewest | error | dropOldest | block => rfl
    · rfl

theorem step_returned (h : Inv s) (hret : s.ledger.returned=true) (a : Act β) :
    (s.step a).ledger.returned=true ∧ (s.step a).ledger.admitted=s.ledger.admitted := by
  cases a with
  | push | close | wake =>
    simp only [step]
    split
    · exact ⟨hret,rfl⟩
    · exact ⟨hret,rfl⟩
  | proceed t =>
    simp only [step]
    split
    · rename_i k ht
      cases k with
      | start | closing =>
        simp only [proceed]
        split
        · exact ⟨hret,rfl⟩
        · exact ⟨hret,rfl⟩
      | producer m strategy =>
        simp only [proceed]
        split
        · exact ⟨hret,rfl⟩
        · rw [produce_ledger]
          exact ⟨hret,rfl⟩
      | publish m evicted =>
        have hquiet:=(h.over hret).2 t _ ht
        simp [RingStage.publishing] at hquiet
      | draining => exact ⟨rfl,rfl⟩
      | evict | waiting | ended | failed | closed => exact ⟨hret,rfl⟩
    · exact ⟨hret,rfl⟩
  | pop | sealUp => exact ⟨hret,rfl⟩

structure Shows (t : ℕ) (s : SpscRingbufMailbox β) (q : Fifo β) : Prop where
  ring : s.ring=q.held
  capacity : s.capacity=q.capacity
  closed : s.isClosed=q.closed
  free : s.producer=none
  fresh : ∀ u≥t, s.tasks u=none
  inv : Inv s

theorem run_push (hnone : s.tasks t=none) (hfree : s.producer=none) (hinv : Inv s) (m : β)
    (strategy : BackpressureStrategy) :
    let q : Fifo β := ⟨s.ring,s.capacity,s.isClosed⟩
    let s':=s.run (.push t m strategy::List.replicate 5 (.proceed t))
    (s'.ring,s'.capacity,s'.isClosed)=((q.push m strategy).1.held,(q.push m strategy).1.capacity,(q.push m strategy).1.closed) ∧
      s'.producer=none ∧ s'.result t=some (q.push m strategy).2 ∧ ∀ u, u≠t → s'.tasks u=s.tasks u := by
  have hpositive:=hinv.positive
  have hbound:=hinv.bound
  intro q s'
  cases hclosed : s.isClosed with
  | true =>
    simp [s',q,run,List.replicate,step,proceed,setTask,hnone,hclosed,Fifo.push,result,hfree]
    intro u hu
    simp [update_of_ne hu]
  | false =>
    by_cases hroom : s.ring.length<s.capacity
    · have hfull : ¬s.capacity ≤ s.ring.length := by omega
      simp [s',q,run,List.replicate,step,proceed,setTask,hnone,hclosed,Fifo.push,result,hfree,produce,isFull,hroom,hfull,publish,
        lock,unlock]
      intro u hu
      simp [update_of_ne hu]
    · have hfull : s.capacity ≤ s.ring.length := by omega
      have hshort : ¬s.capacity ≤ s.ring.length-1 := by omega
      cases strategy with
      | dropNewest | error | block =>
        simp [s',q,run,List.replicate,step,proceed,setTask,hnone,hclosed,Fifo.push,result,hfree,produce,isFull,hroom,hfull]
        intro u hu
        simp [update_of_ne hu]
      | dropOldest =>
        simp [s',q,run,List.replicate,step,proceed,setTask,hnone,hclosed,Fifo.push,result,hfree,produce,isFull,hroom,hfull,
          publish,lock,unlock,tryPop,hshort]
        intro u hu
        simp [update_of_ne hu]

theorem run_close (hnone : s.tasks t=none) (hfree : s.producer=none) :
    let s':=s.run (.close t::List.replicate 5 (.proceed t))
    (s'.ring,s'.capacity,s'.isClosed)=([],s.capacity,true) ∧ s'.producer=none ∧ ∀ u, u≠t → s'.tasks u=s.tasks u := by
  intro s'
  simp [s',run,List.replicate,step,proceed,setTask,hnone,hfree,lock,unlock]
  intro u hu
  simp [update_of_ne hu]

theorem Shows.later {q : Fifo β} (h : Shows t s q) {q' : Fifo β}
    (hsame : (s'.ring,s'.capacity,s'.isClosed)=(q'.held,q'.capacity,q'.closed)) (hfree : s'.producer=none)
    (hother : ∀ u, u≠t → s'.tasks u=s.tasks u) (hinv : Inv s') : Shows (t+1) s' q' := by
  obtain ⟨hring,hrest⟩:=Prod.mk.inj hsame
  obtain ⟨hcapacity,hclosed⟩:=Prod.mk.inj hrest
  refine ⟨hring,hcapacity,hclosed,hfree,fun u hu => ?_,hinv⟩
  rw [hother u (by omega)]
  exact h.fresh u (by omega)

theorem follows : (implementation β).Follows Shows where
  new := fun capacity => ⟨rfl,rfl,rfl,rfl,fun _ _ => rfl,new_inv capacity⟩
  held := fun h => h.ring
  call := by
    intro t s q c h _
    have hq : (⟨s.ring,s.capacity,s.isClosed⟩ : Fifo β)=q := by
      cases q
      simp [h.ring,h.capacity,h.closed]
    have hnone:=h.fresh t (Nat.le_refl t)
    cases c with
    | push m strategy =>
      obtain ⟨hsame,hfree,hresult,hother⟩:=run_push hnone h.free h.inv m strategy
      rw [hq] at hsame hresult
      exact ⟨h.later hsame hfree hother (run_inv h.inv _),congrArg Answer.pushed hresult⟩
    | pop =>
      refine ⟨h.later ?_ h.free (fun _ _ => rfl) (pop_inv h.inv),?_⟩
      · change (s.ring.tail,s.capacity,s.isClosed)=(q.held.tail,q.capacity,q.closed)
        rw [h.ring,h.capacity,h.closed]
      · change Answer.popped s.ring.head? = .popped q.held.head?
        rw [h.ring]
    | sealUp =>
      refine ⟨h.later ?_ h.free (fun _ _ => rfl) (sealUp_inv h.inv),rfl⟩
      change (s.ring,s.capacity,true)=(q.held,q.capacity,true)
      rw [h.ring,h.capacity]
    | close =>
      obtain ⟨hsame,hfree,hother⟩:=run_close hnone h.free
      rw [h.capacity] at hsame
      exact ⟨h.later hsame hfree hother (run_inv h.inv _),rfl⟩

end SpscRingbufMailbox
end Parrot.Mailbox
