import Parrot.Mailbox.Fifo

/-! # The channel mailbox (`thread/mailbox/spsc.rs`)

A push that waits for room reserves its slot before it takes the lock of the receiver, all
others work under that lock. -/

namespace Parrot.Mailbox
open Bool (not_eq_true)
open Function (update_of_ne update)

variable {β : Type}

inductive SpscStage (β : Type) where
  | start (m : β) (strategy : BackpressureStrategy)
  | reserve (m : β)
  | permit (m : β)
  | lock (m : β) (strategy : BackpressureStrategy)
  | evict (m : β)
  | retry (m : β) (evicted : Option β)
  | ended (result : PushResult)
  | closing
  | closed

def SpscStage.holds : SpscStage β → Bool
  | .evict _ | .retry _ _ => true
  | _ => false

/- `permits` are the calls with a reserved slot; `disconnected` is `Receiver::close`. -/
structure SpscMailbox (β : Type) where
  queue : List β
  permits : List ℕ
  capacity : ℕ
  isClosed : Bool
  disconnected : Bool
  receiver : Option ℕ
  tasks : ℕ → Option (SpscStage β)
  ledger : Ledger β

namespace SpscMailbox

variable (capacity : UInt64)

def new : SpscMailbox β where
  queue := []
  permits := []
  capacity := max capacity.toNat 1
  isClosed := false
  disconnected := false
  receiver := none
  tasks := fun _ => none
  ledger := .new

def setTask (s : SpscMailbox β) (t : ℕ) (stage : SpscStage β) : SpscMailbox β :=
  {s with tasks:=update s.tasks t (some stage)}

def hasRoom (s : SpscMailbox β) : Bool := s.queue.length+s.permits.length<s.capacity

def sent (s : SpscMailbox β) (t : ℕ) (m : β) : SpscMailbox β :=
  ({s with queue:=s.queue++[m],ledger:=s.ledger.admits t m}).setTask t (.ended .ok)

/-- The section of a push that does not wait: `try_send`. -/
def attempt (s : SpscMailbox β) (t : ℕ) (m : β) (strategy : BackpressureStrategy) : SpscMailbox β :=
  if s.isClosed then s.setTask t (.ended (.err .closed))
  else if s.disconnected then s.setTask t (.ended (.err .closed))
  else if s.hasRoom then s.sent t m
  else
    match strategy with
    | .dropOldest => ({s with receiver:=some t}).setTask t (.evict m)
    | .dropNewest => s.setTask t (.ended (.err (.dropped s.capacity)))
    | .error | .block => s.setTask t (.ended (.err (.full s.capacity)))

/-- The second `try_send`, and the end of the section. -/
def retry (s : SpscMailbox β) (t : ℕ) (m : β) (evicted : Option β) : SpscMailbox β :=
  if s.disconnected then
    ({s with receiver:=none,ledger:=s.ledger.giveUp t evicted}).setTask t (.ended (.err .closed))
  else if s.hasRoom then ({s with receiver:=none}).sent t m
  else ({s with receiver:=none,ledger:=s.ledger.giveUp t evicted}).setTask t (.ended (.err (.full s.capacity)))

/-- A reserved slot is filled under the lock, or given back. -/
def commit (s : SpscMailbox β) (t : ℕ) (m : β) : SpscMailbox β :=
  if s.isClosed then ({s with permits:=s.permits.erase t}).setTask t (.ended (.err .closed))
  else ({s with permits:=s.permits.erase t}).sent t m

def proceed (s : SpscMailbox β) (t : ℕ) : SpscStage β → SpscMailbox β
  | .start m strategy =>
    if s.isClosed then s.setTask t (.ended (.err .closed))
    else if strategy=.block then s.setTask t (.reserve m)
    else s.setTask t (.lock m strategy)
  | .reserve m =>
    if s.disconnected then s.setTask t (.ended (.err .closed))
    else if s.hasRoom then ({s with permits:=t::s.permits}).setTask t (.permit m)
    else s
  | .permit m => if s.receiver.isSome then s else s.commit t m
  | .lock m strategy => if s.receiver.isSome then s else s.attempt t m strategy
  | .evict m =>
    ({s with queue:=s.queue.tail,ledger:=s.ledger.evict s.queue.head?}).setTask t (.retry m s.queue.head?)
  | .retry m evicted => s.retry t m evicted
  | .closing =>
    if s.receiver.isSome then s
    else
      ({s with
        queue := []
        disconnected := true
        ledger := {s.ledger.dispose s.queue with returned:=true}}).setTask t .closed
  | .ended _ | .closed => s

def step (s : SpscMailbox β) : Act β → SpscMailbox β
  | .push t m strategy =>
    match s.tasks t with
    | none => s.setTask t (.start m strategy)
    | some _ => s
  | .close t =>
    match s.tasks t with
    | none => ({s with isClosed:=true}).setTask t .closing
    | some _ => s
  | .proceed t =>
    match s.tasks t with
    | some stage => s.proceed t stage
    | none => s
  | .wake t =>
    match s.tasks t with
    | some (.reserve _) => if s.isClosed then s.setTask t (.ended (.err .closed)) else s
    | _ => s
  | .pop =>
    if s.receiver.isSome then s else {s with queue:=s.queue.tail,ledger:=s.ledger.deliver s.queue.head?}
  | .sealUp => {s with isClosed:=true}

def result (s : SpscMailbox β) (t : ℕ) : Option PushResult :=
  match s.tasks t with
  | some (.ended result) => some result
  | some (.reserve _) => some .waiting
  | _ => none

def implementation (β : Type) : Implementation β := ⟨SpscMailbox β,new,step,queue,result,ledger⟩

def run (s : SpscMailbox β) (actions : List (Act β)) : SpscMailbox β := actions.foldl step s

structure Inv (s : SpscMailbox β) : Prop where
  balanced : s.ledger.Balanced s.queue
  calls : s.ledger.calls.Nodup
  ended : ∀ t∈s.ledger.calls, s.tasks t=some (.ended .ok)
  held : ∀ t stage, s.tasks t=some stage → stage.holds=true → s.receiver=some t
  positive : 0<s.capacity
  bound : s.queue.length+s.permits.length ≤ s.capacity
  reserved : ∀ t m, s.tasks t=some (.permit m) → t∈s.permits
  «over» : s.ledger.returned=true → s.isClosed=true ∧ ∀ t stage, s.tasks t=some stage → stage.holds=false
  disconnected : s.disconnected=s.ledger.returned
  closing : ∀ t, s.tasks t=some .closing → s.isClosed=true

variable {s s' : SpscMailbox β} {t : ℕ} {k : SpscStage β}

theorem new_inv : Inv (new capacity : SpscMailbox β) where
  balanced := Ledger.new_balanced
  calls := List.nodup_nil
  ended := fun t h => by simp [new,Ledger.calls,Ledger.new] at h
  held := fun t stage h => by simp [new] at h
  positive := Nat.lt_of_lt_of_le Nat.zero_lt_one (Nat.le_max_right _ _)
  bound := Nat.zero_le _
  reserved := fun t m h => by simp [new] at h
  «over» := fun h => by simp [new,Ledger.new] at h
  disconnected := rfl
  closing := fun t h => by simp [new] at h

theorem Inv.fresh (h : Inv s) (ht : s.tasks t≠some (.ended .ok)) : t∉s.ledger.calls :=
  fun hmem => ht (h.ended t hmem)

theorem Inv.alone (h : Inv s) (hlock : s.receiver=none ∨ s.receiver=some t) {u : ℕ} (hu : u≠t) {stage : SpscStage β}
    (hstage : s.tasks u=some stage) : stage.holds=false := by
  rw [← not_eq_true]
  intro hholds
  have hheld:=h.held u stage hstage hholds
  cases hlock with
  | inl hnone => simp [hnone] at hheld
  | inr hmine => exact hu (Option.some.inj (hheld.symm.trans hmine))

theorem Inv.turn (h : Inv s) (htasks : s'.tasks=update s.tasks t (some k)) (hcapacity : s'.capacity=s.capacity)
    (hclosed : s.isClosed=true → s'.isClosed=true) (hlock : s'.receiver=s.receiver ∨ s.receiver=none ∨
    s.receiver=some t) (hpermits : ∀ u, u≠t → u∈s.permits → u∈s'.permits) (hreturned : s'.ledger.returned=true →
    s.ledger.returned=true ∨ s.receiver=none ∧ s'.isClosed=true) (hdisconnected : s'.disconnected=s'.ledger.returned)
    (hbalanced : s'.ledger.Balanced s'.queue) (hfresh : t∉s.ledger.calls) (hcalls : s'.ledger.calls=s.ledger.calls ∨
    s'.ledger.calls=s.ledger.calls++[t] ∧ k=.ended .ok) (hbound : s'.queue.length+s'.permits.length ≤ s.capacity)
    (hholds : k.holds=true → s'.receiver=some t) (hreserved : ∀ m, k=.permit m → t∈s'.permits)
    (hover : k.holds=true → s'.ledger.returned=false) (hclosing : k=.closing → s'.isClosed=true) : Inv s' := by
  obtain ⟨hnodup,hended⟩:=calls_update h.calls h.ended htasks hfresh hcalls
  refine ⟨hbalanced,hnodup,hended,fun u stage hstage => ?_,hcapacity ▸ h.positive,hcapacity ▸ hbound,fun u m hstage => ?_,
    fun hret => ⟨?_,fun u stage hstage => ?_⟩,hdisconnected,fun u hstage => ?_⟩
  · refine forall_update (P := fun u stage => stage.holds=true → s'.receiver=some u) htasks (fun u hut stage hstage hh => ?_)
      hholds hstage
    cases hlock with
    | inl hsame =>
      rw [hsame]
      exact h.held u stage hstage hh
    | inr hfree => simp [h.alone hfree hut hstage] at hh
  · refine forall_update (P := fun u stage => ∀ m, stage=.permit m → u∈s'.permits) htasks (fun u hut stage hstage m hk => ?_)
      hreserved hstage m rfl
    exact hpermits u hut (h.reserved u m (hk ▸ hstage))
  · cases hreturned hret with
    | inl hold => exact hclosed (h.over hold).1
    | inr hnew => exact hnew.2
  · refine forall_update (P := fun _ stage => stage.holds=false) htasks (fun u hut stage hstage => ?_) ?_ hstage
    · cases hreturned hret with
      | inl hold => exact (h.over hold).2 u stage hstage
      | inr hnew => exact h.alone (.inl hnew.1) hut hstage
    · rw [← not_eq_true]
      intro hp
      simp [hover hp] at hret
  · exact forall_update (P := fun _ stage => stage=.closing → s'.isClosed=true) htasks
      (fun u _ stage hstage hk => hclosed (h.closing u (hk ▸ hstage))) hclosing hstage rfl

theorem Inv.pass (h : Inv s) (htasks : s'.tasks=update s.tasks t (some k))
    (hsame : (s'.capacity,s'.queue,s'.permits,s'.disconnected,s'.ledger) =
    (s.capacity,s.queue,s.permits,s.disconnected,s.ledger)) (hclosed : s.isClosed=true → s'.isClosed=true)
    (hlock : s'.receiver=s.receiver ∨ s.receiver=none ∨ s.receiver=some t) (hfresh : s.tasks t≠some (.ended .ok))
    (hholds : k.holds=true → s'.receiver=some t) (hreserved : ∀ m, k ≠ .permit m)
    (hover : k.holds=true → s.isClosed=false) (hclosing : k=.closing → s'.isClosed=true) : Inv s' := by
  simp only [Prod.mk.injEq] at hsame
  obtain ⟨hcapacity,hqueue,hpermits,hdisconnected,hledger⟩:=hsame
  refine h.turn htasks hcapacity hclosed hlock (fun u _ hu => hpermits ▸ hu) (fun hret => .inl ?_) ?_ ?_ (h.fresh hfresh)
    (.inl ?_) ?_ hholds (fun m hm => absurd hm (hreserved m)) (fun hp => ?_) hclosing
  · rwa [hledger] at hret
  · rw [hdisconnected,hledger]
    exact h.disconnected
  · rw [hledger,hqueue]
    exact h.balanced
  · rw [hledger]
  · rw [hqueue,hpermits]
    exact h.bound
  · rw [hledger,← not_eq_true]
    intro hret
    have hopen:=hover hp
    simp [(h.over hret).1] at hopen

theorem Inv.rest (h : Inv s) (hfresh : s.tasks t≠some (.ended .ok)) (hfree : k.holds=false) (hslot : ∀ m, k ≠ .permit m)
    (hopen : k ≠ .closing) : Inv (s.setTask t k) :=
  h.pass rfl rfl id (.inl rfl) hfresh (by simp [hfree]) hslot (by simp [hfree]) (fun hk => absurd hk hopen)

theorem hasRoom_iff (s : SpscMailbox β) : s.hasRoom=true ↔ s.queue.length+s.permits.length<s.capacity := by
  simp [hasRoom]

variable {m : β}

section
variable (h : Inv s)
include h

theorem sent_inv (ht : s.tasks t=some k) (hk : k ≠ .ended .ok) {permits : List ℕ} {lock : Option ℕ}
    (hlock : s.receiver=none ∨ s.receiver=some t) (hpermits : ∀ u, u≠t → u∈s.permits → u∈permits)
    (hroom : s.queue.length+permits.length<s.capacity) :
    Inv (({s with permits:=permits,receiver:=lock}).sent t m) := by
  refine h.turn (k := .ended .ok) rfl rfl id (.inr hlock) hpermits .inl h.disconnected (h.balanced.admits t m)
    (h.fresh ?_) (.inr ⟨?_,rfl⟩) ?_ (by simp [SpscStage.holds]) (by simp) (by simp [SpscStage.holds]) (by simp)
  · rw [ht]
    exact fun hc => hk (Option.some.inj hc)
  · change (s.ledger.admitted++[(t,m)]).map Prod.fst=_
    simp [Ledger.calls]
  · change (s.queue++[m]).length+permits.length ≤ s.capacity
    rw [List.length_append,List.length_singleton]
    omega

theorem attempt_inv {strategy : BackpressureStrategy} (ht : s.tasks t=some (.lock m strategy))
    (hfree : s.receiver=none) : Inv (s.attempt t m strategy) := by
  have hfresh : s.tasks t≠some (.ended .ok) := by simp [ht]
  have hends : ∀ e : MailboxError, Inv (s.setTask t (.ended (.err e))) := fun e =>
    h.rest hfresh rfl (by simp) (by simp)
  unfold attempt
  split
  · exact hends _
  · rename_i hopen
    split
    · exact hends _
    · split
      · rename_i hroom
        exact sent_inv h ht (by simp) (.inl hfree) (fun _ _ hu => hu) ((hasRoom_iff s).mp hroom)
      · cases strategy with
        | dropOldest =>
          exact h.pass rfl rfl id (.inr (.inl hfree)) hfresh (fun _ => rfl) (by simp) (fun _ => by simpa using hopen)
            (by simp)
        | dropNewest | error | block => exact hends _

theorem commit_inv (ht : s.tasks t=some (.permit m)) (hfree : s.receiver=none) : Inv (s.commit t m) := by
  have hmem:=h.reserved t m ht
  have hbound:=h.bound
  have hlength:=List.length_erase_of_mem hmem
  have hpositive:=List.length_pos_of_mem hmem
  have hothers : ∀ u, u≠t → u∈s.permits → u∈s.permits.erase t := fun u hu hmem => (List.mem_erase_of_ne hu).mpr hmem
  unfold commit
  split
  · refine h.turn (k := .ended (.err .closed)) rfl rfl id (.inl rfl) hothers .inl h.disconnected h.balanced
      (h.fresh (by simp [ht])) (.inl rfl) ?_ (by simp [SpscStage.holds]) (by simp) (by simp [SpscStage.holds]) (by simp)
    change s.queue.length+(s.permits.erase t).length ≤ s.capacity
    omega
  · exact sent_inv h ht (by simp) (.inl hfree) hothers (by omega)

theorem evict_inv (ht : s.tasks t=some (.evict m)) : Inv (s.proceed t (.evict m)) := by
  have hlock:=h.held t _ ht rfl
  have hbound:=h.bound
  have hret : s.ledger.returned=false := by
    rw [← not_eq_true]
    intro hret
    have hquiet:=(h.over hret).2 t _ ht
    simp [SpscStage.holds] at hquiet
  refine h.turn (k := .retry m s.queue.head?) rfl rfl id (.inl rfl) (fun _ _ hu => hu) .inl h.disconnected h.balanced.evict
    (h.fresh (by simp [ht])) (.inl rfl) ?_ (fun _ => hlock) (by simp) (fun _ => hret) (by simp)
  change s.queue.tail.length+s.permits.length ≤ s.capacity
  rw [List.length_tail]
  omega

theorem retry_inv {evicted : Option β} (ht : s.tasks t=some (.retry m evicted)) : Inv (s.retry t m evicted) := by
  have hlock:=h.held t _ ht rfl
  have hends : ∀ e : MailboxError, Inv (({s with
      receiver := none,ledger := s.ledger.giveUp t evicted}).setTask t (.ended (.err e))) := fun e =>
    h.turn (k := .ended (.err e)) rfl rfl id (.inr (.inr hlock)) (fun _ _ hu => hu) .inl h.disconnected h.balanced
      (h.fresh (by simp [ht])) (.inl rfl) h.bound (by simp [SpscStage.holds]) (by simp) (by simp [SpscStage.holds]) (by simp)
  unfold retry
  split
  · exact hends _
  · split
    · rename_i hroom
      exact sent_inv h ht (by simp) (.inr hlock) (fun _ _ hu => hu) ((hasRoom_iff s).mp hroom)
    · exact hends _

theorem proceed_inv (ht : s.tasks t=some k) : Inv (s.proceed t k) := by
  have hbound:=h.bound
  cases k with
  | start m strategy =>
    simp only [proceed]
    split
    · exact h.rest (by simp [ht]) rfl (by simp) (by simp)
    · split
      · exact h.rest (by simp [ht]) rfl (by simp) (by simp)
      · exact h.rest (by simp [ht]) rfl (by simp) (by simp)
  | reserve m =>
    simp only [proceed]
    split
    · exact h.rest (by simp [ht]) rfl (by simp) (by simp)
    · split
      · rename_i hroom
        have hlt:=(hasRoom_iff s).mp hroom
        refine h.turn (k := .permit m) rfl rfl id (.inl rfl) (fun _ _ hu => List.mem_cons_of_mem _ hu) .inl h.disconnected
          h.balanced (h.fresh (by simp [ht])) (.inl rfl) ?_ (by simp [SpscStage.holds]) (fun _ _ => List.mem_cons_self ..)
          (by simp [SpscStage.holds]) (by simp)
        change s.queue.length+(s.permits.length+1) ≤ s.capacity
        omega
      · exact h
  | permit m =>
    simp only [proceed]
    split
    · exact h
    · rename_i hfree
      exact commit_inv h ht (by simpa using hfree)
  | lock m strategy =>
    simp only [proceed]
    split
    · exact h
    · rename_i hfree
      exact attempt_inv h ht (by simpa using hfree)
  | evict m => exact evict_inv h ht
  | retry m evicted => exact retry_inv h ht
  | closing =>
    have hclosed:=h.closing t ht
    simp only [proceed]
    split
    · exact h
    · rename_i hfree
      have hnone : s.receiver=none := by simpa using hfree
      refine h.turn (k := .closed) rfl rfl id (.inl rfl) (fun _ _ hu => hu) (fun _ => .inr ⟨hnone,hclosed⟩) rfl
        h.balanced.dispose (h.fresh (by simp [ht])) (.inl rfl) ?_ (by simp [SpscStage.holds]) (by simp)
        (by simp [SpscStage.holds]) (by simp)
      change 0+s.permits.length ≤ s.capacity
      omega
  | ended | closed => exact h

theorem pop_inv : Inv {s with queue:=s.queue.tail,ledger:=s.ledger.deliver s.queue.head?} := by
  have hbound:=h.bound
  refine ⟨h.balanced.deliver,h.calls,h.ended,h.held,h.positive,?_,h.reserved,h.over,h.disconnected,h.closing⟩
  change s.queue.tail.length+s.permits.length ≤ s.capacity
  rw [List.length_tail]
  omega

theorem sealUp_inv : Inv {s with isClosed:=true} :=
  ⟨h.balanced,h.calls,h.ended,h.held,h.positive,h.bound,h.reserved,fun hret => ⟨rfl,(h.over hret).2⟩,h.disconnected,
    fun _ _ => rfl⟩

theorem step_inv (a : Act β) : Inv (s.step a) := by
  cases a with
  | push t m strategy =>
    simp only [step]
    split
    · rename_i hnone
      exact h.rest (by simp [hnone]) rfl (by simp) (by simp)
    · exact h
  | close t =>
    simp only [step]
    split
    · rename_i hnone
      exact (sealUp_inv h).pass rfl rfl id (.inl rfl) (by simp [hnone]) (by simp [SpscStage.holds]) (by simp)
        (by simp [SpscStage.holds]) (fun _ => rfl)
    · exact h
  | proceed t =>
    simp only [step]
    split
    · rename_i ht
      exact proceed_inv h ht
    · exact h
  | wake t =>
    simp only [step]
    split
    · rename_i ht
      split
      · exact h.rest (by simp [ht]) rfl (by simp) (by simp)
      · exact h
    · exact h
  | pop =>
    simp only [step]
    split
    · exact h
    · exact pop_inv h
  | sealUp => exact sealUp_inv h

theorem run_inv (actions : List (Act β)) : Inv (s.run actions) := by
  induction actions generalizing s with
  | nil => exact h
  | cons a actions ih => exact ih (step_inv h a)

theorem step_returned (hret : s.ledger.returned=true) (a : Act β) :
    (s.step a).ledger.returned=true ∧ (s.step a).ledger.admitted=s.ledger.admitted := by
  obtain ⟨hclosed,hquiet⟩:=h.over hret
  cases a with
  | push | close | pop =>
    simp only [step]
    split
    · exact ⟨hret,rfl⟩
    · exact ⟨hret,rfl⟩
  | proceed t =>
    simp only [step]
    split
    · rename_i k ht
      cases k with
      | start m strategy =>
        simp only [proceed,hclosed,if_true]
        exact ⟨hret,rfl⟩
      | reserve m =>
        simp only [proceed]
        split
        · exact ⟨hret,rfl⟩
        · split
          · exact ⟨hret,rfl⟩
          · exact ⟨hret,rfl⟩
      | permit m =>
        simp only [proceed,commit,hclosed,if_true]
        split
        · exact ⟨hret,rfl⟩
        · exact ⟨hret,rfl⟩
      | lock m strategy =>
        simp only [proceed,attempt,hclosed,if_true]
        split
        · exact ⟨hret,rfl⟩
        · exact ⟨hret,rfl⟩
      | evict m | retry m evicted => simpa [SpscStage.holds] using hquiet t _ ht
      | closing =>
        simp only [proceed]
        split
        · exact ⟨hret,rfl⟩
        · exact ⟨rfl,rfl⟩
      | ended | closed => exact ⟨hret,rfl⟩
    · exact ⟨hret,rfl⟩
  | wake t =>
    simp only [step]
    split
    · split
      · exact ⟨hret,rfl⟩
      · exact ⟨hret,rfl⟩
    · exact ⟨hret,rfl⟩
  | sealUp => exact ⟨hret,rfl⟩

end

/-- A push has evicted a message and has not sent its own yet. -/
def evicting (s : SpscMailbox β) : Bool :=
  match s.receiver.bind s.tasks with
  | some (.retry _ (some _)) => true
  | _ => false

def grants (s : SpscMailbox β) : Act β → Bool
  | .proceed t =>
    match s.tasks t with
    | some (.reserve _) => !s.disconnected&&s.hasRoom
    | _ => false
  | _ => false

/-- No waiting push is given a slot between an eviction and the send after it. -/
def Calm (s : SpscMailbox β) : List (Act β) → Prop
  | [] => True
  | a::actions => (s.evicting=true → s.grants a=false) ∧ (s.step a).Calm actions

structure Roomy (s : SpscMailbox β) : Prop where
  room : ∀ t m e, s.tasks t=some (.retry m (some e)) → s.queue.length+s.permits.length<s.capacity
  lost : s.ledger.lost=[]

theorem Roomy.turn (h : Roomy s) (htasks : s'.tasks=update s.tasks t (some k))
    (hcapacity : s'.capacity=s.capacity) (hused : s'.queue.length+s'.permits.length ≤ s.queue.length+s.permits.length ∨
    ∀ u, u≠t → ∀ m e, s.tasks u≠some (.retry m (some e))) (hown : ∀ m e, k=.retry m (some e) →
    s'.queue.length+s'.permits.length<s.capacity) (hlost : s'.ledger.lost=[]) : Roomy s' := by
  refine ⟨fun u m e hu => ?_,hlost⟩
  rw [hcapacity]
  rw [htasks] at hu
  by_cases hut : u=t
  · subst hut
    rw [Function.update_self] at hu
    exact hown m e (Option.some.inj hu)
  · rw [update_of_ne hut] at hu
    cases hused with
    | inl hle => exact Nat.lt_of_le_of_lt hle (h.room u m e hu)
    | inr hnone => exact absurd hu (hnone u hut m e)

theorem Roomy.move (h : Roomy s) (k : SpscStage β) (hk : ∀ m e, k ≠ .retry m (some e)) : Roomy (s.setTask t k) :=
  h.turn (k := k) rfl rfl (Or.inl (Nat.le_refl _)) (fun m e hc => absurd hc (hk m e)) h.lost

theorem Inv.no_retry (h : Inv s) (hlock : s.receiver=none ∨ s.receiver=some t) (u : ℕ) (hu : u≠t) (m e : β) :
    s.tasks u≠some (.retry m (some e)) := by
  intro hc
  have hnone:=h.alone hlock hu hc
  simp [SpscStage.holds] at hnone

theorem Roomy.sent (h : Roomy s) (hinv : Inv s) {permits : List ℕ} {lock : Option ℕ}
    (hlock : s.receiver=none ∨ s.receiver=some t) :
    Roomy (({s with permits:=permits,receiver:=lock}).sent t m) :=
  h.turn (k := .ended .ok) rfl rfl (.inr (hinv.no_retry hlock)) (by simp) h.lost

structure Shows (t : ℕ) (s : SpscMailbox β) (q : Fifo β) : Prop where
  queue : s.queue=q.held
  capacity : s.capacity=q.capacity
  closed : s.isClosed=q.closed
  free : s.receiver=none
  permits : s.permits=[]
  fresh : ∀ u≥t, s.tasks u=none
  inv : Inv s

theorem run_push (hnone : s.tasks t=none) (hfree : s.receiver=none) (hpermits : s.permits=[]) (hinv : Inv s) (m : β)
    (strategy : BackpressureStrategy) :
    let q : Fifo β := ⟨s.queue,s.capacity,s.isClosed⟩
    let s':=s.run (.push t m strategy::List.replicate 5 (.proceed t))
    (s'.queue,s'.capacity,s'.isClosed)=((q.push m strategy).1.held,(q.push m strategy).1.capacity,(q.push m strategy).1.closed) ∧
      (s'.receiver,s'.permits)=(none,[]) ∧ s'.result t=some (q.push m strategy).2 ∧
      ∀ u, u≠t → s'.tasks u=s.tasks u := by
  have hpositive:=hinv.positive
  have hbound:=hinv.bound
  rw [hpermits,List.length_nil,Nat.add_zero] at hbound
  intro q s'
  cases hclosed : s.isClosed with
  | true =>
    simp [s',q,run,List.replicate,step,proceed,setTask,hnone,hclosed,Fifo.push,result,hfree,hpermits]
    intro u hu
    simp [update_of_ne hu]
  | false =>
    have hconnected : s.disconnected=false := by
      rw [hinv.disconnected,← not_eq_true]
      intro hret
      simp [(hinv.over hret).1] at hclosed
    by_cases hroom : s.queue.length<s.capacity
    · cases strategy with
      | block =>
        simp [s',q,run,List.replicate,step,proceed,setTask,hnone,hclosed,Fifo.push,result,hfree,hroom,hconnected,hasRoom,
          hpermits,commit,sent]
        intro u hu
        simp [update_of_ne hu]
      | dropNewest | error | dropOldest =>
        simp [s',q,run,List.replicate,step,proceed,setTask,hnone,hclosed,Fifo.push,result,hfree,hroom,hconnected,hasRoom,
          hpermits,attempt,sent]
        intro u hu
        simp [update_of_ne hu]
    · have hshort : s.queue.length-1<s.capacity := by omega
      cases strategy with
      | block =>
        simp [s',q,run,List.replicate,step,proceed,setTask,hnone,hclosed,Fifo.push,result,hfree,hroom,hconnected,hasRoom,hpermits]
        intro u hu
        simp [update_of_ne hu]
      | dropNewest | error =>
        simp [s',q,run,List.replicate,step,proceed,setTask,hnone,hclosed,Fifo.push,result,hfree,hroom,hconnected,hasRoom,
          hpermits,attempt]
        intro u hu
        simp [update_of_ne hu]
      | dropOldest =>
        simp [s',q,run,List.replicate,step,proceed,setTask,hnone,hclosed,Fifo.push,result,hfree,hroom,hconnected,hasRoom,
          hpermits,attempt,retry,sent,hshort]
        intro u hu
        simp [update_of_ne hu]

theorem run_close (hnone : s.tasks t=none) (hfree : s.receiver=none) :
    let s':=s.run (.close t::List.replicate 5 (.proceed t))
    (s'.queue,s'.capacity,s'.isClosed)=([],s.capacity,true) ∧ (s'.receiver,s'.permits)=(none,s.permits) ∧
      ∀ u, u≠t → s'.tasks u=s.tasks u := by
  intro s'
  simp [s',run,List.replicate,step,proceed,setTask,hnone,hfree]
  intro u hu
  simp [update_of_ne hu]

theorem Shows.later {q : Fifo β} (h : Shows t s q) {q' : Fifo β}
    (hsame : (s'.queue,s'.capacity,s'.isClosed)=(q'.held,q'.capacity,q'.closed))
    (hfree : (s'.receiver,s'.permits)=(none,[])) (hother : ∀ u, u≠t → s'.tasks u=s.tasks u) (hinv : Inv s') :
    Shows (t+1) s' q' := by
  obtain ⟨hqueue,hrest⟩:=Prod.mk.inj hsame
  obtain ⟨hcapacity,hclosed⟩:=Prod.mk.inj hrest
  obtain ⟨hreceiver,hpermits⟩:=Prod.mk.inj hfree
  refine ⟨hqueue,hcapacity,hclosed,hreceiver,hpermits,fun u hu => ?_,hinv⟩
  rw [hother u (by omega)]
  exact h.fresh u (by omega)

theorem follows : (implementation β).Follows Shows where
  new := fun capacity => ⟨rfl,rfl,rfl,rfl,rfl,fun _ _ => rfl,new_inv capacity⟩
  held := fun h => h.queue
  call := by
    intro t s q c h _
    have hq : (⟨s.queue,s.capacity,s.isClosed⟩ : Fifo β)=q := by
      cases q
      simp [h.queue,h.capacity,h.closed]
    have hnone:=h.fresh t (Nat.le_refl t)
    cases c with
    | push m strategy =>
      obtain ⟨hsame,hfree,hresult,hother⟩:=run_push hnone h.free h.permits h.inv m strategy
      rw [hq] at hsame hresult
      exact ⟨h.later hsame hfree hother (run_inv h.inv _),congrArg Answer.pushed hresult⟩
    | pop =>
      have hstep : s.step .pop={s with queue:=s.queue.tail,ledger:=s.ledger.deliver s.queue.head?} := by
        simp [step,h.free]
      refine ⟨?_,?_⟩
      · change Shows (t+1) (s.step .pop) _
        rw [hstep]
        refine h.later ?_ ?_ (fun _ _ => rfl) (pop_inv h.inv)
        · change (s.queue.tail,s.capacity,s.isClosed)=(q.held.tail,q.capacity,q.closed)
          rw [h.queue,h.capacity,h.closed]
        · change (s.receiver,s.permits)=_
          rw [h.free,h.permits]
      · change Answer.popped s.queue.head? = .popped q.held.head?
        rw [h.queue]
    | sealUp =>
      refine ⟨h.later ?_ ?_ (fun _ _ => rfl) (sealUp_inv h.inv),rfl⟩
      · change (s.queue,s.capacity,true)=(q.held,q.capacity,true)
        rw [h.queue,h.capacity]
      · change (s.receiver,s.permits)=_
        rw [h.free,h.permits]
    | close =>
      obtain ⟨hsame,hfree,hother⟩:=run_close hnone h.free
      rw [h.capacity] at hsame
      rw [h.permits] at hfree
      exact ⟨h.later hsame hfree hother (run_inv h.inv _),rfl⟩

end SpscMailbox
end Parrot.Mailbox
