import Parrot.Mailbox.Ring
import Parrot.Mailbox.Spsc

/-! # Three mailboxes, one queue (`thread/mailbox`)

Calls of the two-lane mailbox go round its gate; with messages of normal priority its urgent
lane stays empty. -/

namespace Parrot.Mailbox
open Option (map_none map_some getD_some)
open Function (update_of_ne update_self)

variable {β : Type}

/- `into_boxed_message`. -/
def MailboxItem.intoBoxedMessage : MailboxItem β → β
  | .ask _ payload | .plain _ payload => payload

/-- Where a call is in `enqueue` or `close`. -/
inductive MpscStage (β : Type) where
  | gate (m : β) (strategy : BackpressureStrategy)
  | waiting (m : β)
  | ended (result : PushResult)
  | closing
  | closed

structure MpscCalls (β : Type) where
  mailbox : MpscMailbox β
  tasks : ℕ → Option (MpscStage β)
  ledger : Ledger β

namespace MpscCalls

def new (capacity : UInt64) : MpscCalls β := ⟨.new capacity,fun _ => none,.new⟩

def setTask (s : MpscCalls β) (t : ℕ) (stage : MpscStage β) : MpscCalls β :=
  {s with tasks:=Function.update s.tasks t (some stage)}

def queue (s : MpscCalls β) : List β :=
  (s.mailbox.receiver.getD []).map MailboxItem.intoBoxedMessage++
    s.mailbox.highLane.map fun entry => entry.2.intoBoxedMessage

/-- One pass through the gate; `envelope` is the priority of a message that is an envelope. -/
def pass (envelope : β → Option ℕ) (s : MpscCalls β) (t : ℕ) (m : β) (strategy : BackpressureStrategy) : MpscCalls β :=
  let (mailbox,result,evicted):=s.mailbox.pushItem (.plain (envelope m) m) strategy
  let evicted:=evicted.map MailboxItem.intoBoxedMessage
  let ledger:=s.ledger.evict evicted
  match result with
  | .ok => ({s with mailbox,ledger:=ledger.admits t m}).setTask t (.ended .ok)
  | .err e => ({s with mailbox,ledger:=ledger.giveUp t evicted}).setTask t (.ended (.err e))
  | .waiting => ({s with mailbox, ledger}).setTask t (.waiting m)

def proceed (envelope : β → Option ℕ) (s : MpscCalls β) (t : ℕ) : MpscStage β → MpscCalls β
  | .gate m strategy => s.pass envelope t m strategy
  | .closing =>
    let (mailbox,items):=s.mailbox.take
    ({s with
      mailbox
      ledger := {s.ledger.dispose (items.map MailboxItem.intoBoxedMessage) with returned:=true}}).setTask t .closed
  | .waiting _ | .ended _ | .closed => s

def step (envelope : β → Option ℕ) (s : MpscCalls β) : Act β → MpscCalls β
  | .push t m strategy =>
    match s.tasks t with
    | none => s.setTask t (.gate m strategy)
    | some _ => s
  | .close t =>
    match s.tasks t with
    | none => ({s with mailbox:=s.mailbox.sealUp}).setTask t .closing
    | some _ => s
  | .proceed t =>
    match s.tasks t with
    | some stage => s.proceed envelope t stage
    | none => s
  | .wake t =>
    match s.tasks t with
    | some (.waiting m) => s.setTask t (.gate m .block)
    | _ => s
  | .pop =>
    {s with
      mailbox := s.mailbox.popItem.1
      ledger := s.ledger.deliver (s.mailbox.popItem.2.map MailboxItem.intoBoxedMessage)}
  | .sealUp => {s with mailbox:=s.mailbox.sealUp}

def result (s : MpscCalls β) (t : ℕ) : Option PushResult :=
  match s.tasks t with
  | some (.ended result) => some result
  | some (.waiting _) => some .waiting
  | _ => none

def implementation (envelope : β → Option ℕ) : Implementation β := ⟨MpscCalls β,new,step envelope,queue,result,ledger⟩

def run (envelope : β → Option ℕ) (s : MpscCalls β) (actions : List (Act β)) : MpscCalls β :=
  actions.foldl (step envelope) s

inductive Passes (m : MpscMailbox β) (item : MailboxItem β) (strategy : BackpressureStrategy) :
    MpscMailbox β × PushResult × Option (MailboxItem β) → Prop
  | closed : m.isClosed=true → Passes m item strategy (m,.err .closed,none)
  | admitted (queue) : m.isClosed=false → m.receiver=some queue → queue.length < m.capacity →
      Passes m item strategy ({m with receiver:=some (queue++[item])},.ok,none)
  | dropped (queue) : m.isClosed=false → m.receiver=some queue → m.capacity≤queue.length → strategy=.dropNewest →
      Passes m item strategy (m,.err (.dropped m.capacity),none)
  | full (queue) : m.isClosed=false → m.receiver=some queue → m.capacity≤queue.length → strategy=.error →
      Passes m item strategy (m,.err (.full m.capacity),none)
  | waits (queue) : m.isClosed=false → m.receiver=some queue → m.capacity≤queue.length → strategy=.block →
      Passes m item strategy (m,.waiting,none)
  | replaced (oldest rest) : m.isClosed=false → m.receiver=some (oldest::rest) →
      m.capacity≤(oldest::rest).length → strategy=.dropOldest →
      Passes m item strategy ({m with receiver:=some (rest++[item]),normalRemoved:=m.normalRemoved+1},.ok,some oldest)

variable {m : MpscMailbox β}

theorem pushItem_passes {item : MailboxItem β} (strategy : BackpressureStrategy) (hnormal : item.isHigh=false)
    (hhigh : m.highLane=[]) (hpositive : 0 < m.capacity) (hbound : m.normalLen ≤ m.capacity)
    (htaken : m.receiver=none → m.isClosed=true) : Passes m item strategy (m.pushItem item strategy) := by
  unfold MpscMailbox.pushItem MpscMailbox.enqueue
  rw [hnormal,hhigh,List.length_nil,Nat.add_zero]
  cases hclosed : m.isClosed with
  | true => exact .closed hclosed
  | false =>
    cases hreceiver : m.receiver with
    | none => simp [htaken hreceiver] at hclosed
    | some queue =>
      have hlen : m.normalLen=queue.length := by simp [MpscMailbox.normalLen,hreceiver]
      rw [hlen] at hbound ⊢
      by_cases hfull : queue.length≥m.capacity
      · rw [if_neg (by simp),if_pos hfull]
        cases strategy with
        | dropNewest => exact .dropped queue hclosed hreceiver hfull rfl
        | error => exact .full queue hclosed hreceiver hfull rfl
        | block => exact .waits queue hclosed hreceiver hfull rfl
        | dropOldest =>
          cases queue with
          | nil =>
            simp only [List.length_nil] at hfull
            omega
          | cons oldest rest =>
            have hshort : rest.length < m.capacity := by
              simp only [List.length_cons] at hbound
              omega
            have hlater : Passes m item .dropOldest _ := .replaced oldest rest hclosed hreceiver hfull rfl
            simpa [MpscMailbox.evictOldest,MpscMailbox.highIsOldest,hhigh,MpscMailbox.popNormal,hreceiver,MpscMailbox.insert,
              MpscMailbox.trySend,hshort] using hlater
      · have hroom : queue.length < m.capacity := by omega
        rw [if_neg (by simp),if_neg hfull]
        have hlater : Passes m item strategy _ := .admitted queue hclosed hreceiver hroom
        simpa [MpscMailbox.insert,MpscMailbox.trySend,hreceiver,hroom] using hlater

structure Inv (s : MpscCalls β) : Prop where
  balanced : s.ledger.Balanced s.queue
  calls : s.ledger.calls.Nodup
  ended : ∀ t∈s.ledger.calls, s.tasks t=some (.ended .ok)
  high : s.mailbox.highLane=[]
  positive : 0<s.mailbox.capacity
  bound : s.mailbox.normalLen ≤ s.mailbox.capacity
  taken : s.mailbox.receiver=none → s.mailbox.isClosed=true
  «over» : s.ledger.returned=true → s.mailbox.isClosed=true
  closing : ∀ t, s.tasks t=some .closing → s.mailbox.isClosed=true
  lost : s.ledger.lost=[]

variable {s s' : MpscCalls β} {t : ℕ} {k : MpscStage β} {envelope : β → Option ℕ}

theorem new_inv (capacity : UInt64) : Inv (new capacity : MpscCalls β) where
  balanced := Ledger.new_balanced
  calls := List.nodup_nil
  ended := fun t h => by simp [new,Ledger.calls,Ledger.new] at h
  high := rfl
  positive := Nat.lt_of_lt_of_le Nat.zero_lt_one (Nat.le_max_right _ _)
  bound := Nat.zero_le _
  taken := fun h => by simp [new,MpscMailbox.new] at h
  «over» := fun h => by simp [new,Ledger.new] at h
  closing := fun t h => by simp [new] at h
  lost := rfl

theorem Inv.fresh (h : Inv s) (ht : s.tasks t≠some (.ended .ok)) : t∉s.ledger.calls :=
  fun hmem => ht (h.ended t hmem)

theorem Inv.turn (h : Inv s) (htasks : s'.tasks=Function.update s.tasks t (some k)) (hbalanced : s'.ledger.Balanced s'.queue)
    (hfresh : s.tasks t≠some (.ended .ok))
    (hcalls : s'.ledger.calls=s.ledger.calls ∨ s'.ledger.calls=s.ledger.calls++[t] ∧ k=.ended .ok)
    (hhigh : s'.mailbox.highLane=[]) (hcapacity : s'.mailbox.capacity=s.mailbox.capacity)
    (hbound : s'.mailbox.normalLen ≤ s.mailbox.capacity) (hclosed : s.mailbox.isClosed=true → s'.mailbox.isClosed=true)
    (htaken : s'.mailbox.receiver=none → s'.mailbox.isClosed=true)
    (hreturned : s'.ledger.returned=true → s.ledger.returned=true ∨ s'.mailbox.isClosed=true)
    (hclosing : k=.closing → s'.mailbox.isClosed=true) (hlost : s'.ledger.lost=[]) : Inv s' := by
  obtain ⟨hnodup,hended⟩:=calls_update h.calls h.ended htasks (h.fresh hfresh) hcalls
  refine ⟨hbalanced,hnodup,hended,hhigh,hcapacity ▸ h.positive,hcapacity ▸ hbound,htaken,fun hret => ?_,fun u hu => ?_,hlost⟩
  · cases hreturned hret with
    | inl hold => exact hclosed (h.over hold)
    | inr hdone => exact hdone
  · exact forall_update (P := fun _ stage => stage=.closing → s'.mailbox.isClosed=true) htasks
      (fun u _ stage hstage hk => hclosed (h.closing u (hk ▸ hstage))) hclosing hu rfl

theorem Inv.move (h : Inv s) (hfresh : s.tasks t≠some (.ended .ok)) (hk : k ≠ .closing) : Inv (s.setTask t k) :=
  h.turn (k := k) rfl h.balanced hfresh (.inl rfl) h.high rfl h.bound id h.taken .inl (fun hc => absurd hc hk) h.lost

theorem queue_normal (h : s.mailbox.highLane=[]) {queue : List (MailboxItem β)} (hreceiver : s.mailbox.receiver=some queue) :
    s.queue=queue.map MailboxItem.intoBoxedMessage := by
  simp [MpscCalls.queue,h,hreceiver]

theorem ledger_evict_none (l : Ledger β) : l.evict none=l := by
  simp [Ledger.evict]

theorem pass_inv (hnormal : ∀ m : β, (MailboxItem.plain (envelope m) m).isHigh=false) (h : Inv s) {m : β}
    {strategy : BackpressureStrategy} (ht : s.tasks t=some (.gate m strategy)) : Inv (s.pass envelope t m strategy) := by
  have hfresh : s.tasks t≠some (.ended .ok) := by simp [ht]
  have hbound:=h.bound
  have hpasses:=pushItem_passes strategy (hnormal m) h.high h.positive h.bound h.taken
  unfold pass
  generalize s.mailbox.pushItem (.plain (envelope m) m) strategy=out at hpasses
  cases hpasses with
  | closed _ | dropped _ _ _ _ _ | full _ _ _ _ _ | waits _ _ _ _ _ =>
    simp only [map_none,ledger_evict_none]
    exact h.move hfresh (by simp)
  | admitted queue hopen hreceiver hroom =>
    simp only [map_none,ledger_evict_none]
    refine h.turn (k := .ended .ok) rfl ?_ hfresh (.inr ⟨?_,rfl⟩) h.high rfl ?_ id (by simp [setTask]) .inl (by simp) h.lost
    · have hbalanced:=h.balanced.admits t m
      rw [queue_normal h.high hreceiver] at hbalanced
      simpa [MpscCalls.queue,setTask,h.high,MailboxItem.intoBoxedMessage] using hbalanced
    · simp [setTask,Ledger.calls,Ledger.admits]
    · simp only [setTask,MpscMailbox.normalLen,map_some,getD_some,List.length_append,List.length_singleton]
      omega
  | replaced oldest rest hopen hreceiver hfull _ =>
    simp only [map_some]
    have hlen : rest.length+1 ≤ s.mailbox.capacity := by
      simpa [MpscMailbox.normalLen,hreceiver] using hbound
    refine h.turn (k := .ended .ok) rfl ?_ hfresh (.inr ⟨?_,rfl⟩) h.high rfl ?_ id (by simp [setTask]) .inl (by simp) h.lost
    · have hbalanced:=h.balanced
      rw [queue_normal h.high hreceiver] at hbalanced
      have hnext:=hbalanced.evict.admits t m
      simpa [MpscCalls.queue,setTask,h.high,MailboxItem.intoBoxedMessage] using hnext
    · simp [setTask,Ledger.calls,Ledger.admits,Ledger.evict]
    · simp only [setTask,MpscMailbox.normalLen,map_some,getD_some,List.length_append,List.length_singleton]
      exact hlen

theorem popItem_normal (hhigh : m.highLane=[]) {queue : List (MailboxItem β)} (hreceiver : m.receiver=some queue) :
    m.popItem.1.receiver=some queue.tail ∧ m.popItem.2=queue.head? ∧ m.popItem.1.highLane=[] ∧
    m.popItem.1.capacity=m.capacity ∧ m.popItem.1.isClosed=m.isClosed := by
  cases queue with
  | nil | cons => simp [MpscMailbox.popItem,hhigh,MpscMailbox.popNormal,hreceiver]

theorem popItem_taken (hhigh : m.highLane=[]) (hreceiver : m.receiver=none) : m.popItem=(m,none) := by
  simp [MpscMailbox.popItem,hhigh,MpscMailbox.popNormal,hreceiver]

theorem pop_queue (envelope : β → Option ℕ) (h : Inv s) : (s.step envelope .pop).queue=s.queue.tail ∧
    s.mailbox.popItem.2.map MailboxItem.intoBoxedMessage=s.queue.head? := by
  cases hreceiver : s.mailbox.receiver with
  | none => simp [step,popItem_taken h.high hreceiver,MpscCalls.queue,h.high,hreceiver]
  | some queue =>
    obtain ⟨hrest,hhead,hhigh,-,-⟩:=popItem_normal h.high hreceiver
    simp [step,MpscCalls.queue,hrest,hhead,hhigh,h.high,hreceiver]

theorem pop_inv (envelope : β → Option ℕ) (h : Inv s) : Inv (s.step envelope .pop) := by
  obtain ⟨htail,hhead⟩:=pop_queue envelope h
  have hbalanced : (s.ledger.deliver (s.mailbox.popItem.2.map MailboxItem.intoBoxedMessage)).Balanced
      (s.step envelope .pop).queue := by
    rw [htail,hhead]
    exact h.balanced.deliver
  cases hreceiver : s.mailbox.receiver with
  | none =>
    have hsame:=popItem_taken h.high hreceiver
    have hmailbox : (s.step envelope .pop).mailbox=s.mailbox := by simp [step,hsame]
    refine ⟨hbalanced,h.calls,h.ended,?_,?_,?_,?_,?_,?_,h.lost⟩
    · rw [hmailbox]; exact h.high
    · rw [hmailbox]; exact h.positive
    · rw [hmailbox]; exact h.bound
    · rw [hmailbox]; exact h.taken
    · rw [hmailbox]; exact h.over
    · rw [hmailbox]; exact h.closing
  | some queue =>
    have hbound:=h.bound
    obtain ⟨hrest,-,hhigh,hcapacity,hclosed⟩:=popItem_normal h.high hreceiver
    refine ⟨hbalanced,h.calls,h.ended,hhigh,?_,?_,?_,?_,?_,h.lost⟩
    · simp only [step,hcapacity]
      exact h.positive
    · simp only [step,hcapacity,MpscMailbox.normalLen,hrest,hreceiver,map_some,getD_some,List.length_tail] at hbound ⊢
      omega
    · simp [step,hrest]
    · simp only [step,hclosed]
      exact h.over
    · simp only [step,hclosed]
      exact h.closing

theorem sealUp_inv (h : Inv s) : Inv {s with mailbox:=s.mailbox.sealUp} :=
  ⟨h.balanced,h.calls,h.ended,h.high,h.positive,h.bound,fun _ => rfl,fun _ => rfl,fun _ _ => rfl,h.lost⟩

theorem take_inv (h : Inv s) (ht : s.tasks t=some .closing) : Inv (s.proceed envelope t .closing) := by
  have hclosed:=h.closing t ht
  refine h.turn (k := .closed) rfl ?_ (by simp [ht]) (.inl rfl) rfl rfl (Nat.zero_le _) (fun _ => hclosed) (fun _ => hclosed)
    (fun _ => .inr hclosed) (by simp) h.lost
  have hbalanced:=h.balanced.dispose
  simpa [MpscCalls.queue,proceed,setTask,MpscMailbox.take,h.high,Ledger.dispose,Ledger.Balanced] using hbalanced

section
variable (hnormal : ∀ m : β, (MailboxItem.plain (envelope m) m).isHigh=false)
include hnormal

theorem step_inv (h : Inv s) (a : Act β) : Inv (s.step envelope a) := by
  cases a with
  | push t m strategy =>
    simp only [step]
    split
    · rename_i hnone
      exact h.move (by simp [hnone]) (by simp)
    · exact h
  | close t =>
    simp only [step]
    split
    · rename_i hnone
      have hsealed:=sealUp_inv h
      exact hsealed.turn (k := .closing) rfl hsealed.balanced (by simp [hnone]) (.inl rfl) hsealed.high rfl hsealed.bound
        (fun _ => rfl) (fun _ => rfl) .inl (fun _ => rfl) hsealed.lost
    · exact h
  | proceed t =>
    simp only [step]
    split
    · rename_i k ht
      cases k with
      | gate m strategy => exact pass_inv hnormal h ht
      | closing => exact take_inv h ht
      | waiting | ended | closed => exact h
    · exact h
  | wake t =>
    simp only [step]
    split
    · rename_i ht
      exact h.move (by simp [ht]) (by simp)
    · exact h
  | pop => exact pop_inv envelope h
  | sealUp => exact sealUp_inv h

theorem run_inv (h : Inv s) (actions : List (Act β)) : Inv (s.run envelope actions) := by
  induction actions generalizing s with
  | nil => exact h
  | cons a actions ih => exact ih (step_inv hnormal h a)

end

theorem step_returned (envelope : β → Option ℕ) (h : Inv s) (hret : s.ledger.returned=true) (a : Act β) :
    (s.step envelope a).ledger.returned=true ∧ (s.step envelope a).ledger.admitted=s.ledger.admitted := by
  have hclosed:=h.over hret
  cases a with
  | push | close | wake =>
    simp only [step]
    split
    · exact ⟨hret,rfl⟩
    · exact ⟨hret,rfl⟩
  | proceed t =>
    simp only [step]
    split
    · rename_i k ht
      cases k with
      | gate m strategy =>
        simp only [proceed,pass,MpscMailbox.pushItem,MpscMailbox.enqueue,hclosed,if_true]
        exact ⟨hret,rfl⟩
      | closing => exact ⟨rfl,rfl⟩
      | waiting | ended | closed => exact ⟨hret,rfl⟩
    · exact ⟨hret,rfl⟩
  | pop | sealUp => exact ⟨hret,rfl⟩

structure Shows (t : ℕ) (s : MpscCalls β) (q : Fifo β) : Prop where
  queue : s.queue=q.held
  capacity : s.mailbox.capacity=q.capacity
  closed : s.mailbox.isClosed=q.closed
  fresh : ∀ u≥t, s.tasks u=none
  inv : Inv s

theorem run_over (ht : s.tasks t=some k) (hk : s.proceed envelope t k=s) (n : ℕ) :
    s.run envelope (List.replicate n (.proceed t))=s := by
  have hstep : s.step envelope (.proceed t)=s := by
    simp only [step,ht]
    exact hk
  induction n with
  | zero => rfl
  | succ n ih =>
    rw [List.replicate_succ]
    change (s.step envelope (.proceed t)).run envelope (List.replicate n (.proceed t))=s
    rw [hstep,ih]

section
variable (hnormal : ∀ m : β, (MailboxItem.plain (envelope m) m).isHigh=false)
include hnormal

theorem pass_push (h : Inv s) (t : ℕ) (m : β)
    (strategy : BackpressureStrategy) :
    let q : Fifo β := ⟨s.queue,s.mailbox.capacity,s.mailbox.isClosed⟩
    let s':=s.pass envelope t m strategy
    (s'.queue,s'.mailbox.capacity,s'.mailbox.isClosed) =
        ((q.push m strategy).1.held,(q.push m strategy).1.capacity,(q.push m strategy).1.closed) ∧
      s'.result t=some (q.push m strategy).2 ∧
      (s'.tasks t=some (.waiting m) ∨ ∃ result, s'.tasks t=some (.ended result)) ∧
      ∀ u, u≠t → s'.tasks u=s.tasks u := by
  have hpasses:=pushItem_passes strategy (hnormal m) h.high h.positive h.bound h.taken
  intro q s'
  have hs' : s'=s.pass envelope t m strategy := rfl
  unfold pass at hs'
  generalize s.mailbox.pushItem (.plain (envelope m) m) strategy=out at hpasses hs'
  have hothers : ∀ s₁ : MpscCalls β, s₁.tasks=s.tasks → ∀ stage u, u≠t → (s₁.setTask t stage).tasks u=s.tasks u := by
    intro s₁ hsame stage u hu
    simp [setTask,hsame,update_of_ne hu]
  have hlong : ∀ queue, s.mailbox.receiver=some queue → s.mailbox.capacity≤queue.length →
      ¬s.queue.length<s.mailbox.capacity := by
    intro queue hreceiver hfull
    rw [queue_normal h.high hreceiver,List.length_map]
    omega
  cases hpasses with
  | closed hclosed =>
    have hpush : q.push m strategy=(q,.err .closed) := by simp [q,Fifo.push,hclosed]
    rw [hs',hpush]
    exact ⟨rfl,by simp [setTask,result],.inr ⟨_,update_self ..⟩,hothers _ rfl _⟩
  | dropped queue hopen hreceiver hfull hstrategy =>
    have hpush : q.push m strategy=(q,.err (.dropped s.mailbox.capacity)) := by
      simp [q,Fifo.push,hopen,hlong queue hreceiver hfull,hstrategy]
    rw [hs',hpush]
    exact ⟨rfl,by simp [setTask,result],.inr ⟨_,update_self ..⟩,hothers _ rfl _⟩
  | full queue hopen hreceiver hfull hstrategy =>
    have hpush : q.push m strategy=(q,.err (.full s.mailbox.capacity)) := by
      simp [q,Fifo.push,hopen,hlong queue hreceiver hfull,hstrategy]
    rw [hs',hpush]
    exact ⟨rfl,by simp [setTask,result],.inr ⟨_,update_self ..⟩,hothers _ rfl _⟩
  | waits queue hopen hreceiver hfull hstrategy =>
    have hpush : q.push m strategy=(q,.waiting) := by
      simp [q,Fifo.push,hopen,hlong queue hreceiver hfull,hstrategy]
    rw [hs',hpush]
    exact ⟨rfl,by simp [setTask,result],.inl (update_self ..),hothers _ rfl _⟩
  | admitted queue hopen hreceiver hroom =>
    have hqueue:=queue_normal h.high hreceiver
    have hlen : s.queue.length<s.mailbox.capacity := by
      rw [hqueue,List.length_map]
      exact hroom
    have hpush : q.push m strategy=({q with held:=s.queue++[m]},.ok) := by simp [q,Fifo.push,hopen,hlen]
    rw [hs',hpush,hqueue]
    refine ⟨?_,by simp [setTask,result],.inr ⟨_,update_self ..⟩,hothers _ rfl _⟩
    simp [q,MpscCalls.queue,setTask,h.high,MailboxItem.intoBoxedMessage]
  | replaced oldest rest hopen hreceiver hfull hstrategy =>
    have hqueue:=queue_normal h.high hreceiver
    have hpush : q.push m strategy=({q with held:=s.queue.tail++[m]},.ok) := by
      simp [q,Fifo.push,hopen,hlong _ hreceiver hfull,hstrategy]
    rw [hs',hpush,hqueue]
    refine ⟨?_,by simp [setTask,result],.inr ⟨_,update_self ..⟩,hothers _ rfl _⟩
    simp [q,MpscCalls.queue,setTask,h.high,MailboxItem.intoBoxedMessage]

theorem run_push (h : Inv s)
    (hnone : s.tasks t=none) (m : β) (strategy : BackpressureStrategy) :
    let q : Fifo β := ⟨s.queue,s.mailbox.capacity,s.mailbox.isClosed⟩
    let s':=s.run envelope (.push t m strategy::List.replicate 5 (.proceed t))
    (s'.queue,s'.mailbox.capacity,s'.mailbox.isClosed) =
        ((q.push m strategy).1.held,(q.push m strategy).1.capacity,(q.push m strategy).1.closed) ∧
      s'.result t=some (q.push m strategy).2 ∧ ∀ u, u≠t → s'.tasks u=s.tasks u := by
  intro q s'
  have hgate : (s.setTask t (.gate m strategy)).tasks t=some (.gate m strategy) := update_self ..
  have hinv : Inv (s.setTask t (.gate m strategy)) := h.move (by simp [hnone]) (by simp)
  obtain ⟨hsame,hresult,hend,hother⟩:=pass_push hnormal hinv t m strategy
  have hrun : s'=(s.setTask t (.gate m strategy)).pass envelope t m strategy := by
    have hpush : s.step envelope (.push t m strategy)=s.setTask t (.gate m strategy) := by simp only [step,hnone]
    have hpass : (s.setTask t (.gate m strategy)).step envelope (.proceed t) =
        (s.setTask t (.gate m strategy)).pass envelope t m strategy := by
      simp only [step,hgate]
      rfl
    change ((s.step envelope (.push t m strategy)).step envelope (.proceed t)).run envelope (List.replicate 4 (.proceed t))=_
    rw [hpush,hpass]
    cases hend with
    | inl hwaiting => exact run_over hwaiting rfl 4
    | inr hended =>
      obtain ⟨result,hended⟩:=hended
      exact run_over hended rfl 4
  rw [hrun]
  refine ⟨hsame,hresult,fun u hu => (hother u hu).trans ?_⟩
  exact update_of_ne hu ..

end

theorem run_close (envelope : β → Option ℕ) (hnone : s.tasks t=none) :
    let s':=s.run envelope (.close t::List.replicate 5 (.proceed t))
    (s'.queue,s'.mailbox.capacity,s'.mailbox.isClosed)=([],s.mailbox.capacity,true) ∧
      ∀ u, u≠t → s'.tasks u=s.tasks u := by
  intro s'
  simp [s',run,List.replicate,step,proceed,setTask,hnone,MpscMailbox.take,MpscMailbox.sealUp,MpscCalls.queue]
  intro u hu
  simp [update_of_ne hu]

theorem Shows.later {q : Fifo β} (h : Shows t s q) {q' : Fifo β}
    (hsame : (s'.queue,s'.mailbox.capacity,s'.mailbox.isClosed)=(q'.held,q'.capacity,q'.closed))
    (hother : ∀ u, u≠t → s'.tasks u=s.tasks u) (hinv : Inv s') : Shows (t+1) s' q' := by
  obtain ⟨hqueue,hrest⟩:=Prod.mk.inj hsame
  obtain ⟨hcapacity,hclosed⟩:=Prod.mk.inj hrest
  refine ⟨hqueue,hcapacity,hclosed,fun u hu => ?_,hinv⟩
  rw [hother u (by omega)]
  exact h.fresh u (by omega)

theorem pop_mailbox (s : MpscCalls β) : s.mailbox.popItem.1.capacity=s.mailbox.capacity ∧
    s.mailbox.popItem.1.isClosed=s.mailbox.isClosed := by
  unfold MpscMailbox.popItem MpscMailbox.popNormal
  split
  · exact ⟨rfl,rfl⟩
  · split
    · exact ⟨rfl,rfl⟩
    · exact ⟨rfl,rfl⟩

theorem follows (hnormal : ∀ m : β, (MailboxItem.plain (envelope m) m).isHigh=false) :
    (implementation envelope).Follows Shows where
  new := fun capacity => ⟨rfl,rfl,rfl,fun _ _ => rfl,new_inv capacity⟩
  held := fun h => h.queue
  call := by
    intro t s q c h _
    have hq : (⟨s.queue,s.mailbox.capacity,s.mailbox.isClosed⟩ : Fifo β)=q := by
      cases q
      simp [h.queue,h.capacity,h.closed]
    have hnone:=h.fresh t (Nat.le_refl t)
    cases c with
    | push m strategy =>
      obtain ⟨hsame,hresult,hother⟩:=run_push hnormal h.inv hnone m strategy
      rw [hq] at hsame hresult
      exact ⟨h.later hsame hother (run_inv hnormal h.inv _),congrArg Answer.pushed hresult⟩
    | pop =>
      obtain ⟨htail,hhead⟩:=pop_queue envelope h.inv
      obtain ⟨hcapacity,hclosed⟩:=pop_mailbox s
      refine ⟨h.later ?_ (fun _ _ => rfl) (pop_inv envelope h.inv),?_⟩
      · change ((s.step envelope .pop).queue,s.mailbox.popItem.1.capacity,s.mailbox.popItem.1.isClosed) =
          (q.held.tail,q.capacity,q.closed)
        rw [htail,hcapacity,hclosed,h.queue,h.capacity,h.closed]
      · change Answer.popped s.queue.head? = .popped q.held.head?
        rw [h.queue]
    | sealUp =>
      refine ⟨h.later ?_ (fun _ _ => rfl) (sealUp_inv h.inv),rfl⟩
      change (s.queue,s.mailbox.capacity,true)=(q.held,q.capacity,true)
      rw [h.queue,h.capacity]
    | close =>
      obtain ⟨hsame,hother⟩:=run_close envelope hnone
      rw [h.capacity] at hsame
      exact ⟨h.later hsame hother (run_inv hnormal h.inv _),rfl⟩

end MpscCalls

/-- No message is lost from sight, none comes in twice, and none after a `close` has returned. -/
def Implementation.Keeps (I : Implementation β) (s : I.State) : Prop :=
  (I.ledger s).Balanced (I.held s) ∧ (I.ledger s).calls.Nodup ∧
  ((I.ledger s).returned=true → ∀ more, (I.ledger (I.run s more)).admitted=(I.ledger s).admitted)

end Parrot.Mailbox
