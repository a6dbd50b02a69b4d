import Mathlib.Data.List.MinMax
import Mathlib.Data.Multiset.Basic
import Mathlib.Data.Prod.Lex

/-! # The ready queue (`thread/scheduler/queue.rs:1-293`)

Two lanes share one capacity. -/

namespace Parrot.Scheduler

inductive Lane where
  | high
  | normal
  deriving DecidableEq

structure Admission where
  lane : Lane
  ticket : ℕ
  deriving DecidableEq

/-- The derived order: the better lane, then the older ticket. -/
def Admission.key (a : Admission) : ℕ ×ₗ ℕ := toLex (match a.lane with | .high => 0 | .normal => 1,a.ticket)

structure Entry where
  mailbox : ℕ
  admission : Admission
  deriving DecidableEq

/-- `mailbox` is weak, and the key of the map. -/
structure Registration where
  mailbox : ℕ
  deferred : Option Admission

abbrev Alive := ℕ → Bool

structure QueueState where
  normal : List Entry
  high : List Entry
  registered : List Registration
  deferredCount : ℕ
  nextTicket : ℕ
  closed : Bool

namespace QueueState

def new : QueueState := ⟨[],[],[],0,0,false⟩

variable (s : QueueState)

def len : ℕ := s.normal.length+s.high.length

def admission (lane : Lane) : Admission × QueueState :=
  (⟨lane,s.nextTicket⟩,{s with nextTicket:=s.nextTicket+1})

def append (e : Entry) : QueueState :=
  match e.admission.lane with
  | .high => {s with high:=s.high++[e]}
  | .normal => {s with normal:=s.normal++[e]}

def markers : List Entry :=
  s.registered.filterMap fun r => r.deferred.map fun a => ⟨r.mailbox,a⟩

def oldestDeferred : Option Entry :=
  if s.deferredCount=0 then none else s.markers.argmin fun e => e.admission.key

def contains (id : ℕ) : Bool := s.registered.any fun r => r.mailbox==id

/- The marker of `id` is set or cleared; the other registrations stay. -/
def mark (id : ℕ) (deferred : Option Admission) : QueueState :=
  {s with registered := s.registered.map fun r => if r.mailbox=id then {r with deferred} else r}

def takeDeferred (alive : Alive) (s : QueueState) (id : ℕ) : Option Entry × QueueState :=
  match s.registered.find? fun r => r.mailbox==id with
  | none => (none,s)
  | some r =>
    match r.deferred with
    | none => (none,s)
    | some a =>
      let s:={s.mark id none with deferredCount:=s.deferredCount-1}
      if alive id then (some ⟨id,a⟩,s)
      else (none,{s with registered:=s.registered.filter fun r => r.mailbox != id})

/- Every turn takes one marker, so as many turns as there are markers are enough. -/
def refillLoop (alive : Alive) (capacity : ℕ) : ℕ → QueueState → QueueState
  | 0,s => s
  | turns+1,s =>
    if s.len<capacity then
      match s.oldestDeferred with
      | none => s
      | some e =>
        match s.takeDeferred alive e.mailbox with
        | (some e,s) => refillLoop alive capacity turns (s.append e)
        | (none,s) => refillLoop alive capacity turns s
    else s

def refill (alive : Alive) (capacity : ℕ) (s : QueueState) : QueueState :=
  refillLoop alive capacity s.registered.length s

def pushWithLane (alive : Alive) (capacity : ℕ) (s : QueueState) (mailbox : ℕ) (lane : Lane) : Bool × QueueState :=
  let s:=s.refill alive capacity
  if s.closed ∨ s.len≥capacity then (false,s)
  else
    let (admission,s):=s.admission lane
    (true,s.append ⟨mailbox,admission⟩)

def register (mailbox : ℕ) : Bool × QueueState :=
  if s.closed ∨ s.contains mailbox then (false,s)
  else (true,{s with registered:=s.registered++[⟨mailbox,none⟩]})

def bestLane : Lane → Lane → Lane
  | .normal,.normal => .normal
  | _,_ => .high

/- False where the caller's scheduling ownership is released instead. -/
def enqueueRegistered (alive : Alive) (capacity : ℕ) (s : QueueState) (mailbox : ℕ) (lane : Lane) :
    Bool × QueueState :=
  if s.closed then (false,s)
  else
    match s.registered.find? fun r => r.mailbox==mailbox with
    | none => (false,s)
    | some r =>
      match r.deferred with
      | some deferred => (true,s.mark mailbox (some {deferred with lane:=bestLane deferred.lane lane}))
      | none =>
        let s:=s.refill alive capacity
        let (admission,s):=s.admission lane
        if s.len<capacity then (true,s.append ⟨mailbox,admission⟩)
        else (true,{s.mark mailbox (some admission) with deferredCount:=s.deferredCount+1})

/- True where an admission was removed, whose ownership is then released. -/
def unregister (alive : Alive) (capacity : ℕ) (s : QueueState) (mailbox : ℕ) : Bool × QueueState :=
  let wasDeferred:=(s.registered.find? fun r => r.mailbox==mailbox).any fun r => r.deferred.isSome
  let removed:=(s.normal++s.high).any fun e => e.mailbox==mailbox
  let s:={s with registered:=s.registered.filter fun r => r.mailbox != mailbox}
  let s:=if wasDeferred then {s with deferredCount:=s.deferredCount-1} else s
  let s:={s with normal:=s.normal.filter fun e => e.mailbox != mailbox,high:=s.high.filter fun e => e.mailbox != mailbox}
  (wasDeferred||removed,s.refill alive capacity)

/- The deferred mailboxes follow in the order of the map, which is any. -/
def closeAndTake (alive : Alive) (s : QueueState) : List ℕ × QueueState :=
  let deferred:=(s.registered.filter fun r => r.deferred.isSome&&alive r.mailbox).map Registration.mailbox
  ((s.normal++s.high).map Entry.mailbox++deferred,
    {s with closed:=true,registered:=[],deferredCount:=0,normal:=[],high:=[]})

def front : Option Entry := s.high.head?.or s.normal.head?

def popFront : QueueState :=
  match s.high with
  | _::rest => {s with high:=rest}
  | [] => {s with normal:=s.normal.tail}

/- Every turn that does not return takes a marker. -/
def tryPopLoop (alive : Alive) (capacity : ℕ) : ℕ → QueueState → Option ℕ × QueueState
  | 0,s => (none,s)
  | turns+1,s =>
    let front:=s.front
    let deferred:=s.oldestDeferred.filter fun e => front.all fun f => decide (e.admission.key<f.admission.key)
    match deferred with
    | some e =>
      match s.takeDeferred alive e.mailbox with
      | (none,s) => tryPopLoop alive capacity turns s
      | (some e,s) => (some e.mailbox,s.refill alive capacity)
    | none =>
      match front with
      | none => (none,s)
      | some e => (some e.mailbox,s.popFront.refill alive capacity)

def tryPop (alive : Alive) (capacity : ℕ) (s : QueueState) : Option ℕ × QueueState :=
  tryPopLoop alive capacity (s.registered.length+1) s

end QueueState

/- What the callers of the queue do. `drop` is the loss of the last strong reference to a
mailbox, `create` a new mailbox at an address that is free. -/
inductive QueueOp where
  | register (mailbox : ℕ)
  | pushWithLane (mailbox : ℕ) (lane : Lane)
  | enqueueRegistered (mailbox : ℕ) (lane : Lane)
  | tryPop
  | unregister (mailbox : ℕ)
  | closeAndTake
  | drop (mailbox : ℕ)
  | create (mailbox : ℕ)

inductive QueueOutcome where
  | accepted (ok : Bool)
  | popped (mailbox : Option ℕ)
  | done
  | taken (mailboxes : Multiset ℕ)
  deriving DecidableEq

structure QueueRun where
  state : QueueState
  alive : Alive

namespace QueueRun

def start : QueueRun := ⟨.new,fun _ => true⟩

def residents (r : QueueRun) : List Entry := r.state.high++r.state.normal

def step (capacity : ℕ) (r : QueueRun) : QueueOp → QueueRun × QueueOutcome
  | .register mailbox =>
    let (ok,state):=r.state.register mailbox
    ({r with state},.accepted ok)
  | .pushWithLane mailbox lane =>
    let (ok,state):=r.state.pushWithLane r.alive capacity mailbox lane
    ({r with state},.accepted ok)
  | .enqueueRegistered mailbox lane =>
    let (ok,state):=r.state.enqueueRegistered r.alive capacity mailbox lane
    ({r with state},.accepted ok)
  | .tryPop =>
    let (mailbox,state):=r.state.tryPop r.alive capacity
    ({r with state},.popped mailbox)
  | .unregister mailbox => ({r with state:=(r.state.unregister r.alive capacity mailbox).2},.done)
  | .closeAndTake =>
    let (mailboxes,state):=r.state.closeAndTake r.alive
    ({r with state},.taken mailboxes)
  | .drop mailbox => ({r with alive:=Function.update r.alive mailbox false},.done)
  | .create mailbox => ({r with alive:=Function.update r.alive mailbox true},.done)

/-- A caller holds the mailbox it passes, an entry holds its own, a registration keeps the
address; only the holder of the scheduling ownership enqueues a registered mailbox, which
is then neither resident nor deferred. -/
def Enabled (r : QueueRun) : QueueOp → Prop
  | .register mailbox => r.alive mailbox=true
  | .pushWithLane mailbox _ => r.alive mailbox=true
  | .enqueueRegistered mailbox _ => r.alive mailbox=true ∧
      (r.state.contains mailbox=true → ∀ e∈r.residents++r.state.markers, e.mailbox≠mailbox)
  | .unregister mailbox => r.alive mailbox=true
  | .drop mailbox => ∀ e∈r.residents, e.mailbox≠mailbox
  | .create mailbox => r.alive mailbox=false ∧ r.state.contains mailbox=false
  | _ => True

def AllEnabled (capacity : ℕ) : QueueRun → List QueueOp → Prop
  | _,[] => True
  | r,op::ops => r.Enabled op ∧ ((r.step capacity op).1).AllEnabled capacity ops

def run (capacity : ℕ) (r : QueueRun) : List QueueOp → QueueRun × List QueueOutcome
  | [] => (r,[])
  | op::ops =>
    let (r,outcome):=r.step capacity op
    let (r,outcomes):=r.run capacity ops
    (r,outcome::outcomes)

end QueueRun
end Parrot.Scheduler
