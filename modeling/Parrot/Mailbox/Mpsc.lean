import Mathlib.Data.List.Basic

/-! # The two-lane mailbox (`thread/mailbox/mpsc.rs:128-373`)

A bounded channel for normal items and a deque for urgent ones share one capacity. -/

namespace Parrot.Mailbox

/- `ask` carries the priority of its options; a boxed envelope among the plain messages
is recognised by `downcast_ref`. -/
inductive MailboxItem (α : Type) where
  | ask (priority : ℕ) (payload : α)
  | plain (envelope : Option ℕ) (payload : α)
  deriving DecidableEq

inductive BackpressureStrategy where
  | block
  | error
  | dropOldest
  | dropNewest
  deriving DecidableEq

inductive MailboxError where
  | closed
  | full (capacity : ℕ)
  | dropped (capacity : ℕ)
  deriving DecidableEq

/-- What a pass through the gate tells its producer; `waiting` goes round the loop again
when there is room or the mailbox is closed. -/
inductive PushResult where
  | ok
  | err (e : MailboxError)
  | waiting
  deriving DecidableEq

variable {α : Type}

def MailboxItem.isHigh : MailboxItem α → Bool
  | .ask priority _ => decide (priority≥70)
  | .plain envelope _ => envelope.any fun priority => decide (priority≥70)

/-- `receiver` is the content of the channel while it has its receiver. -/
structure MpscMailbox (α : Type) where
  receiver : Option (List (MailboxItem α))
  highLane : List (UInt64 × MailboxItem α)
  normalRemoved : UInt64
  isClosed : Bool
  capacity : ℕ

namespace MpscMailbox

def new (capacity : UInt64) : MpscMailbox α := ⟨some [],[],0,false,max capacity.toNat 1⟩

variable (m : MpscMailbox α)

def normalLen : ℕ := (m.receiver.map List.length).getD 0

def popNormal : MpscMailbox α × Option (MailboxItem α) :=
  match m.receiver with
  | some (item::rest) => ({m with receiver:=some rest,normalRemoved:=m.normalRemoved+1},some item)
  | _ => (m,none)

variable (item : MailboxItem α)

/- `flume::Sender::try_send` on the bounded channel. -/
def trySend (strategy : BackpressureStrategy) :
    MpscMailbox α × PushResult :=
  match m.receiver with
  | none => (m,.err .closed)
  | some queue =>
    if queue.length < m.capacity then ({m with receiver:=some (queue++[item])},.ok)
    else if strategy=.block then (m,.waiting)
    else (m,.err (.full m.capacity))

def insert (strategy : BackpressureStrategy) (high : Bool) :
    MpscMailbox α × PushResult :=
  if high then
    let frontier:=m.normalRemoved+UInt64.ofNat m.normalLen
    ({m with highLane:=m.highLane++[(frontier,item)]},.ok)
  else m.trySend item strategy

def highIsOldest : Bool :=
  m.highLane.head?.any fun entry => entry.1==m.normalRemoved

/- Delivery priority must not redefine "oldest". -/
def evictOldest : MpscMailbox α × Option (MailboxItem α) :=
  if m.highIsOldest then ({m with highLane:=m.highLane.tail},m.highLane.head?.map Prod.snd) else m.popNormal

def enqueue (strategy : BackpressureStrategy) (high : Bool) :
    MpscMailbox α × PushResult × Option (MailboxItem α) :=
  if m.isClosed then (m,.err .closed,none)
  else if m.normalLen+m.highLane.length≥m.capacity then
    match strategy with
    | .dropNewest => (m,.err (.dropped m.capacity),none)
    | .error => (m,.err (.full m.capacity),none)
    | .block => (m,.waiting,none)
    | .dropOldest =>
      let (m,evicted):=m.evictOldest
      let (m,result):=m.insert item .dropOldest high
      (m,result,evicted)
  else
    let (m,result):=m.insert item strategy high
    (m,result,none)

def pushItem (strategy : BackpressureStrategy) :
    MpscMailbox α × PushResult × Option (MailboxItem α) := m.enqueue item strategy item.isHigh

def pushWithPriority (envelope : Option ℕ) (payload : α) (strategy : BackpressureStrategy)
    (high : Bool) : MpscMailbox α × PushResult × Option (MailboxItem α) :=
  m.enqueue (.plain envelope payload) strategy high

def popItem : MpscMailbox α × Option (MailboxItem α) :=
  match m.highLane with
  | (_,item)::rest => ({m with highLane:=rest},some item)
  | [] => m.popNormal

def sealUp : MpscMailbox α := {m with isClosed:=true}

/-- The gate section of `close`, with what it takes out and disposes of afterwards. -/
def take : MpscMailbox α × List (MailboxItem α) :=
  ({m with receiver:=none,highLane:=[]},m.receiver.getD []++m.highLane.map Prod.snd)

end MpscMailbox

/- A pass through a gate, or a store. `close` seals and is then at its gate, which `take`
passes. -/
inductive Op (α : Type) where
  | pushItem (item : MailboxItem α) (strategy : BackpressureStrategy)
  | pushWithPriority (envelope : Option ℕ) (payload : α) (strategy : BackpressureStrategy) (high : Bool)
  | popItem
  | sealUp
  | close
  | take

inductive Outcome (α : Type) where
  | pushed (result : PushResult) (evicted : Option (MailboxItem α))
  | popped (item : Option (MailboxItem α))
  | stored
  | disposed (items : List (MailboxItem α))
  deriving DecidableEq

/-- A mailbox and the number of `close` calls at the gate. -/
structure Mailroom (α : Type) where
  mailbox : MpscMailbox α
  closers : ℕ

namespace Mailroom

def start (capacity : UInt64) : Mailroom α := ⟨.new capacity,0⟩

def step (s : Mailroom α) : Op α → Mailroom α × Outcome α
  | .pushItem item strategy =>
    let (mailbox,result,evicted):=s.mailbox.pushItem item strategy
    ({s with mailbox},.pushed result evicted)
  | .pushWithPriority envelope payload strategy high =>
    let (mailbox,result,evicted):=s.mailbox.pushWithPriority envelope payload strategy high
    ({s with mailbox},.pushed result evicted)
  | .popItem =>
    let (mailbox,item):=s.mailbox.popItem
    ({s with mailbox},.popped item)
  | .sealUp => ({s with mailbox:=s.mailbox.sealUp},.stored)
  | .close => (⟨s.mailbox.sealUp,s.closers+1⟩,.stored)
  | .take =>
    if s.closers=0 then (s,.stored)
    else
      let (mailbox,items):=s.mailbox.take
      (⟨mailbox,s.closers-1⟩,.disposed items)

def run (s : Mailroom α) : List (Op α) → Mailroom α × List (Outcome α)
  | [] => (s,[])
  | op::ops =>
    let (s,outcome):=s.step op
    let (s,outcomes):=s.run ops
    (s,outcome::outcomes)

end Mailroom
end Parrot.Mailbox
