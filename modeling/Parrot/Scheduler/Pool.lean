import Parrot.Lib.Threads
import Parrot.Scheduler.Places

/-! # The shared pool (`thread/scheduler/shared/pool.rs:487-625`, `worker.rs:180-405`)

The threads are the calls to `schedule_now` and `deschedule`, the producers with the hooks they
fire, the jobs of the workers, each with the lease of one mailbox, and the cleanup of a
shutdown. -/

namespace Parrot.Scheduler.SharedPool

structure Mailbox where
  normal : ℕ
  high : ℕ
  scheduleState : ScheduleState
  /-- Every hook of the pool does the same, so it is enough that there is one. -/
  wakeHook : Bool
  hookLocked : Bool
  closed : Bool
  processor : Bool
  failed : Bool
  cancelled : Bool

namespace Mailbox

def new : Mailbox := ⟨0,0,.new,false,false,false,false,false,false⟩

variable (m : Mailbox)

def isEmpty : Bool := m.normal==0&&m.high==0

def hasHighPriorityMessages : Bool := m.high != 0

def push : Lane → Mailbox
  | .high => {m with high:=m.high+1}
  | .normal => {m with normal:=m.normal+1}

def pop : Lane → Option Mailbox
  | .high => if m.high=0 then none else some {m with high:=m.high-1}
  | .normal => if m.normal=0 then none else some {m with normal:=m.normal-1}

/-- Its processor is there, and has neither failed nor been cancelled. -/
def healthy : Bool := m.processor&&!m.failed&&!m.cancelled

end Mailbox

structure State where
  mailboxes : ℕ → Mailbox
  scheduledPaths : ℕ → Option ℕ
  schedulingQueue : QueueState
  isShuttingDown : Bool

namespace State

variable (s : State)

variable (mailbox : ℕ)

def update (m : Mailbox) : State := {s with mailboxes:=Function.update s.mailboxes mailbox m}

def slot : ScheduleState := (s.mailboxes mailbox).scheduleState

def setSlot (slot : ScheduleState) : State :=
  s.update mailbox {s.mailboxes mailbox with scheduleState:=slot}

def forceRelease : State := s.setSlot mailbox (s.slot mailbox).forceRelease

/- The end of a hook gives its lock back; other callers of the queue have none. -/
def unlock (hook : Bool) : State :=
  if hook then s.update mailbox {s.mailboxes mailbox with hookLocked:=false} else s

end State

inductive Thread where
  /- `schedule_now` -/
  | admitted (path mailbox : ℕ)
  | arming (mailbox : ℕ)
  | initial (mailbox : ℕ)
  /- a producer, and the hook it fires -/
  | arrived (mailbox : ℕ)
  | hooked (mailbox : ℕ)
  | waking (mailbox : ℕ)
  /- any holder of the slot on its way to the queue -/
  | acquired (mailbox : ℕ) (hook : Bool)
  | enqueueing (mailbox : ℕ) (lane : Lane) (hook : Bool)
  /- `deschedule` -/
  | unregistering (mailbox : ℕ)
  /- `process_mailbox_with_lease` -/
  | fetched (mailbox : ℕ)
  | batch (mailbox : ℕ)
  | finished (mailbox : ℕ)
  | checking (mailbox : ℕ)
  | counting (mailbox : ℕ)
  | releasing (mailbox : ℕ) (hasMore : Bool)
  | dropping (mailbox : ℕ)
  /- the cleanup of a shutdown -/
  | closing
  | discarding (mailboxes : List ℕ)
  | done
  deriving DecidableEq

/-- What a batch may do next, and what may happen to a job; everything else just goes on. -/
inductive Move where
  | go
  | pop (lane : Lane)
  | fail
  | cancel
  | abort

inductive Event where
  | scheduleNow (path mailbox : ℕ)
  | deschedule (path : ℕ)
  | push (mailbox : ℕ) (lane : Lane)
  | tryPop
  | setProcessor (mailbox : ℕ)
  | cancelProcessing (mailbox : ℕ)
  | close (mailbox : ℕ)
  | shutdown

def enter (capacity : ℕ) (s : State) : Event → Option (State × Option Thread)
  | .scheduleNow path mailbox =>
    if s.isShuttingDown||!(s.mailboxes mailbox).processor then none else some (s,some (.admitted path mailbox))
  | .deschedule path =>
    match s.scheduledPaths path with
    | none => none
    | some mailbox => some ({s with scheduledPaths:=Function.update s.scheduledPaths path none},some (.unregistering mailbox))
  | .push mailbox lane =>
    if (s.mailboxes mailbox).closed then none
    else some (s.update mailbox ((s.mailboxes mailbox).push lane),some (.arrived mailbox))
  | .tryPop =>
    let (popped,queue):=s.schedulingQueue.tryPop allAlive capacity
    some ({s with schedulingQueue:=queue},popped.map .fetched)
  | .setProcessor mailbox => some (s.update mailbox {s.mailboxes mailbox with processor:=true},none)
  | .cancelProcessing mailbox => some (s.update mailbox {s.mailboxes mailbox with cancelled:=true},none)
  | .close mailbox => some (s.update mailbox {s.mailboxes mailbox with closed:=true},none)
  | .shutdown => if s.isShuttingDown then none else some ({s with isShuttingDown:=true},some .closing)

/- The rest of a call after a `try_enqueue`: the slot is the caller's, or its owner is told. -/
def tryEnqueue (s : State) (mailbox : ℕ) (acquired : State → State × Thread) (recorded : State → State × Thread) :
    State × Thread :=
  match (s.slot mailbox).tryEnqueue with
  | (true,slot) => acquired (s.setSlot mailbox slot)
  | (false,slot) => recorded (s.setSlot mailbox slot)

/- The section on the paths encloses the section of `register`. -/
def callStep (s : State) : Thread → Option (State × Thread)
  | .admitted path mailbox =>
    match s.scheduledPaths path with
    | some _ => some (s,.done)
    | none =>
      match s.schedulingQueue.register mailbox with
      | (false,_) => some (s,.done)
      | (true,queue) =>
        some ({s with schedulingQueue:=queue,scheduledPaths:=Function.update s.scheduledPaths path (some mailbox)},
          .arming mailbox)
  | .arming mailbox =>
    if (s.mailboxes mailbox).hookLocked then none
    else some (s.update mailbox {s.mailboxes mailbox with wakeHook:=true},.initial mailbox)
  | .initial mailbox =>
    some (tryEnqueue s mailbox (fun s => (s,.enqueueing mailbox .normal false)) fun s => (s,.done))
  | .arrived mailbox =>
    if (s.mailboxes mailbox).hookLocked then none
    else if (s.mailboxes mailbox).wakeHook then
      some (s.update mailbox {s.mailboxes mailbox with hookLocked:=true},.hooked mailbox)
    else some (s,.done)
  | .hooked mailbox =>
    if s.isShuttingDown then some (s.unlock mailbox true,.done) else some (s,.waking mailbox)
  | .waking mailbox =>
    some (tryEnqueue s mailbox (fun s => (s,.acquired mailbox true)) fun s => (s.unlock mailbox true,.done))
  | _ => none

def queueStep (capacity : ℕ) (s : State) : Thread → Option (State × Thread)
  | .acquired mailbox hook =>
    some (s,.enqueueing mailbox (if (s.mailboxes mailbox).hasHighPriorityMessages then .high else .normal) hook)
  | .enqueueing mailbox lane hook =>
    match s.schedulingQueue.enqueueRegistered allAlive capacity mailbox lane with
    | (true,queue) => some (State.unlock {s with schedulingQueue:=queue} mailbox hook,.done)
    | (false,queue) => some ((State.forceRelease {s with schedulingQueue:=queue} mailbox).unlock mailbox hook,.done)
  | .unregistering mailbox =>
    match s.schedulingQueue.unregister allAlive capacity mailbox with
    | (true,queue) => some (State.forceRelease {s with schedulingQueue:=queue} mailbox,.done)
    | (false,queue) => some ({s with schedulingQueue:=queue},.done)
  | .closing =>
    let (mailboxes,queue):=s.schedulingQueue.closeAndTake allAlive
    some ({s with schedulingQueue:=queue},.discarding mailboxes)
  | .discarding (mailbox::rest) => some (s.forceRelease mailbox,.discarding rest)
  | .discarding [] => some ({s with scheduledPaths:=fun _ => none},.done)
  | _ => none

/- The lease is released in `dropping`, on every way out but the last, where the release of
the slot comes before `hand_off` and nothing can interrupt the two. -/
def workerStep (move : Move) (s : State) : Thread → Option (State × Thread)
  | .fetched mailbox =>
    match move with
    | .abort => if s.isShuttingDown then some (s,.dropping mailbox) else none
    | _ => some (s,if (s.mailboxes mailbox).processor then .batch mailbox else .dropping mailbox)
  | .batch mailbox =>
    match move with
    | .go => some (s,.finished mailbox)
    | .pop lane => ((s.mailboxes mailbox).pop lane).map fun m => (s.update mailbox m,.batch mailbox)
    | .fail => some (s.update mailbox {s.mailboxes mailbox with failed:=true},.dropping mailbox)
    | .cancel => if (s.mailboxes mailbox).cancelled then some (s,.dropping mailbox) else none
    | .abort => if s.isShuttingDown then some (s,.dropping mailbox) else none
  | .finished mailbox => some (s,if s.isShuttingDown then .dropping mailbox else .checking mailbox)
  | .checking mailbox =>
    match move with
    | .abort => if s.isShuttingDown then some (s,.dropping mailbox) else none
    | _ => some (s,if (s.mailboxes mailbox).closed then .dropping mailbox else .counting mailbox)
  | .counting mailbox =>
    match move with
    | .abort => if s.isShuttingDown then some (s,.dropping mailbox) else none
    | _ => some (s,.releasing mailbox !(s.mailboxes mailbox).isEmpty)
  | .releasing mailbox hasMore =>
    match (s.slot mailbox).release hasMore with
    | (true,slot) => some (s.setSlot mailbox slot,.acquired mailbox false)
    | (false,slot) => some (s.setSlot mailbox slot,.done)
  | .dropping mailbox => some (s.forceRelease mailbox,.done)
  | _ => none

def step (capacity : ℕ) (move : Move) (s : State) (t : Thread) : Option (State × Thread) :=
  match t with
  | .admitted .. | .arming _ | .initial _ | .arrived _ | .hooked _ | .waking _ => callStep s t
  | .acquired .. | .enqueueing .. | .unregistering _ | .closing | .discarding _ => queueStep capacity s t
  | _ => workerStep move s t

def program (capacity : ℕ) : Threads.Program State Thread Event Move := ⟨fun e s => enter capacity s e,step capacity⟩

abbrev Pool := Threads.Pool State Thread

abbrev Action := Threads.Action Event Move

def start : Pool := ⟨⟨fun _ => .new,fun _ => none,.new,false⟩,[]⟩

end Parrot.Scheduler.SharedPool
