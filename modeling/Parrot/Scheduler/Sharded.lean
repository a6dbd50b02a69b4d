import Parrot.Lib.Threads
import Parrot.Scheduler.Slot

/-! # Affinity shards (`thread/scheduler/sharded.rs:250-423, 540-608, 710-787`)

A registration is a token: the entry of its path, the hook of its mailbox and every item it puts
into a shard's channel carry the same one, and descheduling marks it inactive. -/

namespace Parrot.Scheduler.Sharded

/-- A mailbox with the token of the registration that speaks for it. -/
structure ShardItem where
  mailbox : ℕ
  active : ℕ
  deriving DecidableEq

structure WakeHook where
  active : ℕ
  shard : ℕ

structure Mailbox where
  messages : ℕ
  scheduleState : ScheduleState
  wakeHook : Option WakeHook
  /-- A hook runs under the lock of the hook (`mpsc.rs:398`). -/
  hookLocked : Bool
  processor : Bool
  cancelled : Bool

structure Queued where
  shard : ℕ
  item : ShardItem
  deriving DecidableEq

/- `assigned` maps a path to its token, here with the mailbox the token was made for.
The channels are one list in the order of the sends. -/
structure Shared where
  mailboxes : ℕ → Mailbox
  assigned : ℕ → Option ShardItem
  active : ℕ → Bool
  tokens : ℕ
  queued : List Queued
  shutdown : Bool

/-- The number of shards, and the path of each mailbox. -/
structure Config where
  shards : ℕ
  path : ℕ → ℕ

/-- FNV-1a. -/
def hashKey (key : List UInt8) : UInt64 :=
  key.foldl (fun h b => (h ^^^ b.toUInt64)*0x100000001b3) 0xcbf29ce484222325

variable (config : Config)

def Config.shardFor (key : UInt64) : ℕ :=
  let z:=key+0x9e3779b97f4a7c15
  let z:=(z ^^^ (z >>> 30))*0xbf58476d1ce4e5b9
  let z:=(z ^^^ (z >>> 27))*0x94d049bb133111eb
  (z ^^^ (z >>> 31)).toNat % config.shards

namespace Shared

variable (s : Shared)

def update (mailbox : ℕ) (f : Mailbox → Mailbox) : Shared :=
  {s with mailboxes:=Function.update s.mailboxes mailbox (f (s.mailboxes mailbox))}

def setSlot (mailbox : ℕ) (slot : ScheduleState) : Shared :=
  s.update mailbox fun m => {m with scheduleState:=slot}

def setLock (mailbox : ℕ) (locked : Bool) : Shared :=
  s.update mailbox fun m => {m with hookLocked:=locked}

def slot (mailbox : ℕ) : ScheduleState := (s.mailboxes mailbox).scheduleState

def forceRelease (mailbox : ℕ) : Shared := s.setSlot mailbox (s.slot mailbox).forceRelease

/- A new token for the path, and the end of the token it has. -/
def assign (path mailbox : ℕ) : Shared :=
  {s with
    assigned := Function.update s.assigned path (some ⟨mailbox,s.tokens⟩)
    active := Function.update s.active s.tokens true
    tokens := s.tokens+1}

def remove (path : ℕ) (item : ShardItem) : Shared :=
  {s with assigned:=Function.update s.assigned path none,active:=Function.update s.active item.active false}

def send (shard : ℕ) (item : ShardItem) : Shared := {s with queued:=s.queued++[⟨shard,item⟩]}

end Shared

inductive Thread where
  /- `schedule_affinity` -/
  | admitted (mailbox shard : ℕ)
  | arming (item : ShardItem) (shard : ℕ)
  | initial (item : ShardItem) (shard : ℕ)
  | sending (item : ShardItem) (shard : ℕ)
  /- a producer, and the hook it fires -/
  | arrived (mailbox : ℕ)
  | hooked (item : ShardItem) (shard : ℕ)
  | waking (item : ShardItem) (shard : ℕ)
  | hookSending (item : ShardItem) (shard : ℕ)
  /- `process_item` -/
  | fetched (item : ShardItem) (shard : ℕ)
  | refused (item : ShardItem)
  | batch (item : ShardItem) (shard : ℕ)
  | finished (item : ShardItem) (shard : ℕ)
  | dropping (item : ShardItem)
  | counting (item : ShardItem) (shard : ℕ)
  | releasing (item : ShardItem) (shard : ℕ) (hasMore : Bool)
  | resending (item : ShardItem) (shard : ℕ)
  | done

/-- What a batch may do next; everything else just goes on. -/
inductive Move where
  | go
  | pop
  | fail
  | cancel

inductive Event where
  | scheduleAffinity (mailbox : ℕ) (affinityKey : List UInt8)
  | deschedule (path : ℕ)
  | push (mailbox : ℕ)
  | recv (shard : ℕ)
  | setProcessor (mailbox : ℕ)
  | cancelProcessing (mailbox : ℕ)
  | requestShutdown

/- The checks of `schedule_affinity` come before its thread, since they change nothing.
`deschedule` stores into the token under the lock of the map. -/
def enter : Event → Shared → Option (Shared × Option Thread)
  | .scheduleAffinity mailbox affinityKey,s =>
    if s.shutdown||!(s.mailboxes mailbox).processor then none
    else some (s,some (.admitted mailbox (config.shardFor (hashKey affinityKey))))
  | .deschedule path,s =>
    match s.assigned path with
    | none => some (s,none)
    | some item => some (s.remove path item,none)
  | .push mailbox,s => some (s.update mailbox fun m => {m with messages:=m.messages+1},some (.arrived mailbox))
  | .recv shard,s =>
    if s.shutdown then none
    else
      match s.queued.find? fun q => q.shard==shard with
      | none => none
      | some q => some ({s with queued:=s.queued.erase q},some (.fetched q.item shard))
  | .setProcessor mailbox,s => some (s.update mailbox fun m => {m with processor:=true},none)
  | .cancelProcessing mailbox,s => some (s.update mailbox fun m => {m with cancelled:=true},none)
  | .requestShutdown,s => some ({s with shutdown:=true},none)

/- The rest of the call after a `try_enqueue`: the slot is the caller's, or its owner is told. -/
def tryEnqueue (s : Shared) (item : ShardItem) (acquired recorded : Shared → Shared × Thread) : Shared × Thread :=
  match (s.slot item.mailbox).tryEnqueue with
  | (true,slot) => acquired (s.setSlot item.mailbox slot)
  | (false,slot) => recorded (s.setSlot item.mailbox slot)

def scheduleStep (s : Shared) : Thread → Option (Shared × Thread)
  | .admitted mailbox shard =>
    let path:=config.path mailbox
    match s.assigned path with
    | some _ => some (s,.done)
    | none => some (s.assign path mailbox,.arming ⟨mailbox,s.tokens⟩ shard)
  | .arming item shard =>
    if (s.mailboxes item.mailbox).hookLocked then none
    else some (s.update item.mailbox fun m => {m with wakeHook:=some ⟨item.active,shard⟩},.initial item shard)
  | .initial item shard => some (tryEnqueue s item (fun s => (s,.sending item shard)) fun s => (s,.done))
  | .sending item shard => some (s.send shard item,.done)
  | _ => none

def hookStep (s : Shared) : Thread → Option (Shared × Thread)
  | .arrived mailbox =>
    if (s.mailboxes mailbox).hookLocked then none
    else
      match (s.mailboxes mailbox).wakeHook with
      | none => some (s,.done)
      | some hook => some (s.setLock mailbox true,.hooked ⟨mailbox,hook.active⟩ hook.shard)
  | .hooked item shard =>
    if s.shutdown||!s.active item.active then some (s.setLock item.mailbox false,.done)
    else some (s,.waking item shard)
  | .waking item shard =>
    some (tryEnqueue s item (fun s => (s,.hookSending item shard)) fun s => (s.setLock item.mailbox false,.done))
  | .hookSending item shard => some ((s.send shard item).setLock item.mailbox false,.done)
  | _ => none

/- From `batch` to the release the future holds the lease of the slot: every way out but the
last releases it in `dropping`, and `hand_off` makes the release after it the only one. -/
def processStep (move : Move) (s : Shared) : Thread → Option (Shared × Thread)
  | .fetched item shard =>
    if s.active item.active&&(s.mailboxes item.mailbox).processor then some (s,.batch item shard)
    else some (s,.refused item)
  | .refused item => some (s.forceRelease item.mailbox,.done)
  | .batch item shard =>
    match move with
    | .pop =>
      if (s.mailboxes item.mailbox).messages=0 then none
      else some (s.update item.mailbox fun m => {m with messages:=m.messages-1},.batch item shard)
    | .go => some (s,.finished item shard)
    | .fail => some (s,.dropping item)
    | .cancel => if (s.mailboxes item.mailbox).cancelled||s.shutdown then some (s,.dropping item) else none
  | .finished item shard =>
    if s.active item.active then some (s,.counting item shard) else some (s,.dropping item)
  | .dropping item => some (s.forceRelease item.mailbox,.done)
  | .counting item shard => some (s,.releasing item shard ((s.mailboxes item.mailbox).messages != 0))
  | .releasing item shard hasMore =>
    match (s.slot item.mailbox).release hasMore with
    | (true,slot) => some (s.setSlot item.mailbox slot,.resending item shard)
    | (false,slot) => some (s.setSlot item.mailbox slot,.done)
  | .resending item shard => some (s.send shard item,.done)
  | _ => none

def step (move : Move) (s : Shared) (t : Thread) : Option (Shared × Thread) :=
  match t with
  | .admitted .. | .arming .. | .initial .. | .sending .. => scheduleStep config s t
  | .arrived .. | .hooked .. | .waking .. | .hookSending .. => hookStep s t
  | _ => processStep move s t

def program : Threads.Program Shared Thread Event Move := ⟨enter config,step config⟩

abbrev Pool := Threads.Pool Shared Thread

abbrev Action := Threads.Action Event Move

def Mailbox.new : Mailbox := ⟨0,.new,none,false,false,false⟩

def start : Pool := ⟨⟨fun _ => .new,fun _ => none,fun _ => false,0,[],false⟩,[]⟩

end Parrot.Scheduler.Sharded
