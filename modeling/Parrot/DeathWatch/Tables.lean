import Mathlib.Data.Fintype.Basic
import Parrot.Lib.OrderedMap
import Parrot.Lib.Threads

/-! # Subscriptions to terminations (`death_watch.rs:30-329`)

An edge from a target to a watcher stands in two tables, each under the lock of its owner. -/

namespace Parrot.DeathWatch
open Threads

structure Owner where
  limit : ℕ
  alive : Bool := true
  endpoint : Bool := false
  closed : Bool := false
  suspended : Bool := false
  incoming : OrderedMap ℕ ℕ := .empty
  outgoing : OrderedMap ℕ ℕ := .empty
  failures : ℕ := 0

structure Subscription where
  target : ℕ
  watcher : ℕ
  cancelled : Bool := false

/-- Owners are known by their generation, edges by the order of their creation. `delivered`
records the edges whose recipient was called. -/
structure Net where
  owners : ℕ → Owner
  subs : ℕ → Subscription
  created : ℕ
  delivered : List ℕ

inductive ActorError where
  | stopped
  | noRecipient
  | limitReached

namespace Net

def start (limits : ℕ → ℕ) : Net := ⟨fun o => {limit:=limits o},fun _ => ⟨0,0,false⟩,0,[]⟩

def modify (n : Net) (o : ℕ) (f : Owner → Owner) : Net := {n with owners:=Function.update n.owners o (f (n.owners o))}

def refuses (n : Net) (o : ℕ) : Bool := (n.owners o).closed||(n.owners o).suspended

def watch (n : Net) (target watcher : ℕ) : Net × Except ActorError Unit :=
  if target=watcher then (n,if n.refuses target then .error .stopped else .ok ())
  else if !(n.owners watcher).endpoint then (n,.error .noRecipient)
  else if n.refuses target||n.refuses watcher then (n,.error .stopped)
  else if (n.owners target).incoming.contains watcher then (n,.ok ())
  else if (n.owners target).incoming.size≥(n.owners target).limit ∨
      (n.owners watcher).outgoing.size≥(n.owners watcher).limit then (n,.error .limitReached)
  else
    let n:={n with subs:=Function.update n.subs n.created ⟨target,watcher,false⟩,created:=n.created+1}
    let n:=n.modify target fun o => {o with incoming:=o.incoming.insert watcher (n.created-1)}
    (n.modify watcher fun o => {o with outgoing:=o.outgoing.insert target (n.created-1)},.ok ())

def cancel (n : Net) (s : ℕ) : Net := {n with subs := Function.update n.subs s {n.subs s with cancelled:=true}}

/-- The target's section of `unlink`. -/
def cutIncoming (n : Net) (s : ℕ) : Net :=
  if (n.owners (n.subs s).target).incoming.get (n.subs s).watcher=some s then
    n.modify (n.subs s).target fun o => {o with incoming:=o.incoming.remove (n.subs s).watcher}
  else n

/-- The watcher's section of `unlink`. -/
def cutOutgoing (n : Net) (s : ℕ) : Net :=
  if (n.owners (n.subs s).watcher).outgoing.get (n.subs s).target=some s then
    n.modify (n.subs s).watcher fun o => {o with outgoing:=o.outgoing.remove (n.subs s).target}
  else n

def fail (n : Net) (o count : ℕ) : Net := n.modify o fun x => {x with failures:=x.failures+count}

end Net

def values (m : OrderedMap ℕ ℕ) : List ℕ := m.entries.map Prod.snd

/-- A notification that was not polled or is being delivered, and the sections of `unlink`:
`linked` holds both owners, `half` has passed the target's section. -/
inductive Progress where
  | waiting
  | calling
  | fresh
  | linked
  | half
  deriving DecidableEq

inductive DropStage where
  | fresh
  | watcherNext
  | targetNext
  deriving DecidableEq

/-- What follows the end of `close`. -/
inductive After where
  | nothing
  | abandon
  | terminate
  deriving DecidableEq

/-- `unlinking` releases edges that its owner watched by, `disposing` those that its owner is
watched by; `dropping` is the destructor. The edges of one operation may advance in any order,
which allows more than the loops of the source. -/
inductive Thread where
  | unlinking (owner : ℕ) (after : After) (items : List (ℕ × Progress))
  | disposing (owner : ℕ) (items : List (ℕ × Progress))
  | dropping (owner : ℕ) (items : List (ℕ × DropStage))
  /- `terminated` or `abandon` has returned, or its future was dropped. -/
  | ended (owner : ℕ)
  | returned

inductive Event where
  | setRecipient (o : ℕ)
  | watch (target watcher : ℕ)
  | unwatch (target watcher : ℕ)
  | close (o : ℕ) (after : After)
  | suspend (o : ℕ)
  | resume (o : ℕ)
  | destroy (o : ℕ)

inductive Move where
  /- `deadline` is whether the clock can represent the time of the deadline. -/
  | poll (i : ℕ) (deadline : Bool)
  | finish (i : ℕ) (failed : Bool)
  | drop (i : ℕ)
  | unlink (i : ℕ)
  | next

def unlinking (owner : ℕ) (after : After) (subs : List ℕ) : Thread := .unlinking owner after (subs.map fun s => (s,.fresh))

def enter : Event → Net → Option (Net × Option Thread)
  | .setRecipient o, n => if (n.owners o).alive then some (n.modify o fun x => {x with endpoint:=true},none) else none
  | .watch target watcher, n =>
    if (n.owners target).alive&&(n.owners watcher).alive then some ((n.watch target watcher).1,none) else none
  | .unwatch target watcher, n =>
    if (n.owners target).alive&&(n.owners watcher).alive then
      some (n.modify watcher fun x => {x with outgoing:=x.outgoing.remove target},
        some (unlinking watcher .nothing ((n.owners watcher).outgoing.get target).toList))
    else none
  | .close o after, n =>
    if (n.owners o).alive then
      some (n.modify o fun x => {x with closed:=true,outgoing:=.empty},
        some (unlinking o after (values (n.owners o).outgoing)))
    else none
  | .suspend o, n =>
    if (n.owners o).alive then
      some (n.modify o fun x => {x with suspended:=true,outgoing:=.empty},
        some (unlinking o .nothing (values (n.owners o).outgoing)))
    else none
  | .resume o, n =>
    if (n.owners o).alive then
      some (if (n.owners o).closed then n else n.modify o fun x => {x with suspended:=false},none)
    else none
  | .destroy o, n =>
    if (n.owners o).alive then
      some (n.modify o fun x => {x with alive:=false,incoming:=.empty,outgoing:=.empty},
        some (.dropping o ((values (n.owners o).incoming++values (n.owners o).outgoing).map fun s => (s,.fresh))))
    else none

variable (n : Net)

/-- One section of `unlink`; nothing is left to do where one of the owners is gone. -/
def unlinkItem (s : ℕ) : Progress → Option (Net × Option Progress)
  | .fresh =>
    some (n.cancel s,
      if (n.owners (n.subs s).target).alive&&(n.owners (n.subs s).watcher).alive then some .linked else none)
  | .linked => some (n.cutIncoming s,some .half)
  | .half => some (n.cutOutgoing s,none)
  | .waiting | .calling => none

/-- The delivery of one notification up to its guard. -/
def pollItem (owner s : ℕ) (deadline : Bool) : Net × Progress :=
  if !(n.owners (n.subs s).watcher).alive||!(n.owners (n.subs s).watcher).endpoint then (n,.fresh)
  else if !deadline then (n.fail owner 1,.fresh)
  else if (n.subs s).cancelled then (n,.fresh)
  else ({n with delivered:=n.delivered++[s]},.calling)

def itemMove (owner s : ℕ) (notify : Bool) : Move → Progress → Option (Net × Option Progress)
  | .poll _ deadline, .waiting =>
    if notify then
      let (n,p):=pollItem n owner s deadline
      some (n,some p)
    else none
  | .finish _ failed, .calling => if notify then some (if failed then n.fail owner 1 else n,some .fresh) else none
  | .drop _, .waiting | .drop _, .calling => if notify then some (n,some .fresh) else none
  | .unlink _, p => unlinkItem n s p
  | _, _ => none

def Move.index : Move → Option ℕ
  | .poll i _ | .finish i _ | .drop i | .unlink i => some i
  | .next => none

def itemsMove (owner : ℕ) (notify : Bool) (move : Move) (items : List (ℕ × Progress)) :
    Option (Net × List (ℕ × Progress)) := do
  let i ← move.index
  let (s,p) ← items[i]?
  let (n,p) ← itemMove n owner s notify move p
  match p with
  | some p => some (n,items.set i (s,p))
  | none => some (n,items.eraseIdx i)

/-- The destructor: the peer's entry goes by its key. -/
def dropItem (o s : ℕ) : DropStage → Net × Option DropStage
  | .fresh => (n.cancel s,some .watcherNext)
  | .watcherNext =>
    (if (n.owners (n.subs s).watcher).alive then
      n.modify (n.subs s).watcher fun x => {x with outgoing:=x.outgoing.remove o}
    else n,some .targetNext)
  | .targetNext =>
    (if (n.owners (n.subs s).target).alive then
      n.modify (n.subs s).target fun x => {x with incoming:=x.incoming.remove o}
    else n,none)

/-- `close` is done; `abandon` and `terminated` go on with the incoming edges. -/
def afterClose (owner : ℕ) : After → Net × Thread
  | .nothing => (n,.returned)
  | .abandon =>
    let subs:=values (n.owners owner).incoming
    ((n.modify owner fun x => {x with incoming:=.empty}).fail owner subs.length,
      .disposing owner (subs.map fun s => (s,.fresh)))
  | .terminate =>
    let subs:=values (n.owners owner).incoming
    (n.modify owner fun x => {x with incoming:=.empty},.disposing owner (subs.map fun s => (s,.waiting)))

def step : Move → Net → Thread → Option (Net × Thread)
  | .next, n, .unlinking owner after [] => some (afterClose n owner after)
  | .next, n, .disposing owner [] => some (n,.ended owner)
  | .next, n, .dropping _ [] => some (n,.returned)
  | .next, n, .dropping owner ((s,stage)::items) =>
    let (n,stage):=dropItem n owner s stage
    some (n,.dropping owner (stage.toList.map (fun stage => (s,stage))++items))
  | move, n, .unlinking owner after items =>
    (itemsMove n owner false move items).map fun (n,items) => (n,.unlinking owner after items)
  | move, n, .disposing owner items => (itemsMove n owner true move items).map fun (n,items) => (n,.disposing owner items)
  | _, _, _ => none

def program : Threads.Program Net Thread Event Move := ⟨enter,step⟩

def holdsItem (o : ℕ) (item : ℕ × Progress) : Bool :=
  (item.2 == .linked||item.2 == .half)&&((n.subs item.1).target==o||(n.subs item.1).watcher==o)

def Thread.holds (o : ℕ) : Thread → Bool
  | .unlinking owner _ items | .disposing owner items => owner==o||items.any (holdsItem n o)
  | .dropping _ _ | .ended _ | .returned => false

/-- An owner is destroyed when nothing refers to it any more. -/
def Counted (p : Pool Net Thread) : Action Event Move → Prop
  | .enter (.destroy o) => ∀ t∈p.threads, t.holds p.shared o=false
  | _ => True

instance countedDecidable (p : Pool Net Thread) (a : Action Event Move) : Decidable (Counted p a) :=
  match a with
  | .enter (.destroy o) => inferInstanceAs (Decidable (∀ t∈p.threads, t.holds p.shared o=false))
  | .enter (.setRecipient _) | .enter (.watch _ _) | .enter (.unwatch _ _) | .enter (.close _ _) | .enter (.suspend _)
  | .enter (.resume _) | .step _ _ => isTrue trivial

end Parrot.DeathWatch
