import Parrot.Children.Recovery

/-! # The children of an actor and their failures (`children.rs`)

The calls of a scope are tasks; a step is a lock section, a load or a store. -/

namespace Parrot.Children
open Function (update)

def maxChildren : ℕ := 1024

inductive ActorError where
  | stopped
  | internalError (message : String)

def capacityExhausted : ActorError :=
  .internalError "child capacity exhausted (1024 live children or pending termination notifications)"

def groupHandling : ActorError := .internalError "child group is handling a failure; retry after recovery"

inductive SupervisionDecision where
  | resume
  | restart
  | stop
  | escalate
  deriving DecidableEq

/- A budget is the number of restarts and the time they count for. -/
structure PolicyChoice where
  decision : SupervisionDecision
  all : Bool
  budget : Option (ℕ × ℕ)

/-- What joining the decisions under way gave: an earlier choice, none, or the end. -/
inductive Joined where
  | failed (error : ActorError)
  | expired
  | ready (pending : Option (Option PolicyChoice))

/- The group of a policy is the one under the number of its call. -/
structure FailurePolicy where
  decision : SupervisionDecision
  group : Bool
  recovery : Option ℕ

def FailurePolicy.stop : FailurePolicy := ⟨.stop,false,none⟩

structure Child where
  id : Uuid
  permit : ℕ

structure Lifetime where
  recovery : Option ℕ
  stopping : Bool
  recover : Bool
  restarts : List ℕ

inductive SpawnStage where
  | lock
  | group
  | create
  | done (result : Except ActorError Uuid)

inductive PolicyStage where
  | closed (deadline : ℕ) (pending : Option (Option PolicyChoice))
  | recovery (deadline : ℕ) (pending : Option (Option PolicyChoice))
  | evaluate (deadline : ℕ)
  | closedAgain (deadline : ℕ) (choice : PolicyChoice)
  | recoveryAgain (deadline : ℕ) (choice : PolicyChoice)
  | lock (deadline : ℕ) (choice : PolicyChoice)
  | group (deadline : ℕ) (choice : PolicyChoice)
  | eligible (deadline : ℕ) (choice : PolicyChoice)
  | register (choice : PolicyChoice)
  | budget (choice : PolicyChoice)
  | swap (choice : PolicyChoice)
  | done (result : Except ActorError (Option FailurePolicy))

/- `after` tells whether `close` had run when the child was taken out. -/
inductive FinishStage where
  | lock
  | record (child : Option Child) (after : Bool)
  | recovery (child : Option Child)
  | abort (epoch : ℕ) (child : Option Child)
  | receipt (epoch : ℕ) (child : Option Child)
  | settle (epoch : ℕ) (child : Option Child)
  | done (child : Option Child)

/-- `close`, and `join` which goes on from there. -/
inductive CloseStage where
  | lock
  | abort
  | closed
  | snapshot
  | waiting (stops : List Uuid)
  | done (stops : List Uuid) (result : Except ActorError Unit)

inductive Task where
  | spawn (stage : SpawnStage)
  | policy (member : Uuid) (stage : PolicyStage)
  | finish (member : Uuid) (result : Except ActorError Unit) (stage : FinishStage)
  | close (joining : Bool) (stage : CloseStage)

/-- A child's permit is the number of the call that spawned it. `groups` are the failure
groups not yet dropped, under the numbers of their calls, `epochs` all recoveries. The
fields from `shut` on are history. -/
structure ChildScope where
  closed : Bool
  children : List Child
  retirementFailure : Option ActorError
  permits : List ℕ
  groupActive : Bool
  activeRecovery : Option ℕ
  groupRestarts : List ℕ
  lifetimes : Uuid → Lifetime
  groups : ℕ → Option (List Uuid)
  epochs : ℕ → Option Recovery
  registered : ℕ
  childrenLock : Option ℕ
  activeLock : Option ℕ
  tasks : ℕ → Option Task
  shut : Bool
  created : List Uuid
  inserted : List Uuid
  removed : List Uuid
  failures : List Uuid

inductive ScopeAction where
  | spawn (task : ℕ)
  | create (task : ℕ) (id : Uuid) (outcome : Except ActorError Unit)
  | bindRecovery (member : Uuid)
  | setStopping (member : Uuid)
  | failurePolicy (task : ℕ) (member : Uuid) (deadline : ℕ) (joined : Joined)
  | evaluated (task : ℕ) (outcome : Except ActorError (Option PolicyChoice))
  | admitted (task : ℕ) (now : ℕ)
  | dropGroup (task : ℕ)
  | finish (task : ℕ) (member : Uuid) (result : Except ActorError Unit)
  | notified (task : ℕ)
  | close (task : ℕ) (joining : Bool)
  | joined (task : ℕ) (stops disposal : Except ActorError Unit)
  | epoch (epoch : ℕ) (action : Action)
  | proceed (task : ℕ)

/-- `retain` and the check of a restart budget. -/
def withinBudget (history : List ℕ) (now : ℕ) : Option (ℕ × ℕ) → Bool × List ℕ
  | none => (true,history)
  | some (maximum,within) =>
    let history:=history.filter fun previous => now-previous<within
    if history.length≥maximum then (false,history) else (true,history++[now])

namespace ChildScope

def new : ChildScope where
  closed := false
  children := []
  retirementFailure := none
  permits := []
  groupActive := false
  activeRecovery := none
  groupRestarts := []
  lifetimes := fun _ => ⟨none,false,false,[]⟩
  groups := fun _ => none
  epochs := fun _ => none
  registered := 0
  childrenLock := none
  activeLock := none
  tasks := fun _ => none
  shut := false
  created := []
  inserted := []
  removed := []
  failures := []

variable (s : ChildScope)

variable (t : ℕ)

def setTask (k : Task) : ChildScope :=
  {s with tasks:=update s.tasks t (some k)}

def setEpoch (i : ℕ) (r : Recovery) : ChildScope :=
  {s with epochs:=update s.epochs i (some r)}

def lock : ChildScope := {s with childrenLock:=some t}

def unlock : ChildScope := {s with childrenLock:=none}

def dropPermit : ChildScope := {s with permits:=s.permits.erase t}

/- `ChildLifetime::recovery`: a committed epoch is no longer one. -/
def recovery (member : Uuid) : Option ℕ :=
  (s.lifetimes member).recovery.filter fun i => (s.epochs i).any fun r => !r.committed

def spawnFails (error : ActorError) : ChildScope :=
  ((s.dropPermit t).unlock).setTask t (.spawn (.done (.error error)))

def spawnStep : SpawnStage → ChildScope
  | .lock =>
    if s.childrenLock.isSome then s
    else if s.closed then s.spawnFails t .stopped
    else (s.lock t).setTask t (.spawn .group)
  | .group => if s.groupActive then s.spawnFails t groupHandling else s.setTask t (.spawn .create)
  | .create | .done _ => s

/-- The callback that publishes the actor, and the insertion. -/
def create (id : Uuid) : Except ActorError Unit → ChildScope
  | .error error => {s.spawnFails t error with created:=id::s.created}
  | .ok _ =>
    ({s.unlock with
      children := ⟨id,t⟩::s.children
      created := id::s.created
      inserted := id::s.inserted}).setTask t (.spawn (.done (.ok id)))

def policyDone (member : Uuid) (policy : FailurePolicy) : ChildScope :=
  s.setTask t (.policy member (.done (.ok (some policy))))

/- Where a choice goes once no recovery is in force for the member. -/
def chosen (deadline : ℕ) (choice : PolicyChoice) : PolicyStage :=
  if choice.all ∧ choice.decision=.restart then .lock deadline choice
  else if choice.decision=.restart then .budget choice
  else .swap choice

/- All children of the scope are the members of the new epoch. -/
def enrol : ChildScope :=
  let members:=s.children.map Child.id
  let i:=s.registered
  {s with
    activeRecovery := some i
    groupActive := true
    lifetimes := fun m => if m∈members then {s.lifetimes m with recovery:=some i} else s.lifetimes m
    epochs := update s.epochs i (some (Recovery.new members))
    registered := i+1}

/-- The section that registers an epoch, under both locks. -/
def register (member : Uuid) (choice : PolicyChoice) : ChildScope :=
  if s.activeLock.isSome then s
  else if s.closed then (s.unlock).policyDone t member .stop
  else (s.enrol.unlock).policyDone t member ⟨choice.decision,false,some s.registered⟩

def policyStep (member : Uuid) : PolicyStage → ChildScope
  | .closed deadline pending =>
    if s.closed then s.policyDone t member .stop else s.setTask t (.policy member (.recovery deadline pending))
  | .recovery deadline pending =>
    match s.recovery member, pending with
    | some i, _ => s.policyDone t member ⟨.restart,false,some i⟩
    | none, none => s.setTask t (.policy member (.evaluate deadline))
    | none, some none => s.setTask t (.policy member (.done (.ok none)))
    | none, some (some choice) => s.setTask t (.policy member (.closedAgain deadline choice))
  | .closedAgain deadline choice =>
    if s.closed then s.policyDone t member .stop else s.setTask t (.policy member (.recoveryAgain deadline choice))
  | .recoveryAgain deadline choice =>
    match s.recovery member with
    | some i => s.policyDone t member ⟨.restart,false,some i⟩
    | none => s.setTask t (.policy member (chosen deadline choice))
  | .lock deadline choice =>
    if s.childrenLock.isSome then s
    else
      match s.recovery member with
      | some i => s.policyDone t member ⟨choice.decision,false,some i⟩
      | none => (s.lock t).setTask t (.policy member (.group deadline choice))
  | .group deadline choice =>
    if s.groupActive then (s.unlock).policyDone t member .stop
    else if member∉s.children.map Child.id then (s.unlock).policyDone t member .stop
    else s.setTask t (.policy member (.eligible deadline choice))
  | .register choice => s.register t member choice
  | .swap choice =>
    if choice.all ∧ choice.decision ≠ .resume then
      if s.childrenLock.isSome then s
      else if s.groupActive then s.policyDone t member ⟨choice.decision,false,none⟩
      else
        let siblings:=(s.children.map Child.id).filter (· ≠ member)
        ({s with groupActive:=true,groups:=update s.groups t (some siblings)}).policyDone t member
          ⟨choice.decision,true,none⟩
    else s.policyDone t member ⟨choice.decision,false,none⟩
  | .evaluate _ | .eligible _ _ | .budget _ | .done _ => s

/-- The checks that read the clock: the cohort's, and a single member's budget. A cohort
that cannot be rebuilt is retired as a whole. -/
def admitted (member : Uuid) (now : ℕ) : PolicyStage → ChildScope
  | .eligible deadline choice =>
    let eligible:=s.children.all fun child => (s.lifetimes child.id).recover&&!(s.lifetimes child.id).stopping
    if eligible ∧ now<deadline then
      let (allowed,history):=withinBudget s.groupRestarts now choice.budget
      let s:={s with groupRestarts:=history}
      if allowed then s.setTask t (.policy member (.register choice))
      else (s.unlock).setTask t (.policy member (.swap {choice with decision:=.stop}))
    else (s.unlock).setTask t (.policy member (.swap {choice with decision:=.stop}))
  | .budget choice =>
    let (allowed,history):=withinBudget (s.lifetimes member).restarts now choice.budget
    let s:={s with lifetimes := update s.lifetimes member {s.lifetimes member with restarts:=history}}
    s.setTask t (.policy member (.swap (if allowed then choice else {choice with decision:=.stop})))
  | _ => s

def evaluated (member : Uuid) (deadline : ℕ) : Except ActorError (Option PolicyChoice) → ChildScope
  | .error error => s.setTask t (.policy member (.done (.error error)))
  | .ok none => s.setTask t (.policy member (.done (.ok none)))
  | .ok (some choice) => s.setTask t (.policy member (.closedAgain deadline choice))

def failurePolicy (member : Uuid) (deadline : ℕ) : Joined → ChildScope
  | .failed error => s.setTask t (.policy member (.done (.error error)))
  | .expired => s.policyDone t member .stop
  | .ready pending => s.setTask t (.policy member (.closed deadline pending))

/- `FailureGroup::drop`. -/
def dropGroup : ChildScope :=
  if (s.groups t).isSome then {s with groupActive:=false,groups:=update s.groups t none} else s

def failed (result : Except ActorError Unit) : Option ActorError :=
  match result with
  | .error error => some error
  | .ok _ => none

def finishStep (member : Uuid) (result : Except ActorError Unit) : FinishStage → ChildScope
  | .lock =>
    if s.childrenLock.isSome then s
    else
      let child:=s.children.find? fun child => child.id=member
      ({s.lock t with
        children := s.children.filter fun child => child.id≠member
        removed := (child.map Child.id).toList++s.removed}).setTask t (.finish member result (.record child s.shut))
  | .record child after =>
    let failure:=if child.isSome ∧ s.closed then s.retirementFailure.or (failed result) else s.retirementFailure
    ({s.unlock with
      retirementFailure := failure
      failures := if child.isSome ∧ after ∧ (failed result).isSome then member::s.failures else s.failures}).setTask t
      (.finish member result (.recovery child))
  | .recovery child =>
    match s.recovery member with
    | some i => s.setTask t (.finish member result (.abort i child))
    | none => s.setTask t (.finish member result (.done child))
  | .abort i child =>
    match s.epochs i with
    | none => s
    | some r =>
      (s.setEpoch i (r.abort "member terminated during cohort recovery")).setTask t
        (.finish member result (.receipt i child))
  | .receipt i child =>
    match s.epochs i with
    | none => s
    | some r =>
      (s.setEpoch i (r.step (.retiredAfterAbort t member))).setTask t (.finish member result (.settle i child))
  | .settle i child =>
    if (s.epochs i).any fun r => r.retirements t=some .done then s.setTask t (.finish member result (.done child))
    else s
  | .done _ => s

def closeStep (joining : Bool) : CloseStage → ChildScope
  | .lock =>
    if s.activeLock.isSome then s
    else ({s with closed:=true,activeLock:=some t}).setTask t (.close joining .abort)
  | .abort =>
    let epochs:=fun i => if s.activeRecovery=some i then
        (s.epochs i).map fun r => r.abort "parent stop cancelled cohort recovery"
      else s.epochs i
    ({s with epochs:=epochs,activeLock:=none,shut:=true}).setTask t
      (.close joining (if joining then .snapshot else .closed))
  | .snapshot =>
    if s.childrenLock.isSome then s else s.setTask t (.close joining (.waiting (s.children.map Child.id)))
  | .closed | .waiting _ | .done _ _ => s

/- The first error of the stops, then that of the policy, then the recorded one. -/
def joined (joining : Bool) (stops disposal : Except ActorError Unit) : CloseStage → ChildScope
  | .waiting snapshot =>
    let recorded : Except ActorError Unit := match s.retirementFailure with
      | some error => .error error
      | none => .ok ()
    s.setTask t (.close joining (.done snapshot (stops.bind fun _ => disposal.bind fun _ => recorded)))
  | _ => s

def returns (r : Recovery) : Action → Bool
  | .proceed t => (r.tasks t).any fun a => match a.stage with
    | .callback => true
    | _ => false
  | .retire t => r.retirements t=some .callback
  | _ => false

def receipt : Action → Bool
  | .retiredAfterAbort _ _ => true
  | _ => false

/-- The callback given to `Recovery::new`. -/
def release (i : ℕ) (members : List Uuid) : ChildScope :=
  {s with
    lifetimes := fun m => if m∈members ∧ (s.lifetimes m).recovery=some i then
      {s.lifetimes m with recovery:=none} else s.lifetimes m
    groupActive := false}

/-- Receipts come from `finish` alone. -/
def epochStep (i : ℕ) (a : Action) : ChildScope :=
  match s.epochs i with
  | none => s
  | some r =>
    if ¬r.Permitted a ∨ receipt a then s
    else if returns r a then
      if s.childrenLock.isSome then s else (s.release i r.members).setEpoch i (r.step a)
    else s.setEpoch i (r.step a)

def proceed : Task → ChildScope
  | .spawn stage => s.spawnStep t stage
  | .policy member stage => s.policyStep t member stage
  | .finish member result stage => s.finishStep t member result stage
  | .close joining stage => s.closeStep t joining stage

/-- The first section of a call, under a number not yet in use. -/
def begin (start : ChildScope) : ChildScope :=
  match s.tasks t with
  | none => start
  | some _ => s

def step : ScopeAction → ChildScope
  | .spawn t => s.begin t <|
    if s.permits.length < maxChildren then ({s with permits:=t::s.permits}).setTask t (.spawn .lock)
    else s.setTask t (.spawn (.done (.error capacityExhausted)))
  | .create t id outcome =>
    match s.tasks t with
    | some (.spawn .create) => if id∈s.created then s else s.create t id outcome
    | _ => s
  | .bindRecovery m => {s with lifetimes := update s.lifetimes m {s.lifetimes m with recover:=true}}
  | .setStopping m => {s with lifetimes := update s.lifetimes m {s.lifetimes m with stopping:=true}}
  | .failurePolicy t member deadline joined => s.begin t (s.failurePolicy t member deadline joined)
  | .evaluated t outcome =>
    match s.tasks t with
    | some (.policy member (.evaluate deadline)) => s.evaluated t member deadline outcome
    | _ => s
  | .admitted t now =>
    match s.tasks t with
    | some (.policy member stage) => s.admitted t member now stage
    | _ => s
  | .dropGroup t => s.dropGroup t
  | .finish t member result => s.begin t (s.setTask t (.finish member result .lock))
  | .notified t =>
    match s.tasks t with
    | some (.finish member result (.done (some child))) =>
      (s.dropPermit child.permit).setTask t (.finish member result (.done none))
    | _ => s
  | .close t joining => s.begin t (s.setTask t (.close joining .lock))
  | .joined t stops disposal =>
    match s.tasks t with
    | some (.close joining stage) => s.joined t joining stops disposal stage
    | _ => s
  | .epoch i a => s.epochStep i a
  | .proceed t =>
    match s.tasks t with
    | some k => s.proceed t k
    | none => s

def run (actions : List ScopeAction) : ChildScope := actions.foldl step s

end ChildScope

end Parrot.Children
