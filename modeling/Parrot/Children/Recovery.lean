import Mathlib.Data.List.Dedup

/-! # The barrier of a restarting cohort (`children/recovery.rs`)

All members retire, all prepare, then all publish behind one gate. -/

namespace Parrot.Children

/- An id stands for its text, which the errors quote. -/
abbrev Uuid := String

inductive Step where
  | retired
  | prepared
  | published
  deriving DecidableEq

namespace Step

def index : Step → ℕ
  | retired => 0
  | prepared => 1
  | published => 2

def name : Step → String
  | retired => "Retired"
  | prepared => "Prepared"
  | published => "Published"

theorem index_lt (s : Step) : s.index<3 := by
  cases s <;> decide

theorem index_eq_two {s : Step} : s.index=2 ↔ s=.published := by
  cases s <;> decide

theorem index_inj {s t : Step} (h : s.index=t.index) : s=t := by
  cases s <;> cases t <;> first | rfl | exact absurd h (by decide)

end Step

inductive Progress where
  | phase (n : ℕ)
  | active
  | aborted (error : String)

def deadlineExpired : String := "cohort recovery deadline expired"

def waitCancelled : String := "cohort participant cancelled its barrier wait"

def invalidArrival (member : Uuid) (step : Step) : String :=
  "invalid or duplicate cohort arrival: member=" ++ member ++ ", step=" ++ step.name

/-- Where a call of `arrive` stands. `waiting` is the loop on the watch. -/
inductive Stage where
  | refused (error : String)
  | take
  | publish (left : List ℕ)
  | release
  | callback
  | activate
  | waiting
  | done (result : Except String Unit)
  | dropped

structure Arrival where
  member : Uuid
  step : Step
  stage : Stage

/-- Where a call of `retired_after_abort` stands after its section under the state. -/
inductive Retirement where
  | release
  | callback
  | done
  deriving DecidableEq

/-- `members` are the keys of `next`. A publication is the number of its registration.
The fields from `tasks` on are the calls under way and the history. -/
structure Recovery where
  members : List Uuid
  next : Uuid → ℕ
  finished : List Uuid
  phase : ℕ
  committed : Bool
  error : Option String
  cancelled : Bool
  progress : Progress
  release : Bool
  publications : List ℕ
  tasks : ℕ → Option Arrival
  retirements : ℕ → Option Retirement
  arrivals : List (Uuid × Step)
  registered : ℕ
  ran : List ℕ
  called : List Bool
  returned : List Bool
  activations : List (Except String Unit)

inductive Action where
  | arrive (task : ℕ) (member : Uuid) (step : Step) (expired : Bool)
  | proceed (task : ℕ)
  | timeout (task : ℕ)
  | drop (task : ℕ)
  | abort (error : String)
  | onActivation
  | retiredAfterAbort (task : ℕ) (member : Uuid)
  | retire (task : ℕ)
  | activation

namespace Recovery

def new (ids : List Uuid) : Recovery where
  members := ids.dedup
  next := fun _ => 0
  finished := []
  phase := 0
  committed := false
  error := none
  cancelled := false
  progress := .phase 0
  release := true
  publications := []
  tasks := fun _ => none
  retirements := fun _ => none
  arrivals := []
  registered := 0
  ran := []
  called := []
  returned := []
  activations := []

variable (r : Recovery)

def onActivation : Recovery :=
  {r with publications:=r.publications++[r.registered],registered:=r.registered+1}

/- A later explicit member stop belongs to the new live generation. -/
def abort (error : String) : Recovery :=
  if r.committed||r.error.isSome then r
  else {r with error:=some error,cancelled:=true,progress:=.aborted error}

/-- The section of `arrive` under the state. -/
def arrive (member : Uuid) (step : Step) (expired : Bool) : Recovery × Stage :=
  match r.error with
  | some error => (r,.done (.error error))
  | none =>
    if expired then (r,.refused deadlineExpired)
    else if r.phase≠step.index ∨ ¬(member∈r.members ∧ r.next member=step.index) then
      (r,.refused (invalidArrival member step))
    else
      let r:={r with
        next := Function.update r.next member (r.next member+1)
        arrivals := r.arrivals++[(member,step)]}
      if ∀ m∈r.members, r.next m>r.phase then
        let r:={r with phase:=r.phase+1}
        if step=.published then ({r with committed:=true},.take)
        else ({r with progress:=.phase r.phase},.waiting)
      else (r,.waiting)

/- Every read of the watch; the loop goes round again on a change. -/
def poll (step : Step) : Stage :=
  match r.progress with
  | .active => .done (.ok ())
  | .phase n => if n>step.index then .done (.ok ()) else .waiting
  | .aborted error => .done (.error error)

/-- The next section of a call of `arrive`. -/
def proceed (step : Step) : Stage → Recovery × Stage
  | .refused error => (r.abort error,.done (.error error))
  | .take => ({r with publications:=[]},.publish r.publications)
  | .publish [] => (r,.release)
  | .publish (p::left) => ({r with ran:=r.ran++[p]},.publish left)
  | .release =>
    if r.release then ({r with release:=false,called:=r.called++[true]},.callback) else (r,.activate)
  | .callback => ({r with returned:=r.returned++[true]},.activate)
  | .activate => ({r with progress:=.active},.waiting)
  | .waiting => (r,r.poll step)
  | .done result => (r,.done result)
  | .dropped => (r,.dropped)

/-- The section of `retired_after_abort` under the state; the assertions before it are
`Permitted`. -/
def retiredAfterAbort (member : Uuid) : Recovery × Retirement :=
  if r.committed then (r,.done)
  else
    let r:={r with finished:=r.finished.insert member}
    (r,if r.finished.length=r.members.length then .release else .done)

def retire : Retirement → Recovery × Retirement
  | .release =>
    if r.release then ({r with release:=false,called:=r.called++[false]},.callback) else (r,.done)
  | .callback => ({r with returned:=r.returned++[false]},.done)
  | .done => (r,.done)

def setTask (task : ℕ) (a : Arrival) : Recovery :=
  {r with tasks:=Function.update r.tasks task (some a)}

def setRetirement (task : ℕ) (p : Retirement) : Recovery :=
  {r with retirements:=Function.update r.retirements task (some p)}

/-- A number names one call; what does not apply changes nothing. -/
def step : Action → Recovery
  | .arrive task member step expired =>
    match r.tasks task with
    | some _ => r
    | none =>
      let (r,stage):=r.arrive member step expired
      r.setTask task ⟨member,step,stage⟩
  | .proceed task =>
    match r.tasks task with
    | none => r
    | some a =>
      let (r,stage):=r.proceed a.step a.stage
      r.setTask task {a with stage}
  | .timeout task =>
    match r.tasks task with
    | some ⟨_,_,.waiting⟩ => r.abort deadlineExpired
    | _ => r
  | .drop task =>
    match r.tasks task with
    | some ⟨member,step,.waiting⟩ => (r.abort waitCancelled).setTask task ⟨member,step,.dropped⟩
    | _ => r
  | .abort error => r.abort error
  | .onActivation => r.onActivation
  | .retiredAfterAbort task member =>
    match r.retirements task with
    | some _ => r
    | none =>
      let (r,p):=r.retiredAfterAbort member
      r.setRetirement task p
  | .retire task =>
    match r.retirements task with
    | none => r
    | some p =>
      let (r,p):=r.retire p
      r.setRetirement task p
  | .activation =>
    match r.progress with
    | .active => {r with activations:=r.activations++[.ok ()]}
    | .aborted error => {r with activations:=r.activations++[.error error]}
    | .phase _ => r

/-- What the callers promise: a publication is registered before the last arrival, a
receipt comes from a member and after the decision. -/
def Permitted : Action → Prop
  | .onActivation => r.committed=false
  | .retiredAfterAbort _ member => (r.error.isSome=true ∨ r.committed=true) ∧ member∈r.members
  | _ => True

instance (r : Recovery) (a : Action) : Decidable (r.Permitted a) :=
  match a with
  | .onActivation => inferInstanceAs (Decidable (r.committed=false))
  | .retiredAfterAbort _ member =>
    inferInstanceAs (Decidable ((r.error.isSome=true ∨ r.committed=true) ∧ member∈r.members))
  | .arrive .. | .proceed _ | .timeout _ | .drop _ | .abort _ | .retire _ | .activation => isTrue trivial

def run (actions : List Action) : Recovery := actions.foldl step r

def PermittedRun : Recovery → List Action → Prop
  | _,[] => True
  | r,a::actions => r.Permitted a ∧ PermittedRun (r.step a) actions

instance decidablePermittedRun (r : Recovery) (actions : List Action) : Decidable (r.PermittedRun actions) :=
  match actions with
  | [] => isTrue trivial
  | a::actions =>
    haveI := decidablePermittedRun (r.step a) actions
    inferInstanceAs (Decidable (r.Permitted a ∧ PermittedRun (r.step a) actions))

end Recovery

end Parrot.Children
