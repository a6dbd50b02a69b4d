import Parrot.App.Reconcile

/-! # The components of a node (`executor_v2.rs:33-75`, `executor_v2.rs:711-763`)

A record is kept for every deployment, from its reservation until its last instance is gone. -/

namespace Parrot.Node
open Text Parrot.App

inductive AdminArtifactRef where
  | props (factory : String)
  | beam (app : String) (uri : Option String)
  | pyModule (module : String) (runtimeEnv uri : Option String)
  | jvm (mainClass : String) (coords uri : Option String)
  | wasm (digest uri : String)
  | dylib (digest uri : String) (abi : ℕ)

inductive AdminInstancePolicy where
  | singleton
  | pool (count : ℕ)
  | sharded (count : ℕ)

def AdminInstancePolicy.instanceCount : AdminInstancePolicy → ℕ
  | .singleton => 1
  | .pool count | .sharded count => count

structure ComponentDeploy where
  name : String
  version : String
  artifact : AdminArtifactRef
  instances : AdminInstancePolicy
  config : Option (List UInt8) := none

def instancePaths (name : String) : AdminInstancePolicy → List String
  | .singleton => ["/user/"++name]
  | .pool count | .sharded count => (List.range count).map fun i => "/user/"++name++"-"++toString i

/-- `actor` tells the reference of an instance from every other one. -/
structure Instance where
  path : String
  actor : ℕ
  cleanupError : Option String := none
  deriving DecidableEq

structure Deployment where
  command : ComponentDeploy
  generation : ℕ
  committed : Bool
  instances : List Instance

abbrev Records := OrderedMap String Deployment

def selectsAll (path : String) : Bool := path == "/" || path == "/user" || path == "/user/"

variable (records : Records)

def exactComponent (path : String) : Option String :=
  (stripPrefix "/user/" path).filter fun name => records.contains name

/-- Whether an instance at `path` of the component is asked for. -/
def selects (asked name path : String) : Bool :=
  selectsAll asked ||
    match exactComponent records asked with
    | some component => component==name
    | none => path==asked

/-- A record without instances is being deployed; the version of one that was not committed is
unknown. -/
def recordRows (asked name : String) (entry : Deployment) : List (String × String × Option Instance) :=
  if !entry.committed&&entry.instances.isEmpty then
    ((instancePaths name entry.command.instances).filter fun path => selects records asked name path).map fun path =>
      (path,entry.command.version,none)
  else
    (entry.instances.filter fun i => selects records asked name i.path).map fun i =>
      (i.path,if entry.committed then entry.command.version else "",some i)

/-- `alive` is what the instance answers when it is asked. -/
def rowState (alive : Instance → Bool) : Option Instance → String
  | none => "deploying"
  | some i => if i.cleanupError.isSome then "cleanup_failed" else if alive i then "running" else "unavailable"

def states (alive : Instance → Bool) (records : Records) (asked : String) : List ComponentStateReport :=
  (records.entries.flatMap fun e => recordRows records asked e.1 e.2).map fun (path,version,i) => ⟨path,rowState alive i,version⟩

structure Deployment.WellFormed (name : String) (entry : Deployment) : Prop where
  paths : ∀ i∈entry.instances, i.path∈instancePaths name entry.command.instances
  nodup : (entry.instances.map Instance.path).Nodup
  bounded : entry.command.instances.instanceCount≤1024

end Parrot.Node

/-! ### What a supervisor makes of a node's reports

The node calls an instance `unavailable` or `cleanup_failed`, the supervisor acts on `failed`
and `stopped`: a dead instance is neither left alone nor replaced. -/

namespace Parrot.Node
open Machine Text Parrot.App

variable {host : Host} {s : AppSupervisor} {latest : Except String (Option DesiredStateRecord)} {o : ObservedState}
  {spec : ComponentSpec} {records : Records} {alive : Instance → Bool} {entry : Deployment} {name : String}

/-- Dead, or kept because it could not be stopped. -/
def Lost (alive : Instance → Bool) (i : Instance) : Prop := i.cleanupError.isSome=true ∨ alive i=false

theorem rowState_lost {i : Instance} (h : Lost alive i) : settledState (rowState alive (some i))=false := by
  simp only [rowState]
  rcases h with h | h
  · rw [if_pos h]
    decide
  · split
    · decide
    · simp only [h]
      decide

section
variable (h : records.get name=some entry)
include h

theorem exactComponent_self : exactComponent records ("/user/"++name)=some name := by
  have hmem : name∈records.keys := OrderedMap.mem_keys.mpr ⟨entry,h⟩
  simp [exactComponent,stripPrefix_eq_some.mpr rfl,hmem]

theorem selects_self (path : String) : selects records ("/user/"++name) name path=true := by
  simp [selects,exactComponent_self h]

theorem lost_reported {i : Instance} (hi : i∈entry.instances) (hlost : Lost alive i) :
    ∃ r∈states alive records ("/user/"++name), settledState r.state=false := by
  have hrow : (i.path,if entry.committed then entry.command.version else "",some i) ∈
      recordRows records ("/user/"++name) name entry := by
    unfold recordRows
    rw [if_neg]
    · refine List.mem_map.mpr ⟨i,List.mem_filter.mpr ⟨hi,selects_self h i.path⟩,rfl⟩
    · intro hempty
      simp only [Bool.and_eq_true,List.isEmpty_iff] at hempty
      rw [hempty.2] at hi
      simp at hi
  refine ⟨⟨i.path,rowState alive (some i),_⟩,List.mem_map.mpr ⟨_,List.mem_flatMap.mpr ⟨(name,entry),?_,hrow⟩,rfl⟩,rowState_lost hlost⟩
  exact OrderedMap.get_eq_some.mp h

end

theorem states_self (hname : name ≠ "") (h : records.get name=some entry) :
    states alive records ("/user/"++name) =
      (recordRows records ("/user/"++name) name entry).map fun (path,version,i) => ⟨path,rowState alive i,version⟩ := by
  have hall : selectsAll ("/user/"++name)=false := by
    have hslash : "/user/"++name ≠ "/user/" := by
      intro heq
      exact hname (append_left_inj (s := "/user/") (u := "") (heq.trans (by decide)))
    have hlong (t : String) (ht : t.toList.length<6) : "/user/"++name≠t := by
      intro heq
      have:=congrArg (fun s : String => s.toList.length) heq
      simp only [String.toList_append,List.length_append] at this
      have huser : "/user/".toList.length=6 := by decide
      omega
    simp [selectsAll,hslash,hlong "/" (by decide),hlong "/user" (by decide)]
  have hother (x : String) (e : Deployment) (hx : x≠name) : recordRows records ("/user/"++name) x e=[] := by
    have hsel (path : String) : selects records ("/user/"++name) x path=false := by
      simp [selects,hall,exactComponent_self h,Ne.symm hx]
    unfold recordRows
    split <;> simp [hsel]
  have hflat : (records.entries.flatMap fun e => recordRows records ("/user/"++name) e.1 e.2) =
      recordRows records ("/user/"++name) name entry :=
    flatMap_single (f := fun e => recordRows records ("/user/"++name) e.1 e.2) Prod.fst
      (OrderedMap.keys_nodup records) (OrderedMap.get_eq_some.mp h) fun e _ hne => hother e.1 e.2 hne
  rw [states,hflat]

theorem mem_instancePaths_owned (hsegment : validPathSegment host name=true) {policy : AdminInstancePolicy}
    (hbound : policy.instanceCount≤1024) {path : String} (hpath : path∈instancePaths name policy) :
    ownedRoot host name path=true := by
  cases policy with
  | singleton =>
    rw [List.mem_singleton.mp hpath]
    exact ownedRoot_name hsegment
  | pool count | sharded count =>
    obtain ⟨i,hi,rfl⟩:=List.mem_map.mp hpath
    have:=List.mem_range.mp hi
    simp only [AdminInstancePolicy.instanceCount] at hbound
    exact ownedRoot_member hsegment (by omega)

theorem states_unambiguous (hsegment : validPathSegment host name=true) (h : records.get name=some entry)
    (hwell : entry.WellFormed name) (hsome : entry.instances≠[]) :
    ambiguous host name (states alive records ("/user/"++name)) []=false := by
  have hname : name ≠ "" := by
    intro heq
    simp [heq,validPathSegment] at hsegment
  have hrows : recordRows records ("/user/"++name) name entry =
      entry.instances.map fun i => (i.path,if entry.committed then entry.command.version else "",some i) := by
    have hkeep : (entry.instances.filter fun i => selects records ("/user/"++name) name i.path)=entry.instances :=
      List.filter_eq_self.mpr fun i _ => selects_self h i.path
    unfold recordRows
    rw [if_neg (by simp [hsome]),hkeep]
  rw [ambiguous_iff,states_self hname h,hrows]
  simp only [List.map_map,List.mem_map,Function.comp_apply,forall_exists_index,and_imp,forall_apply_eq_imp_iff₂,
    List.not_mem_nil,not_false_eq_true,and_true]
  refine ⟨fun i hi => mem_instancePaths_owned hsegment hwell.bounded (hwell.paths i hi),?_⟩
  exact hwell.nodup

/-- A component at rest on its node: declared, with nothing pending and its dependencies
healthy, reported by a live eligible node, and with a lost instance. -/
structure Resting (host : Host) (s : AppSupervisor) (latest : Except String (Option DesiredStateRecord)) (o : ObservedState)
    (spec : ComponentSpec) (records : Records) (alive : Instance → Bool) (entry : Deployment) : Prop where
  valid : validateWithLimits host s.limits s.state.manifest=.ok ()
  current : s.requireCurrent latest=.ok ()
  admitted : checkObserved host s.limits o=.ok ()
  declared : spec∈s.state.manifest.components
  settled : s.state.pending.contains spec.name=false
  ready : ∀ name∈spec.deps, dependencyReady host s.state o name=true
  source : ((o.componentNodes.get spec.name).any fun node => eligibleNode spec node o)=true
  owned : records.get spec.name=some entry
  wellFormed : entry.WellFormed spec.name
  lost : ∃ i∈entry.instances, Lost alive i
  reported : o.components.get spec.name=some (states alive records ("/user/"++spec.name))

theorem not_healthy_of_unsettled {reports : List ComponentStateReport} {version : String} (h : o.reports spec.name=reports)
    {r : ComponentStateReport} (hr : r∈reports) (hstate : settledState r.state=false) :
    healthyObservation host spec version o=false := by
  have hrows : healthy host spec version reports=false := by
    rw [← Bool.not_eq_true]
    intro hhealthy
    simp only [healthy,Bool.and_eq_true] at hhealthy
    have hrunning:=((healthyRows_iff.mp hhealthy.2).1 r hr).1
    rw [hrunning] at hstate
    revert hstate
    decide
  unfold healthyObservation
  rw [h,hrows]
  split <;> simp

theorem resting_waits (h : Resting host s latest o spec records alive entry) :
    ∃ reason, componentActions host s.state o spec=[.wait spec.name reason] ∧
      (¬(spec.placement.antiAffinity=true ∧ spec.instances.instanceCount>1) → reason = "instances transitioning") := by
  have hreports : o.reports spec.name=states alive records ("/user/"++spec.name) := by
    simp [ObservedState.reports,h.reported]
  obtain ⟨i,hi,hlost⟩:=h.lost
  obtain ⟨r,hr,hstate⟩:=lost_reported h.owned hi hlost
  have hunhealthy : healthyObservation host spec s.state.manifest.version o=false :=
    not_healthy_of_unsettled hreports hr hstate
  have hany : (o.reports spec.name).any (fun r => !settledState r.state)=true := by
    rw [hreports,List.any_eq_true]
    exact ⟨r,hr,by simp [hstate]⟩
  have hsegment:=((validate_accepted h.valid).named spec h.declared).segment
  cases hobstacle : obstacle host s.state o spec with
  | ok node =>
    refine ⟨"instances transitioning",?_,fun _ => rfl⟩
    simp [componentActions,hobstacle,hunhealthy,hany]
  | error reason =>
    refine ⟨reason,by simp [componentActions,hobstacle],fun hspread => ?_⟩
    -- Nothing else stands in the way.
    exfalso
    obtain ⟨node,hnode,hlive⟩ : ∃ node, o.componentNodes.get spec.name=some node ∧ eligibleNode spec node o=true := by
      have hsource:=h.source
      cases hget : o.componentNodes.get spec.name with
      | none => simp [hget] at hsource
      | some node => exact ⟨node,rfl,by simpa [hget] using hsource⟩
    obtain ⟨target,htarget,-⟩:=nodeFor_eligible hspread hlive
    have hdeps : (spec.deps.any fun name => !dependencyReady host s.state o name)=false := by
      simpa using h.ready
    have hclear : ambiguous host spec.name (o.reports spec.name) []=false := by
      rw [hreports]
      exact states_unambiguous hsegment h.owned h.wellFormed (List.ne_nil_of_mem hi)
    have hsome : (o.reports spec.name).isEmpty=false := by
      rw [hreports]
      cases hl : states alive records ("/user/"++spec.name) with
      | nil => simp [hl] at hr
      | cons a l => rfl
    simp [obstacle,h.settled,hdeps,hclear,htarget,hsome,hnode,hlive] at hobstacle

/-- A lost instance is never replaced: the supervisor waits for a transition that nothing
carries out. -/
theorem lost_never_replaced (host : Host) (s : AppSupervisor) (latest : Except String (Option DesiredStateRecord))
    (o : ObservedState) (spec : ComponentSpec) (records : Records) (alive : Instance → Bool) (entry : Deployment)
    (h : Resting host s latest o spec records alive entry) :
    (.drain spec.name∉(s.reconcileComponents host latest o).actions ∧
      .stop spec.name∉(s.reconcileComponents host latest o).actions ∧
      ∀ node, .deploy spec.name node∉(s.reconcileComponents host latest o).actions) ∧
    (¬(spec.placement.antiAffinity=true ∧ spec.instances.instanceCount>1) →
      .wait spec.name "instances transitioning" ∈ (s.reconcileComponents host latest o).actions) := by
  obtain ⟨reason,hactions,hreason⟩:=resting_waits h
  have hnames:=(validate_accepted h.valid).distinct
  have hreport : (s.reconcileComponents host latest o).actions=allActions host s.state o := by
    simp [AppSupervisor.reconcileComponents,h.current,h.admitted]
  have hmem {a : ReconcileAction} (ha : a.comp=spec.name) :
      a∈(s.reconcileComponents host latest o).actions ↔ a=.wait spec.name reason := by
    rw [hreport,mem_allActions hnames h.declared ha,hactions,List.mem_singleton]
  refine ⟨⟨?_,?_,fun node => ?_⟩,fun hspread => ?_⟩
  · simp [hmem (a := .drain spec.name) rfl]
  · simp [hmem (a := .stop spec.name) rfl]
  · simp [hmem (a := .deploy spec.name node) rfl]
  · rw [hmem (a := .wait spec.name "instances transitioning") rfl,hreason hspread]

def restingManifest : AppManifest := sampleManifest [sampleComponent "a" .singleton []]

def restingSupervisor : AppSupervisor := ⟨{},⟨1,restingManifest,.empty,.empty⟩,false⟩

def restingEntry : Deployment := ⟨⟨"a","1.0.0",.props "app.a",.singleton,none⟩,0,true,[⟨"/user/a",0,none⟩]⟩

def restingRecords : Records := OrderedMap.empty.insert "a" restingEntry

def restingObserved : ObservedState where
  components := OrderedMap.empty.insert "a" (states (fun _ => false) restingRecords "/user/a")
  componentNodes := OrderedMap.empty.insert "a" "parrot-1"
  liveNodes := ["parrot-1"]
  linksKnown := true

theorem resting_sample : Resting asciiHost restingSupervisor (.ok (some restingSupervisor.state)) restingObserved
    (sampleComponent "a" .singleton []) restingRecords (fun _ => false) restingEntry where
  valid := validate_ok_of_toOption (by decide +kernel)
  current := rfl
  admitted := checkObserved_ok (by decide +kernel)
  declared := List.mem_singleton.mpr rfl
  settled := by decide +kernel
  ready := by simp [sampleComponent]
  source := by decide +kernel
  owned := OrderedMap.get_insert_self
  wellFormed := ⟨by decide +kernel,by decide +kernel,by decide⟩
  lost := ⟨⟨"/user/a",0,none⟩,by decide,.inr rfl⟩
  reported := OrderedMap.get_insert_self

theorem lost_never_replaced_single :
    Resting asciiHost restingSupervisor (.ok (some restingSupervisor.state)) restingObserved (sampleComponent "a" .singleton [])
      restingRecords (fun _ => false) restingEntry ∧
    .wait "a" "instances transitioning" ∈
      (restingSupervisor.reconcileComponents asciiHost (.ok (some restingSupervisor.state)) restingObserved).actions :=
  ⟨resting_sample,(lost_never_replaced asciiHost restingSupervisor (.ok (some restingSupervisor.state)) restingObserved
    (sampleComponent "a" .singleton []) restingRecords (fun _ => false) restingEntry resting_sample).2 (by simp [sampleComponent])⟩

/-- The dead instance gets neither `Drain` nor `Stop` nor `Deploy`, and the component counts as
in transition while nothing is deployed. -/
theorem dead_instance_waits :
    ¬(.drain "a" ∈ (restingSupervisor.reconcileComponents asciiHost (.ok (some restingSupervisor.state)) restingObserved).actions ∧
      .stop "a" ∈ (restingSupervisor.reconcileComponents asciiHost (.ok (some restingSupervisor.state)) restingObserved).actions ∧
      .deploy "a" "parrot-1" ∈
        (restingSupervisor.reconcileComponents asciiHost (.ok (some restingSupervisor.state)) restingObserved).actions) ∧
    (restingSupervisor.reconcileComponents asciiHost (.ok (some restingSupervisor.state)) restingObserved).actions =
      [.wait "a" "instances transitioning"] ∧
    ((states (fun _ => false) restingRecords "/user/a").map ComponentStateReport.state)=["unavailable"] := by decide +kernel

end Parrot.Node
