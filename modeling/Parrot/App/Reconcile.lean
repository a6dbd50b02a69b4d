import Parrot.App.Desired
import Parrot.App.Paths

/-! # Reconciliation (`orchestrator/supervisor.rs:68-142`, `orchestrator/supervisor.rs:368-724`)

One step compares what is declared with what was observed and gives the actions to take. -/

namespace Parrot.App
open List (map_cons nodup_cons mem_map mem_cons)
open Machine Text

structure ComponentStateReport where
  path : String
  state : String
  version : String

structure ObservedNode where
  engine : EngineKind
  role : String
  realm : String
  labels : List String

structure ObservedState where
  components : OrderedMap String (List ComponentStateReport) := .empty
  componentNodes : OrderedMap String String := .empty
  liveNodes : List String := []
  linksKnown : Bool := false
  nodeMetadata : OrderedMap String ObservedNode := .empty

def ObservedState.reports (o : ObservedState) (comp : String) : List ComponentStateReport := (o.components.get comp).getD []

inductive ReconcileAction where
  | deploy (comp node : String)
  | drain (comp : String)
  | stop (comp : String)
  | wait (comp reason : String)
  deriving DecidableEq

def ReconcileAction.comp : ReconcileAction → String
  | .deploy comp _ | .drain comp | .stop comp | .wait comp _ => comp

structure ReconcileReport where
  actions : List ReconcileAction
  converged : Bool
  deriving DecidableEq

def addAll (resource : String) (limit : ℕ) : List ℕ → ℕ → Except AdmissionError ℕ
  | [], total => .ok total
  | amount::amounts, total => do
    let total ← addTo resource total amount limit
    addAll resource limit amounts total

/-- The rows and bytes of the reports. A report is three strings. -/
def checkReports (host : Host) (limits : ApplicationLimits) :
    List (String × List ComponentStateReport) → ℕ → ℕ → Except AdmissionError ℕ
  | [], _, bytes => .ok bytes
  | (name,reports)::entries, rows, bytes => do
    let rows ← addTo "observed instances" rows reports.length limits.maxInstances
    let bytes ← addTo "observed bytes" bytes name.utf8ByteSize limits.maxMetadataBytes
    let bytes ← addAll "observed bytes" limits.maxMetadataBytes (reports.map fun r =>
      r.path.utf8ByteSize+r.state.utf8ByteSize+r.version.utf8ByteSize+3*host.stringSize) bytes
    checkReports host limits entries rows bytes

def checkObserved (host : Host) (limits : ApplicationLimits) (o : ObservedState) : Except AdmissionError Unit := do
  check "observed components" o.components.size limits.maxComponents
  check "observed live nodes" o.liveNodes.length limits.maxCandidates
  let bytes ← checkReports host limits o.components.entries 0 0
  check "observed node metadata" o.nodeMetadata.size limits.maxCandidates
  let bytes ← addAll "observed bytes" limits.maxMetadataBytes (o.nodeMetadata.entries.flatMap fun (node,metadata) =>
    ([node,metadata.role,metadata.realm]++metadata.labels).map fun value => value.utf8ByteSize+host.stringSize) bytes
  check "observed component sources" o.componentNodes.size limits.maxComponents
  let bytes ← addAll "observed bytes" limits.maxMetadataBytes (o.componentNodes.entries.map fun (comp,node) =>
    comp.utf8ByteSize+node.utf8ByteSize+2*host.stringSize) bytes
  let _ ← addAll "observed bytes" limits.maxMetadataBytes (o.liveNodes.map String.utf8ByteSize) bytes
  return ()

def defaultNode (spec : ComponentSpec) : String := spec.engine.asStr++"-gw-1"

def eligibleNode (spec : ComponentSpec) (node : String) (o : ObservedState) : Bool :=
  o.liveNodes.contains node &&
    match o.nodeMetadata.get node with
    | some metadata =>
      metadata.engine==spec.engine&&(spec.placement.role.all fun v => v==metadata.role) &&
        (spec.placement.realm.all fun v => v==metadata.realm)&&(spec.placement.label.all fun v => metadata.labels.contains v)
    | none => spec.placement=={}&&startsWith (spec.engine.asStr++"-") node

def least : List String → Option String
  | [] => none
  | a::l =>
    match least l with
    | none => some a
    | some b => some (if a≤b then a else b)

def nodeFor (spec : ComponentSpec) (o : ObservedState) : Option String :=
  if spec.placement.antiAffinity&&decide (spec.instances.instanceCount>1) then none
  else if o.liveNodes.isEmpty&&!o.linksKnown&&spec.placement=={} then some (defaultNode spec)
  else least (o.liveNodes.filter fun node => eligibleNode spec node o)

/-- The rows of a component in order; a path stands in one row only. -/
def healthyRows (host : Host) (spec : ComponentSpec) (version : String) : List ComponentStateReport → List String → Bool
  | [], _ => true
  | r::reports, paths =>
    r.state == "running" && r.version==version&&ownedRoot host spec.name r.path&&!(r.path.toList.drop 6).contains '/' &&
      spec.ownsWirePath r.path&&!paths.contains r.path&&healthyRows host spec version reports (r.path::paths)

def healthy (host : Host) (spec : ComponentSpec) (version : String) (reports : List ComponentStateReport) : Bool :=
  decide (reports.length=spec.instances.instanceCount)&&healthyRows host spec version reports []

def healthyObservation (host : Host) (spec : ComponentSpec) (version : String) (o : ObservedState) : Bool :=
  if o.linksKnown&&spec.placement.antiAffinity&&decide (spec.instances.instanceCount>1) then false
  else healthy host spec version (o.reports spec.name) &&
    (!o.linksKnown||(o.componentNodes.get spec.name).any fun node => eligibleNode spec node o)

section
variable (host : Host) (state : DesiredStateRecord) (o : ObservedState)

/-- A row of another component, or a path that stands twice. -/
def ambiguous (comp : String) : List ComponentStateReport → List String → Bool
  | [], _ => false
  | r::reports, unique =>
    !ownedRoot host comp r.path||unique.contains r.path||ambiguous comp reports (r.path::unique)

/-- A validated manifest declares its dependencies. -/
def dependencyReady (name : String) : Bool :=
  !state.pending.contains name &&
    (state.manifest.component name).any fun d => healthyObservation host d state.manifest.version o

def settledState (s : String) : Bool := s == "running" || s == "failed" || s == "stopped"

/-- What stands in the way of acting on a component, or the node to act on. -/
def obstacle (spec : ComponentSpec) : Except String String :=
  let reports:=o.reports spec.name
  if state.pending.contains spec.name then .error "upgrade in flight"
  else if spec.deps.any fun name => !dependencyReady host state o name then .error "dependencies not ready"
  else if ambiguous host spec.name reports [] then .error "ambiguous or foreign instance reports"
  else
    match nodeFor spec o with
    | none => .error "no eligible live node"
    | some node =>
      if o.linksKnown&&reports.isEmpty &&
          (!o.components.contains spec.name||o.componentNodes.get spec.name != some node) then
        .error "target component absence has not been observed"
      else if o.linksKnown&&!reports.isEmpty &&
          !((o.componentNodes.get spec.name).any fun node => eligibleNode spec node o) then
        .error "component source node is missing, offline or ineligible"
      else .ok node

def componentActions (spec : ComponentSpec) : List ReconcileAction :=
  let reports:=o.reports spec.name
  match obstacle host state o spec with
  | .error reason => [.wait spec.name reason]
  | .ok node =>
    if healthyObservation host spec state.manifest.version o then []
    else if reports.any fun r => !settledState r.state then [.wait spec.name "instances transitioning"]
    else (if reports.isEmpty then [] else [.drain spec.name,.stop spec.name])++[.deploy spec.name node]

def removalActions (comp : String) (reports : List ComponentStateReport) : List ReconcileAction :=
  if (state.manifest.component comp).isSome||reports.isEmpty then []
  else if (reports.any fun r => !ownedRoot host comp r.path) ||
      (o.linksKnown&&!((o.componentNodes.get comp).any fun node => o.liveNodes.contains node)) then
    [.wait comp "foreign removal reports"]
  else [.drain comp,.stop comp]

def allActions : List ReconcileAction :=
  state.manifest.components.flatMap (componentActions host state o)++
    o.components.entries.flatMap fun e => removalActions host state o e.1 e.2

end

def waiting (comp reason : String) : ReconcileReport := ⟨[.wait comp reason],false⟩

def AppSupervisor.reconcileComponents (host : Host) (s : AppSupervisor) (latest : Except String (Option DesiredStateRecord))
    (o : ObservedState) : ReconcileReport :=
  match s.requireCurrent latest with
  | .error reason => waiting s.state.manifest.name reason
  | .ok () =>
    match checkObserved host s.limits o with
    | .error e => waiting s.state.manifest.name e.text
    | .ok () =>
      let actions:=allActions host s.state o
      ⟨actions,actions.isEmpty⟩

def AppSupervisor.reconcileOnce (host : Host) (s : AppSupervisor) (latest : Except String (Option DesiredStateRecord))
    (o : ObservedState) : ReconcileReport :=
  if !s.state.manifest.mirrors.isEmpty||!s.state.mirrors.entries.isEmpty then
    waiting s.state.manifest.name "mirror executor receipt required"
  else s.reconcileComponents host latest o

variable {host : Host} {state : DesiredStateRecord} {o : ObservedState} {spec : ComponentSpec} {version : String}

variable {reports : List ComponentStateReport}

theorem healthyRows_iff {paths : List String} :
    healthyRows host spec version reports paths=true ↔
      (∀ r∈reports, r.state="running" ∧ r.version=version ∧ ownedRoot host spec.name r.path=true ∧
        '/'∉r.path.toList.drop 6 ∧ spec.ownsWirePath r.path=true ∧ r.path∉paths) ∧
      (reports.map ComponentStateReport.path).Nodup := by
  induction reports generalizing paths with
  | nil => simp [healthyRows]
  | cons r reports ih =>
    rw [List.forall_mem_cons]
    simp only [healthyRows,Bool.and_eq_true,beq_iff_eq,Bool.not_eq_true',List.contains_eq_mem,decide_eq_false_iff_not,ih,
      map_cons,nodup_cons,mem_map,not_exists,not_and,mem_cons,not_or]
    constructor
    · intro h
      obtain ⟨hr,hrest,hnodup⟩:=h
      refine ⟨⟨⟨hr.1.1.1.1.1,hr.1.1.1.1.2,hr.1.1.1.2,hr.1.1.2,hr.1.2,hr.2⟩,?_⟩,?_,hnodup⟩
      · intro r' hr'
        obtain ⟨h₁,h₂,h₃,h₄,h₅,-,h₆⟩:=hrest r' hr'
        exact ⟨h₁,h₂,h₃,h₄,h₅,h₆⟩
      · exact fun r' hr' heq => (hrest r' hr').2.2.2.2.2.1 heq
    · intro h
      obtain ⟨⟨⟨h₁,h₂,h₃,h₄,h₅,h₆⟩,hrest⟩,hne,hnodup⟩:=h
      refine ⟨⟨⟨⟨⟨⟨h₁,h₂⟩,h₃⟩,h₄⟩,h₅⟩,h₆⟩,?_,hnodup⟩
      intro r' hr'
      obtain ⟨g₁,g₂,g₃,g₄,g₅,g₆⟩:=hrest r' hr'
      exact ⟨g₁,g₂,g₃,g₄,g₅,hne r' hr',g₆⟩

theorem ambiguous_iff {comp : String} {unique : List String} :
    ambiguous host comp reports unique=false ↔
      (∀ r∈reports, ownedRoot host comp r.path=true ∧ r.path∉unique) ∧ (reports.map ComponentStateReport.path).Nodup := by
  induction reports generalizing unique with
  | nil => simp [ambiguous]
  | cons r reports ih =>
    rw [List.forall_mem_cons]
    simp only [ambiguous,Bool.or_eq_false_iff,Bool.not_eq_false',List.contains_eq_mem,decide_eq_false_iff_not,ih,
      map_cons,nodup_cons,mem_map,not_exists,not_and,mem_cons,not_or]
    constructor
    · intro h
      obtain ⟨⟨hown,hfresh⟩,hrest,hnodup⟩:=h
      exact ⟨⟨⟨hown,hfresh⟩,fun r' hr' => ⟨(hrest r' hr').1,(hrest r' hr').2.2⟩⟩,fun r' hr' => (hrest r' hr').2.1,hnodup⟩
    · intro h
      obtain ⟨⟨⟨hown,hfresh⟩,hrest⟩,hne,hnodup⟩:=h
      exact ⟨⟨hown,hfresh⟩,fun r' hr' => ⟨(hrest r' hr').1,hne r' hr',(hrest r' hr').2⟩,hnodup⟩

theorem ownedRoot_name {name : String} (h : validPathSegment host name=true) : ownedRoot host name ("/user/"++name)=true := by
  unfold ownedRoot
  rw [stripPrefix_eq_some.mpr rfl]
  simp [h]

theorem ownedRoot_member {name : String} (h : validPathSegment host name=true) {i : ℕ} (hi : i≤2^32-1) :
    ownedRoot host name ("/user/"++name++"-"++toString i)=true := by
  unfold ownedRoot
  have hroot : stripPrefix "/user/" ("/user/"++name++"-"++toString i)=some (name++"-"++toString i) :=
    stripPrefix_eq_some.mpr (by simp [String.append_assoc])
  have hdash : stripPrefix name (name++"-"++toString i)=some ("-"++toString i) :=
    stripPrefix_eq_some.mpr (by simp [String.append_assoc])
  have hindex : stripPrefix "-" ("-"++toString i)=some (toString i) := stripPrefix_eq_some.mpr rfl
  have hne : (toString i).isEmpty=false := by
    rw [← Bool.not_eq_true,String.isEmpty_iff]
    intro hempty
    have hlist : (toString i).toList=Nat.toDigits 10 i := Nat.toList_repr
    rw [hempty] at hlist
    exact Nat.toDigits_ne_nil hlist.symm
  have hzero : ((toString i) == "0" || !startsWith "0" (toString i))=true := by
    rcases Nat.eq_zero_or_pos i with rfl | hpos
    · decide
    · rw [startsWith_zero_repr hpos]
      simp
  rw [hroot]
  simp only [h,Bool.true_eq_false,if_false]
  split
  · rfl
  · rw [hdash,Option.bind_some,hindex,Option.any_some,hne,hzero,repr_digits i,parse_repr hi]
    rfl

theorem checkObserved_ok {limits : ApplicationLimits} (h : (checkObserved host limits o).toOption=some ()) :
    checkObserved host limits o=.ok () := by
  cases hv : checkObserved host limits o with
  | error e => simp [hv,Except.toOption] at h
  | ok u => rfl

theorem least_mem {l : List String} {node : String} (h : least l=some node) : node∈l := by
  induction l generalizing node with
  | nil => contradiction
  | cons a l ih =>
    simp only [least] at h
    cases hl : least l with
    | none =>
      simp only [hl,Option.some.injEq] at h
      simp [h]
    | some b =>
      simp only [hl,Option.some.injEq] at h
      split at h
      · simp [h]
      · exact List.mem_cons_of_mem _ (ih (h ▸ hl))

theorem least_isSome {l : List String} (h : l≠[]) : (least l).isSome := by
  cases l with
  | nil => contradiction
  | cons a l =>
    simp only [least]
    split <;> rfl

theorem nodeFor_eligible (hspread : ¬(spec.placement.antiAffinity=true ∧ spec.instances.instanceCount>1))
    {live : String} (hlive : eligibleNode spec live o=true) :
    ∃ node, nodeFor spec o=some node ∧ eligibleNode spec node o=true := by
  have hmem : live∈o.liveNodes := by
    simp only [eligibleNode,Bool.and_eq_true,List.contains_eq_mem,decide_eq_true_eq] at hlive
    exact hlive.1
  have hfirst : ¬(spec.placement.antiAffinity&&decide (spec.instances.instanceCount>1))=true := by
    simpa using hspread
  have hsecond : ¬(o.liveNodes.isEmpty&&!o.linksKnown&&spec.placement=={})=true := by
    cases hl : o.liveNodes with
    | nil => simp [hl] at hmem
    | cons a l => simp
  have hne : (o.liveNodes.filter fun node => eligibleNode spec node o)≠[] :=
    List.ne_nil_of_mem (List.mem_filter.mpr ⟨hmem,hlive⟩)
  obtain ⟨node,hnode⟩:=Option.isSome_iff_exists.mp (least_isSome hne)
  refine ⟨node,?_,?_⟩
  · rw [nodeFor,if_neg hfirst,if_neg hsecond,hnode]
  · exact (List.mem_filter.mp (least_mem hnode)).2

theorem flatMap_single {α β κ : Type} {l : List α} (key : α → κ) (hnodup : (l.map key).Nodup) {f : α → List β} {a : α}
    (ha : a∈l) (h : ∀ b∈l, key b≠key a → f b=[]) : l.flatMap f=f a := by
  induction l with
  | nil => simp at ha
  | cons b l ih =>
    simp only [map_cons,nodup_cons] at hnodup
    rw [List.flatMap_cons]
    rcases List.mem_cons.mp ha with rfl | hmem
    · have hrest : l.flatMap f=[] := by
        refine List.flatMap_eq_nil_iff.mpr fun b hb => h b (by simp [hb]) ?_
        intro heq
        exact hnodup.1 (List.mem_map.mpr ⟨b,hb,heq⟩)
      rw [hrest,List.append_nil]
    · have hne : key b≠key a := by
        intro heq
        exact hnodup.1 (List.mem_map.mpr ⟨a,hmem,heq.symm⟩)
      rw [h b (by simp) hne,List.nil_append]
      exact ih hnodup.2 hmem fun d hd => h d (by simp [hd])

variable {a : ReconcileAction}

theorem componentActions_comp (h : a∈componentActions host state o spec) : a.comp=spec.name := by
  simp only [componentActions] at h
  split at h
  · rw [List.mem_singleton.mp h]
    rfl
  · split at h
    · simp at h
    · split at h
      · rw [List.mem_singleton.mp h]
        rfl
      · rcases List.mem_append.mp h with h | h
        · split at h
          · simp at h
          · simp only [mem_cons,List.not_mem_nil,or_false] at h
            rcases h with rfl | rfl <;> rfl
        · rw [List.mem_singleton.mp h]
          rfl

theorem removalActions_comp {comp : String}
    (h : a∈removalActions host state o comp reports) : a.comp=comp ∧ state.manifest.component comp=none := by
  unfold removalActions at h
  split at h
  · simp at h
  · rename_i hgone
    simp only [Bool.or_eq_true,not_or,Bool.not_eq_true,Option.isSome_eq_false_iff,Option.isNone_iff_eq_none] at hgone
    refine ⟨?_,hgone.1⟩
    split at h
    · rw [List.mem_singleton.mp h]
      rfl
    · simp only [mem_cons,List.not_mem_nil,or_false] at h
      rcases h with rfl | rfl <;> rfl

theorem mem_allActions (hnames : state.manifest.names.Nodup) (hspec : spec∈state.manifest.components)
    (hcomp : a.comp=spec.name) : a∈allActions host state o ↔ a∈componentActions host state o spec := by
  unfold allActions
  rw [List.mem_append,List.mem_flatMap,List.mem_flatMap]
  constructor
  · rintro (⟨c,hc,ha⟩ | ⟨e,-,ha⟩)
    · have hname:=(componentActions_comp ha).symm.trans hcomp
      rwa [eq_of_name hnames hc hspec hname] at ha
    · obtain ⟨hname,hgone⟩:=removalActions_comp ha
      rw [← hname,hcomp] at hgone
      have:=List.find?_eq_none.mp hgone spec hspec
      simp at this
  · exact fun ha => .inl ⟨spec,hspec,ha⟩

end Parrot.App
