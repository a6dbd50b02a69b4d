import Mathlib.Data.List.Sort
import Mathlib.Data.List.TakeWhile
import Mathlib.Data.String.Basic
import Parrot.App.Manifest
import Parrot.Lib.Segments

/-! # Checking a manifest (`manifest.rs:55-96`, `manifest.rs:336-755`)

`validate_with_limits` reports every error it finds, as long as the reports fit their budget. -/

namespace Parrot.App
open Machine Text Parrot.Mirror

def validPathSegment (host : Host) (value : String) : Bool :=
  !value.isEmpty&&value != "." && value != ".." &&
    value.toList.all fun c => host.isAlphanumeric c||c == '-'||c == '_'||c == '.'

def asciiAlphanumeric (c : Char) : Bool := c.isAlphanum

/-- The text without what follows the first `c`, where that is nonempty and of the allowed
characters. -/
def strip (c : Char) (v : String) : Option String :=
  match splitOnce c v with
  | some (core,rest) =>
    if !rest.isEmpty&&rest.toList.all fun ch => asciiAlphanumeric ch||ch == '.'||ch == '-' then some core else none
  | none => some v

def isValidSemver (v : String) : Bool :=
  match (strip '+' v).bind (strip '-') with
  | none => false
  | some nums =>
    let parts:=split '.' nums
    (parts.all fun part => !part.isEmpty&&part.toList.all Char.isDigit &&
      !(decide (part.utf8ByteSize>1)&&startsWith "0" part))&&parts.length==3

def ComponentSpec.hookPath (host : Host) (c : ComponentSpec) (hook instancePath : String) : Except String String := do
  let root := "/user/"++c.name
  let suffix ← if hook == "." || hook==root then pure ""
    else if startsWith "/" hook then
      match stripPrefix (root++"/") hook with
      | some suffix => pure suffix
      | none => .error ("hook "++host.quote hook++" is outside component "++c.name)
    else pure hook
  if !suffix.isEmpty&&(split '/' suffix).any fun segment => !validPathSegment host segment then
    .error ("invalid hook path "++host.quote hook++" for component "++c.name)
  else if hook.isEmpty||hook.toList.getLast? == some '/' then
    .error ("empty hook path/segment for component "++c.name)
  else return if suffix.isEmpty then instancePath else instancePath++"/"++suffix

def wireEndpoint (host : Host) (value : String) : Except String (String × String) :=
  match splitOnce ':' value with
  | none => .error ("wire endpoint requires component:/path: "++host.quote value)
  | some (component,path) =>
    if !validPathSegment host component||!startsWith "/user/" path ||
        !(split '/' (String.ofList (path.toList.drop 1))).all (validPathSegment host) then
      .error ("invalid wire endpoint "++host.quote value)
    else .ok (component,path)

/-- The concrete instance roots, before any budget is checked. -/
def ComponentSpec.instancePaths (c : ComponentSpec) : List String :=
  match c.instances with
  | .singleton | .ephemeral => ["/user/"++c.name]
  | .sharded n | .pool n => (List.range n).map fun i => "/user/"++c.name++"-"++toString i

def ComponentSpec.instancePathsWithLimits (host : Host) (limits : ApplicationLimits) (c : ComponentSpec) :
    Except AdmissionError (List String) := do
  limits.checkComponent host c
  return c.instancePaths

/-- The first segment after `/user/`. -/
def wireRoot (path : String) : Option String :=
  (stripPrefix "/user/" path).map fun tail => (split '/' tail).headD ""

def memberIndex (name root : String) : Option ℕ := do
  let suffix ← stripPrefix name root
  let index ← stripPrefix "-" suffix
  canonical u64Max index

def ComponentSpec.ownsWirePath (c : ComponentSpec) (path : String) : Bool :=
  match wireRoot path with
  | none => false
  | some root =>
    match c.instances with
    | .singleton | .ephemeral => root==c.name
    | .sharded n | .pool n => (memberIndex c.name root).any fun index => decide (index<n)

def checkMirror (m : AppManifest) (seen : List String × ℕ) (policy : MirrorSpec) : Except String (List String × ℕ) := do
  if policy.source=policy.shadow ∨ policy.source∈seen.1 then
    .error "mirror source must be unique and distinct from shadow"
  else
    let some source:=m.component policy.source | .error "unknown mirror source component"
    let some shadow:=m.component policy.shadow | .error "unknown mirror shadow component"
    if shadow.engine ≠ .parrot then .error "mirror shadow must be a local Parrot component"
    else if source.name.utf8ByteSize>4080 ∨ shadow.name.utf8ByteSize>4080 then
      .error "mirror instance path exceeds the Wire path limit"
    else
      let n:=source.instances.instanceCount
      let k:=shadow.instances.instanceCount
      if n=0 ∨ k≠1 ∧ k≠n then .error "mirror requires one shadow instance or equal source/shadow counts"
      else
        let some count:=checkedAdd seen.2 n | .error "mirror instance count overflow"
        if count>64 then .error "at most 64 expanded mirror policies"
        else
          policy.options.validate.mapError WireMirrorError.text
          return (policy.source::seen.1,count)

def checkMirrors (m : AppManifest) : Except String Unit := do
  if m.mirrors.length>64 then .error "at most 64 mirror policies"
  else
    let _ ← m.mirrors.foldlM (checkMirror m) ([],0)
    return ()

structure Report where
  errs : List ManifestError
  bytes : ℕ

abbrev Checked := Except (List ManifestError) Report

section
variable (host : Host) (limits : ApplicationLimits)

/-- An error is kept as long as its text and its size fit the budget; else the checks end. -/
def report (bytes : ℕ) (e : ManifestError) (r : Report) : Checked :=
  match addTo "diagnostic bytes" r.bytes (saturatingAdd bytes host.errorSize) limits.maxDiagnosticBytes with
  | .error a => .error (r.errs++[.admission a])
  | .ok total => .ok ⟨r.errs++[e],total⟩

def reportIf (bad : Prop) [Decidable bad] (bytes : ℕ) (e : ManifestError) (r : Report) : Checked :=
  if bad then report host limits bytes e r else .ok r

def reportError {α : Type} (result : Except String α) (bytes : String → ℕ) (e : String → ManifestError) (r : Report) :
    Checked :=
  match result with
  | .error text => report host limits (bytes text) (e text) r
  | .ok _ => .ok r

def cloudProxyFactory : String := "parrot.cloud-proxy"

variable (c : ComponentSpec)

def checkCloudProxy (r : Report) : Checked :=
  match c.artifact with
  | .props factory =>
    if factory=cloudProxyFactory then do
      let r ← reportIf host limits (c.instances.instanceCount≠1 ∨ c.engine ≠ .parrot) (c.name.utf8ByteSize+64)
        (.badCloudProxy (c.name++" requires one Parrot instance")) r
      reportError host limits (host.cloudProxy c.config) (fun e => c.name.utf8ByteSize+e.utf8ByteSize+2)
        (fun e => .badCloudProxy (c.name++": "++e)) r
    else .ok r
  | _ => .ok r

def checkHooks (r : Report) : Checked :=
  (c.hooks.onStart.toList++c.hooks.onStop.toList++c.hooks.onDrain.toList).foldlM (fun r path =>
    reportError host limits (c.hookPath host path ("/user/"++c.name)) String.utf8ByteSize .badHook r) r

def checkNames : List ComponentSpec → List String → Report → Checked
  | [], _, r => .ok r
  | c::components, seen, r => do
    let r ← reportIf host limits (validPathSegment host c.name=false) c.name.utf8ByteSize (.badComponentName c.name) r
    let count:=c.instances.instanceCount
    let r ← checkCloudProxy host limits c r
    let r ← reportIf host limits (count=0 ∨ count>2^32-1) c.name.utf8ByteSize (.badInstances c.name count) r
    let r ← checkHooks host limits c r
    let r ← reportIf host limits (c.name∈seen) c.name.utf8ByteSize (.duplicateComponent c.name) r
    checkNames components (c.name::seen) r

def AppManifest.names (m : AppManifest) : List String := m.components.map ComponentSpec.name

def checkDeps (m : AppManifest) (r : Report) : Checked :=
  m.components.foldlM (fun r c => c.deps.foldlM (fun r d =>
    reportIf host limits (d∉m.names) (c.name.utf8ByteSize+d.utf8ByteSize) (.unknownDependency c.name d) r) r) r

/-- The dependencies of the last component of a name, as collected into a map. -/
def AppManifest.depsOf (m : AppManifest) (name : String) : List String :=
  ((m.components.reverse.find? fun c => c.name=name).map ComponentSpec.deps).getD []

def AppManifest.keys (m : AppManifest) : List String := m.names.dedup.insertionSort (·≤·)

def findCycle (m : AppManifest) : Option (List String) := Dfs.findCycle m.keys m.depsOf

def checkCycle (m : AppManifest) (r : Report) : Checked :=
  match findCycle m with
  | some cycle => report host limits ((cycle.map fun s => s.utf8ByteSize+host.stringSize).foldl (· + ·) 0) (.cycleDetected cycle) r
  | none => .ok r

def checkArtifact (label : String) (artifact : ArtifactRef) (r : Report) : Checked :=
  reportIf host limits (c.engine.accepts artifact=false) (c.name.utf8ByteSize+32)
    (.engineArtifactMismatch c.name c.engine (label++artifact.kind)) r

def checkArtifacts (m : AppManifest) (r : Report) : Checked :=
  m.components.foldlM (fun r c => do
    let r ← checkArtifact host limits c "" c.artifact r
    c.altArtifact.toList.foldlM (fun r alt => checkArtifact host limits c "alt:" alt r) r) r

def checkEndpoints (m : AppManifest) (w : WireSpec) (r : Report) : Checked :=
  match (do
    let source ← wireEndpoint host w.source
    let target ← wireEndpoint host w.target
    return (source,target)) with
  | .error e => report host limits e.utf8ByteSize (.badWiring e) r
  | .ok ((source,_),target,path) =>
    if source∉m.names ∨ target∉m.names then
      report host limits (w.source.utf8ByteSize+w.target.utf8ByteSize) (.wiringUnreachable w.source w.target) r
    else
      reportIf host limits (((m.component target).any fun c => c.ownsWirePath path)=false) (w.target.utf8ByteSize*2+128)
        (.badWiring ("target "++w.target++" is outside the declared instances of "++target)) r

def checkWiring (m : AppManifest) : List WireSpec → List String → Report → Checked
  | [], _, r => .ok r
  | w::wiring, sources, r => do
    let r ← checkEndpoints host limits m w r
    let r ← reportIf host limits (w.source∈sources) (w.source.utf8ByteSize+64)
      (.badWiring ("duplicate source alias "++w.source)) r
    let r ← reportIf host limits (w.qos∉["","lan","wan"]) (w.qos.utf8ByteSize*10+64)
      (.badWiring ("unknown QoS "++host.quote w.qos)) r
    checkWiring m wiring (w.source::sources) r

/-- Everything that is checked of a manifest with components. -/
def checkGraph (m : AppManifest) (r : Report) : Checked := do
  let r ← checkNames host limits m.components [] r
  let r ← checkDeps host limits m r
  let r ← checkCycle host limits m r
  let r ← checkArtifacts host limits m r
  let r ← checkWiring host limits m m.wiring [] r
  reportError host limits (checkMirrors m) String.utf8ByteSize .badMirror r

def validateWithLimits (m : AppManifest) : Except (List ManifestError) Unit := do
  (limits.checkManifest host m).mapError fun e => [.admission e]
  let r ← reportIf host limits (isValidSemver m.version=false) m.version.utf8ByteSize (.badSemver m.version) ⟨[],0⟩
  if m.components=[] then
    let r ← report host limits 0 .emptyComponents r
    .error r.errs
  else
    let r ← checkGraph host limits m r
    if r.errs=[] then .ok () else .error r.errs

end

section
variable (host : Host) (limits : ApplicationLimits)

def Quiet (P : Prop) (f : Report → Checked) : Prop := ∀ r r', f r=.ok r' → r'.errs=[] → P ∧ r'=r

theorem Quiet.mono {P Q : Prop} {f : Report → Checked} (h : Quiet P f) (hPQ : P → Q) : Quiet Q f := by
  intro r r' hr hempty
  obtain ⟨hP,heq⟩:=h r r' hr hempty
  exact ⟨hPQ hP,heq⟩

theorem Quiet.bind {P Q : Prop} {f g : Report → Checked} (hf : Quiet P f) (hg : Quiet Q g) :
    Quiet (P ∧ Q) fun r => f r >>= g := by
  intro r r' hr hempty
  cases hfr : f r with
  | error e => simp [hfr,Bind.bind,Except.bind] at hr
  | ok r₁ =>
    simp only [hfr,Bind.bind,Except.bind] at hr
    obtain ⟨hQ,rfl⟩:=hg r₁ r' hr hempty
    obtain ⟨hP,heq⟩:=hf r r' hfr hempty
    exact ⟨⟨hP,hQ⟩,heq⟩

theorem quiet_ok {P : Prop} (h : P) : Quiet P .ok := by
  intro r r' hr _
  exact ⟨h,(Except.ok.inj hr).symm⟩

theorem report_quiet {P : Prop} (bytes : ℕ) (e : ManifestError) : Quiet P (report host limits bytes e) := by
  intro r r' hr hempty
  unfold report at hr
  split at hr
  · contradiction
  · cases hr
    simp at hempty

theorem reportIf_quiet (bad : Prop) [Decidable bad] (bytes : ℕ) (e : ManifestError) :
    Quiet (¬bad) (reportIf host limits bad bytes e) := by
  intro r r' hr hempty
  unfold reportIf at hr
  split at hr
  · exact report_quiet host limits bytes e r r' hr hempty
  · rename_i hbad
    exact ⟨hbad,(Except.ok.inj hr).symm⟩

theorem reportError_quiet {α : Type} (result : Except String α) (bytes : String → ℕ) (e : String → ManifestError) :
    Quiet (∃ a, result=.ok a) (reportError host limits result bytes e) := by
  intro r r' hr hempty
  unfold reportError at hr
  split at hr
  · exact report_quiet host limits _ _ r r' hr hempty
  · rename_i a
    exact ⟨⟨a,rfl⟩,(Except.ok.inj hr).symm⟩

theorem foldlM_quiet {α : Type} {P : α → Prop} {f : Report → α → Checked} (l : List α)
    (h : ∀ x∈l, Quiet (P x) fun r => f r x) : Quiet (∀ x∈l, P x) fun r => l.foldlM f r := by
  induction l with
  | nil => exact quiet_ok (by simp)
  | cons x l ih =>
    have htail:=ih fun y hy => h y (List.mem_cons_of_mem _ hy)
    refine Quiet.mono (P := P x ∧ ∀ y∈l, P y) ?_ (by simp)
    intro r r' hr hempty
    simp only [List.foldlM_cons] at hr
    exact ((h x (by simp)).bind htail) r r' hr hempty

theorem checkCloudProxy_quiet (c : ComponentSpec) : Quiet True (checkCloudProxy host limits c) := by
  unfold checkCloudProxy
  split
  · split
    · exact ((reportIf_quiet host limits _ _ _).bind (reportError_quiet host limits _ _ _)).mono fun _ => trivial
    · exact quiet_ok trivial
  · exact quiet_ok trivial

theorem checkHooks_quiet (c : ComponentSpec) : Quiet True (checkHooks host limits c) :=
  (foldlM_quiet _ fun _ _ => reportError_quiet host limits _ _ _).mono fun _ => trivial

structure WellNamed (host : Host) (c : ComponentSpec) : Prop where
  segment : validPathSegment host c.name=true
  positive : 0<c.instances.instanceCount
  bounded : c.instances.instanceCount≤2^32-1

theorem checkNames_quiet (components : List ComponentSpec) (seen : List String) :
    Quiet ((∀ c∈components, WellNamed host c ∧ c.name∉seen) ∧ (components.map ComponentSpec.name).Nodup)
      (checkNames host limits components seen) := by
  induction components generalizing seen with
  | nil => exact quiet_ok (by simp)
  | cons c components ih =>
    have hname:=reportIf_quiet host limits (validPathSegment host c.name=false) c.name.utf8ByteSize (.badComponentName c.name)
    have hcount:=reportIf_quiet host limits (c.instances.instanceCount=0 ∨ c.instances.instanceCount>2^32-1)
      c.name.utf8ByteSize (.badInstances c.name c.instances.instanceCount)
    have hdup:=reportIf_quiet host limits (c.name∈seen) c.name.utf8ByteSize (.duplicateComponent c.name)
    have hall:=hname.bind ((checkCloudProxy_quiet host limits c).bind (hcount.bind
      ((checkHooks_quiet host limits c).bind (hdup.bind (ih (c.name::seen))))))
    refine Quiet.mono hall ?_
    intro h
    obtain ⟨hseg,-,hcount,-,hnew,hrest,hnodup⟩:=h
    rw [not_or] at hcount
    refine ⟨?_,?_⟩
    · intro d hd
      rcases List.mem_cons.mp hd with rfl | hd
      · exact ⟨⟨by simpa using hseg,by omega,by omega⟩,hnew⟩
      · obtain ⟨hwell,hseen⟩:=hrest d hd
        exact ⟨hwell,fun hmem => hseen (List.mem_cons_of_mem _ hmem)⟩
    · rw [List.map_cons,List.nodup_cons]
      refine ⟨?_,hnodup⟩
      intro hmem
      obtain ⟨d,hd,hname⟩:=List.mem_map.mp hmem
      exact (hrest d hd).2 (by simp [hname])

section
variable (m : AppManifest)
include m

theorem checkDeps_quiet : Quiet (∀ c∈m.components, ∀ d∈c.deps, d∈m.names) (checkDeps host limits m) := by
  refine foldlM_quiet m.components fun c _ => ?_
  refine foldlM_quiet (P := fun d => d∈m.names) c.deps fun d _ => ?_
  exact (reportIf_quiet host limits _ _ _).mono not_not.mp

theorem checkCycle_quiet : Quiet (findCycle m=none) (checkCycle host limits m) := by
  unfold checkCycle
  split
  · exact report_quiet host limits _ _
  · rename_i h
    exact quiet_ok h

theorem checkArtifacts_quiet : Quiet True (checkArtifacts host limits m) := by
  refine (foldlM_quiet (P := fun _ => True) m.components fun c _ => ?_).mono fun _ => trivial
  exact ((reportIf_quiet host limits _ _ _).bind (foldlM_quiet (P := fun alt => ¬c.engine.accepts alt=false) _
    fun alt _ => reportIf_quiet host limits _ _ _)).mono fun _ => trivial

theorem checkEndpoints_quiet (w : WireSpec) : Quiet True (checkEndpoints host limits m w) := by
  unfold checkEndpoints
  split
  · exact report_quiet host limits _ _
  · split
    · exact report_quiet host limits _ _
    · exact (reportIf_quiet host limits _ _ _).mono fun _ => trivial

theorem checkWiring_quiet (wiring : List WireSpec) (sources : List String) :
    Quiet True (checkWiring host limits m wiring sources) := by
  induction wiring generalizing sources with
  | nil => exact quiet_ok trivial
  | cons w wiring ih =>
    have halias:=reportIf_quiet host limits (w.source∈sources) (w.source.utf8ByteSize+64)
      (.badWiring ("duplicate source alias "++w.source))
    have hqos:=reportIf_quiet host limits (w.qos∉["","lan","wan"]) (w.qos.utf8ByteSize*10+64)
      (.badWiring ("unknown QoS "++host.quote w.qos))
    exact ((checkEndpoints_quiet host limits m w).bind (halias.bind (hqos.bind (ih (w.source::sources))))).mono fun _ => trivial

end

structure Accepted (host : Host) (m : AppManifest) : Prop where
  nonempty : m.components≠[]
  named : ∀ c∈m.components, WellNamed host c
  distinct : m.names.Nodup
  deps : ∀ c∈m.components, ∀ d∈c.deps, d∈m.names
  acyclic : findCycle m=none
  mirrors : checkMirrors m=.ok ()

theorem checkGraph_quiet (m : AppManifest) (hne : m.components≠[]) : Quiet (Accepted host m) (checkGraph host limits m) := by
  have hall:=(checkNames_quiet host limits m.components []).bind ((checkDeps_quiet host limits m).bind
    ((checkCycle_quiet host limits m).bind ((checkArtifacts_quiet host limits m).bind
      ((checkWiring_quiet host limits m m.wiring []).bind
        (reportError_quiet host limits (checkMirrors m) String.utf8ByteSize .badMirror)))))
  refine Quiet.mono hall ?_
  intro h
  obtain ⟨⟨hnames,hnodup⟩,hdeps,hcycle,-,-,⟨_,hmirrors⟩⟩:=h
  exact ⟨hne,fun c hc => (hnames c hc).1,hnodup,hdeps,hcycle,hmirrors⟩

variable {host limits} {m : AppManifest}

theorem validate_accepted (h : validateWithLimits host limits m=.ok ()) : Accepted host m := by
  unfold validateWithLimits at h
  cases hchecked : limits.checkManifest host m with
  | error e => simp [hchecked,Except.mapError,bind,Except.bind] at h
  | ok _ =>
    simp only [hchecked,Except.mapError,bind,Except.bind] at h
    split at h
    · contradiction
    · rename_i r hver
      split at h
      · split at h <;> contradiction
      · rename_i hne
        cases hgraph : checkGraph host limits m r with
        | error e => simp [hgraph] at h
        | ok r' =>
          simp only [hgraph] at h
          split at h
          · rename_i hempty
            exact (checkGraph_quiet host limits m hne r r' hgraph hempty).1
          · contradiction

end
/-! ## The version grammar -/

section Semver
open String (singleton toList_append)
variable {c : Char} {a a' core v x : String} {pre build o o' : Option String}

/-- A decimal number without leading zeros. -/
def Numeric (s : String) : Prop := s≠"" ∧ s.toList.all Char.isDigit=true ∧ ∀ t, s="0"++t → t=""

def identChar (c : Char) : Bool := asciiAlphanumeric c||c == '-'

def Build (x : String) : Prop := ∀ i∈split '.' x, i≠"" ∧ i.toList.all identChar=true

def Prerelease (x : String) : Prop := Build x ∧ ∀ i∈split '.' x, i.toList.all Char.isDigit=true → Numeric i

def Core (core : String) : Prop := (split '.' core).length=3 ∧ ∀ part∈split '.' core, Numeric part

def optional (c : Char) (o : Option String) : String := o.elim "" (singleton c++·)

/-- `MAJOR.MINOR.PATCH[-prerelease][+build]`, the last two as `R` says. -/
def Version (R : Option String → Option String → Prop) (v : String) : Prop :=
  ∃ core pre build, v=core++optional '-' pre++optional '+' build ∧ Core core ∧ R pre build

def Semver : String → Prop := Version fun pre build => (∀ x∈pre, Prerelease x) ∧ ∀ x∈build, Build x

/- What the code asks of a prerelease and of build metadata. -/
def Characters (x : String) : Prop :=
  x≠"" ∧ x.toList.all (fun ch => asciiAlphanumeric ch||ch == '.'||ch == '-')=true

def Lexical (pre build : Option String) : Prop := (∀ x∈pre, Characters x) ∧ ∀ x∈build, Characters x

theorem mem_split {d : Char} (h : d∈v.toList) (hd : d≠c) : ∃ part∈split c v, d∈part.toList := by
  obtain ⟨s,hs,hmem⟩:=Segments.mem_splitOn.mpr ⟨h,hd⟩
  exact ⟨String.ofList s,List.mem_map_of_mem hs,by rwa [String.toList_ofList]⟩

theorem Build.characters (h : Build x) : Characters x := by
  constructor
  · rintro rfl
    exact (h "" (by decide)).1 rfl
  · rw [List.all_eq_true]
    intro d hd
    by_cases hdot : d = '.'
    · rw [hdot]
      rfl
    · obtain ⟨part,hpart,hmem⟩:=mem_split hd hdot
      have hident:=List.all_eq_true.mp (h part hpart).2 d hmem
      simp only [identChar,Bool.or_eq_true] at hident ⊢
      exact hident.imp_left .inl

theorem Characters.no_plus (h : Characters x) : '+'∉x.toList := fun hmem => by
  have:=List.all_eq_true.mp h.2 _ hmem
  contradiction

theorem Core.not_mem (h : Core core) (hdigit : c.isDigit=false) (hdot : c ≠ '.') : c∉core.toList := fun hmem => by
  obtain ⟨part,hpart,hc⟩:=mem_split hmem hdot
  have:=List.all_eq_true.mp (h.2 part hpart).2.1 c hc
  rw [hdigit] at this
  contradiction

theorem splitOnce_optional (ha : c∉a.toList) : splitOnce c (a++optional c o)=o.map fun b => (a,b) := by
  cases o with
  | none =>
    have hdrop : a.toList.dropWhile (· ≠ c)=[] := by
      rw [List.dropWhile_eq_nil_iff]
      intro d hd
      exact decide_eq_true fun heq => ha (heq ▸ hd)
    simp only [optional,Option.elim_none,String.append_empty,splitOnce,hdrop,Option.map_none]
  | some b => exact splitOnce_append ha b

theorem optional_splitOnce (c : Char) (v : String) : ∃ a o, v=a++optional c o ∧ c∉a.toList := by
  by_cases h : c∈v.toList
  · obtain ⟨l,r,hv,hl⟩:=List.eq_append_cons_of_mem h
    refine ⟨String.ofList l,some (String.ofList r),?_,by rwa [String.toList_ofList]⟩
    apply String.toList_injective
    simpa [optional] using hv
  · exact ⟨v,none,(String.append_empty ..).symm,h⟩

theorem optional_inj (ha : c∉a.toList) (ha' : c∉a'.toList) (h : a++optional c o=a'++optional c o') : a=a' ∧ o=o' := by
  have hsplit:=splitOnce_optional (o := o) ha
  rw [h,splitOnce_optional ha'] at hsplit
  cases o with
  | none =>
    have ho':=Option.map_eq_none_iff.mp hsplit
    subst ho'
    exact ⟨by simpa only [optional,Option.elim_none,String.append_empty] using h,rfl⟩
  | some b =>
    obtain ⟨b',rfl,heq⟩:=Option.map_eq_some_iff.mp hsplit
    cases heq
    exact ⟨rfl,rfl⟩

theorem strip_iff (ha : c∉a.toList) : strip c (a++optional c o)=some x ↔ a=x ∧ ∀ y∈o, Characters y := by
  unfold strip
  rw [splitOnce_optional ha]
  cases o with
  | none => simp [optional]
  | some b => simp [Characters,and_comm]

theorem version_iff {R : Option String → Option String → Prop} (hR : ∀ {pre build}, R pre build → ∀ x∈pre, Characters x)
    (hcore : '-'∉core.toList) (hfirst : '+'∉(core++optional '-' pre).toList) :
    Version R (core++optional '-' pre++optional '+' build) ↔ Core core ∧ R pre build := by
  refine ⟨?_,fun h => ⟨core,pre,build,rfl,h⟩⟩
  rintro ⟨core',pre',build',hv,hcore',hparts⟩
  have hfirst' : '+'∉(core'++optional '-' pre').toList := by
    rw [toList_append,List.mem_append,not_or]
    refine ⟨hcore'.not_mem rfl (by decide),?_⟩
    cases pre' with
    | none => exact List.not_mem_nil
    | some p => simpa [optional] using (hR hparts p rfl).no_plus
  obtain ⟨hpair,rfl⟩:=optional_inj hfirst hfirst' hv
  obtain ⟨rfl,rfl⟩:=optional_inj hcore (hcore'.not_mem rfl (by decide)) hpair
  exact ⟨hcore',hparts⟩

theorem numeric_iff {part : String} : Numeric part ↔ (!part.isEmpty&&part.toList.all Char.isDigit &&
    !(decide (part.utf8ByteSize>1)&&startsWith "0" part))=true := by
  have hzero : (part.utf8ByteSize>1 ∧ startsWith "0" part=true) ↔ ∃ t, part="0"++t ∧ t≠"" := by
    rw [startsWith_iff]
    constructor
    · rintro ⟨hsize,t,rfl⟩
      refine ⟨t,rfl,?_⟩
      rintro rfl
      contradiction
    · rintro ⟨t,rfl,ht⟩
      have hpos : t.utf8ByteSize≠0 := fun h => ht (String.utf8ByteSize_eq_zero_iff.mp h)
      have hone : "0".utf8ByteSize=1 := rfl
      exact ⟨by rw [String.utf8ByteSize_append]; omega,t,rfl⟩
  have hlead : (∀ t, part="0"++t → t="") ↔ ¬(part.utf8ByteSize>1 ∧ startsWith "0" part=true) := by
    rw [hzero]
    simp only [not_exists,not_and,not_not]
  rw [Numeric,hlead]
  simp only [String.isEmpty_iff,Bool.and_eq_true,Bool.not_eq_true',Bool.eq_false_iff,decide_eq_true_eq,and_assoc,ne_eq]

theorem core_iff : ((split '.' core).all (fun part => !part.isEmpty&&part.toList.all Char.isDigit &&
    !(decide (part.utf8ByteSize>1)&&startsWith "0" part))&&(split '.' core).length==3)=true ↔ Core core := by
  rw [Bool.and_eq_true,List.all_eq_true,beq_iff_eq,and_comm]
  exact and_congr_right fun _ => forall₂_congr fun _ _ => numeric_iff.symm

theorem isValidSemver_iff (hcore : '-'∉core.toList) (hfirst : '+'∉(core++optional '-' pre).toList) :
    isValidSemver (core++optional '-' pre++optional '+' build)=true ↔ Core core ∧ Lexical pre build := by
  have hstrip (x : String) : (strip '+' (core++optional '-' pre++optional '+' build)).bind (strip '-')=some x ↔
      core=x ∧ Lexical pre build := by
    simp only [Option.bind_eq_some_iff,strip_iff hfirst]
    constructor
    · rintro ⟨_,⟨rfl,hbuild⟩,hx⟩
      obtain ⟨hx,hpre⟩:=(strip_iff hcore).mp hx
      exact ⟨hx,hpre,hbuild⟩
    · rintro ⟨rfl,hpre,hbuild⟩
      exact ⟨_,⟨rfl,hbuild⟩,(strip_iff hcore).mpr ⟨rfl,hpre⟩⟩
  unfold isValidSemver
  split
  · rename_i hnone
    refine ⟨fun h => by contradiction,fun h => ?_⟩
    have hsome:=(hstrip core).mpr ⟨rfl,h.2⟩
    rw [hnone] at hsome
    contradiction
  · rename_i nums hnums
    obtain ⟨rfl,hlex⟩:=(hstrip nums).mp hnums
    exact core_iff.trans ⟨fun h => ⟨h,hlex⟩,And.left⟩

/-- A version whose optional parts are made of the right characters, but not of identifiers. -/
def Sloppy : String → Prop :=
  Version fun pre build => Lexical pre build ∧ ((∃ x∈pre, ¬Prerelease x) ∨ ∃ x∈build, ¬Build x)

theorem isValidSemver_exact (v : String) : (isValidSemver v=true ↔ Semver v) ↔ ¬Sloppy v := by
  obtain ⟨first,build,rfl,hfirst⟩:=optional_splitOnce '+' v
  obtain ⟨core,pre,rfl,hcore⟩:=optional_splitOnce '-' first
  rw [isValidSemver_iff hcore hfirst,Semver,version_iff (fun h x hx => (h.1 x hx).1.characters) hcore hfirst,
    Sloppy,version_iff (fun h => h.1.1) hcore hfirst]
  have hweak : (∀ x∈pre, Prerelease x) ∧ (∀ x∈build, Build x) → Lexical pre build :=
    fun h => ⟨fun x hx => (h.1 x hx).1.characters,fun x hx => (h.2 x hx).characters⟩
  grind

theorem isValidSemver_zero : isValidSemver "1.0.0-01"=true ∧ ¬Semver "1.0.0-01" := by
  refine ⟨by decide +kernel,fun h => ?_⟩
  rw [Semver,show "1.0.0-01"="1.0.0"++optional '-' (some "01")++optional '+' none by decide +kernel,
    version_iff (fun h x hx => (h.1 x hx).1.characters) (by decide) (by decide)] at h
  exact absurd ((h.2.1 "01" rfl).2 "01" (by decide) (by decide)).2.2 fun hlead => by
    have:=hlead "1" rfl
    contradiction

end Semver

end Parrot.App
