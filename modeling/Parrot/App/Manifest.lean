import Parrot.Lib.Dfs
import Parrot.Mirror.Policy

/-! # The application manifest (`manifest.rs`, `limits.rs`, `mirror.rs` of the application crate)

What an operator declares, and every check it passes before it is planned or stored. -/

namespace Parrot.App
open Machine Text Parrot.Mirror

mutual
inductive TomlValue where
  | string (s : String)
  | integer (n : ℤ)
  | float (bits : UInt64)
  | boolean (b : Bool)
  | datetime (s : String)
  | array (items : TomlArray)
  | table (entries : TomlTable)

inductive TomlArray where
  | nil
  | cons (value : TomlValue) (rest : TomlArray)

inductive TomlTable where
  | nil
  | cons (key : String) (value : TomlValue) (rest : TomlTable)
end

inductive EngineKind where
  | parrot
  | akka
  | ray
  | erlang
  | liteTs
  | liteCpp
  deriving DecidableEq

inductive ArtifactRef where
  | props (factory : String)
  | wasm (digest uri : String)
  | dylib (digest uri : String) (abi : ℕ)
  | jvm (mainClass : String) (coords uri : Option String)
  | pyModule (module : String) (runtimeEnv : Option TomlValue) (uri : Option String)
  | beam (app : String) (uri : Option String)

inductive InstancePolicy where
  | singleton
  | sharded (n : ℕ)
  | pool (n : ℕ)
  | ephemeral
  deriving DecidableEq

structure PlacementConstraint where
  role : Option String := none
  realm : Option String := none
  label : Option String := none
  antiAffinity : Bool := false
  deriving DecidableEq

inductive UpgradePolicy where
  | hotSwap (drainTimeoutMs : ℕ)
  | rolling (maxSurge : ℕ)
  | recreate (stateSnapshots : ℕ)
  deriving DecidableEq

structure ComponentHooks where
  onStart : Option String := none
  onStop : Option String := none
  onDrain : Option String := none

structure ComponentSpec where
  name : String
  engine : EngineKind
  artifact : ArtifactRef
  altArtifact : Option ArtifactRef := none
  instances : InstancePolicy := .singleton
  placement : PlacementConstraint := {}
  upgrade : UpgradePolicy := .hotSwap 5000
  deps : List String := []
  config : Option TomlTable := none
  hooks : ComponentHooks := {}

/-- `source` and `target` are the wire's `from` and `to`. -/
structure WireSpec where
  source : String
  target : String
  qos : String
  deriving DecidableEq

structure MirrorSpec where
  source : String
  shadow : String
  capacity : ℕ := 256
  maxMessageBytes : ℕ := 1024*1024
  maxPendingBytes : ℕ := 8*1024*1024
  deliveryTimeoutMs : ℕ := 100
  deriving DecidableEq

structure AppManifest where
  name : String
  version : String
  components : List ComponentSpec
  wiring : List WireSpec := []
  mirrors : List MirrorSpec := []
  configOverlay : Option TomlTable := none

def EngineKind.accepts : EngineKind → ArtifactRef → Bool
  | .parrot, .props _ | .parrot, .wasm _ _ | .parrot, .dylib _ _ _ => true
  | .akka, .jvm _ _ _ => true
  | .ray, .pyModule _ _ _ => true
  | .erlang, .beam _ _ => true
  | .liteTs, _ | .liteCpp, _ => true
  | _, _ => false

def EngineKind.asStr : EngineKind → String
  | .parrot => "parrot"
  | .akka => "akka"
  | .ray => "ray"
  | .erlang => "erlang"
  | .liteTs => "lite-ts"
  | .liteCpp => "lite-cpp"

def ArtifactRef.kind : ArtifactRef → String
  | .props _ => "props"
  | .wasm _ _ => "wasm"
  | .dylib _ _ _ => "dylib"
  | .jvm _ _ _ => "jvm"
  | .pyModule _ _ _ => "pymodule"
  | .beam _ _ => "beam"

def InstancePolicy.instanceCount : InstancePolicy → ℕ
  | .singleton | .ephemeral => 1
  | .sharded n | .pool n => n

def MirrorSpec.options (m : MirrorSpec) : WireMirrorOptions :=
  ⟨m.capacity,m.maxMessageBytes,m.maxPendingBytes,m.deliveryTimeoutMs⟩

def AppManifest.component (m : AppManifest) (name : String) : Option ComponentSpec :=
  m.components.find? fun c => c.name=name

structure ApplicationLimits where
  maxSourceBytes : ℕ := 4*1024*1024
  maxComponents : ℕ := 1024
  maxDependencies : ℕ := 16384
  maxWires : ℕ := 16384
  maxInstances : ℕ := 16384
  maxMetadataBytes : ℕ := 16*1024*1024
  maxDiagnosticBytes : ℕ := 64*1024
  maxConfigDepth : ℕ := 64
  maxConfigValues : ℕ := 131072
  maxExpandedBytes : ℕ := 16*1024*1024
  maxCandidates : ℕ := 4096
  maxCandidateBytes : ℕ := 4*1024*1024

inductive AdmissionError where
  | exceeded (resource : String) (requested limit : ℕ)
  | overflow (resource : String)
  | serialization (error : String)
  | allocation (resource : String)

def AdmissionError.text : AdmissionError → String
  | .exceeded resource requested limit =>
    "application "++resource++" budget exceeded: requested "++toString requested++", limit "++toString limit
  | .overflow resource => "application "++resource++" accounting overflow"
  | .serialization error => "application metadata serialization failed: "++error
  | .allocation resource => "application allocation failed for "++resource

inductive ManifestError where
  | admission (e : AdmissionError)
  | duplicateComponent (name : String)
  | unknownDependency (comp dep : String)
  | cycleDetected (path : List String)
  | wiringUnreachable (source target : String)
  | badWiring (e : String)
  | badMirror (e : String)
  | badSemver (version : String)
  | engineArtifactMismatch (comp : String) (engine : EngineKind) (artifact : String)
  | emptyComponents
  | badComponentName (name : String)
  | badInstances (comp : String) (count : ℕ)
  | badHook (e : String)
  | badCloudProxy (e : String)

/-- What `serde_json` hands to a writer: the lengths of its writes, and the error it may end
with. -/
structure Writes where
  chunks : List ℕ
  failure : Option String

/-- What the checks take from outside: the Unicode class of a character, the sizes of two
types, the bytes that serialising takes, the reading of a cloud proxy's table and the quoting
of `{:?}`. -/
structure Host where
  isAlphanumeric : Char → Bool
  isAlphanumeric_ascii : ∀ c : Char, c.val<128 → isAlphanumeric c=c.isAlphanum
  stringSize : ℕ
  errorSize : ℕ
  manifestJson : AppManifest → Writes
  componentJson : ComponentSpec → Writes
  cloudProxy : Option TomlTable → Except String Unit
  quote : String → String

def check (resource : String) (requested limit : ℕ) : Except AdmissionError Unit :=
  if requested>limit then .error (.exceeded resource requested limit) else .ok ()

def addTo (resource : String) (total amount limit : ℕ) : Except AdmissionError ℕ :=
  match checkedAdd total amount with
  | none => .error (.overflow resource)
  | some total => do
    check resource total limit
    return total

def product (resource : String) (a b : ℕ) : Except AdmissionError ℕ :=
  match checkedMul a b with
  | none => .error (.overflow resource)
  | some n => .ok n

namespace ApplicationLimits

variable (limits : ApplicationLimits)

mutual
def checkTable (depth : ℕ) (table : TomlTable) (values : ℕ) : Except AdmissionError ℕ := do
  check "config depth" depth limits.maxConfigDepth
  let values ← addTo "config values" values 1 limits.maxConfigValues
  checkEntries (depth+1) table values

def checkEntries (depth : ℕ) : TomlTable → ℕ → Except AdmissionError ℕ
  | .nil, values => .ok values
  | .cons _ v rest, values => do
    let values ← checkValue depth v values
    checkEntries depth rest values

def checkValue (depth : ℕ) : TomlValue → ℕ → Except AdmissionError ℕ
  | .table t, values => do
    check "config depth" depth limits.maxConfigDepth
    checkTable depth t values
  | .array items, values => do
    check "config depth" depth limits.maxConfigDepth
    let values ← addTo "config values" values 1 limits.maxConfigValues
    checkItems (depth+1) items values
  | _, values => do
    check "config depth" depth limits.maxConfigDepth
    addTo "config values" values 1 limits.maxConfigValues

def checkItems (depth : ℕ) : TomlArray → ℕ → Except AdmissionError ℕ
  | .nil, values => .ok values
  | .cons v rest, values => do
    let values ← checkValue depth v values
    checkItems depth rest values
end

def componentValues (c : ComponentSpec) (values : ℕ) : Except AdmissionError ℕ := do
  let values ← match c.config with
    | some table => limits.checkTable 1 table values
    | none => .ok values
  (c.artifact::c.altArtifact.toList).foldlM (fun values artifact =>
    match artifact with
    | .pyModule _ (some v) _ => limits.checkValue 1 v values
    | _ => .ok values) values

def checkMetadata (w : Writes) : Except AdmissionError Unit := do
  let _ ← w.chunks.foldlM (fun total n => addTo "metadata bytes" total n limits.maxMetadataBytes) 0
  match w.failure with
  | some e => .error (.serialization e)
  | none => .ok ()

/-- The digits of the indices below `n`, one length after the other. The bounds run through
the powers of ten up to the largest `u64`, which takes at most 21 turns. -/
def digitBytes (n : ℕ) : ℕ → ℕ → ℕ → ℕ → ℕ → Except AdmissionError ℕ
  | 0, _, _, _, bytes => .ok bytes
  | fuel+1, start, stop, digits, bytes =>
    if start<n then do
      let amount ← product "expanded bytes" (min n stop-start) digits
      let bytes ← addTo "expanded bytes" bytes amount limits.maxExpandedBytes
      digitBytes n fuel stop (min (stop*10) u64Max) (digits+1) bytes
    else .ok bytes

def pathBytes (host : Host) (c : ComponentSpec) : Except AdmissionError ℕ := do
  let n:=c.instances.instanceCount
  check "instances" n limits.maxInstances
  let some head:=checkedAdd c.name.utf8ByteSize (6+host.stringSize) | .error (.overflow "expanded bytes")
  let bytes ← product "expanded bytes" n head
  let bytes ← match c.instances with
    | .pool _ | .sharded _ => do
      let bytes ← addTo "expanded bytes" bytes n limits.maxExpandedBytes
      limits.digitBytes n 21 0 10 1 bytes
    | _ => .ok bytes
  check "expanded bytes" bytes limits.maxExpandedBytes
  return bytes

def checkComponent (host : Host) (c : ComponentSpec) : Except AdmissionError Unit := do
  check "instances" c.instances.instanceCount limits.maxInstances
  let _ ← limits.pathBytes host c
  let _ ← limits.componentValues c 0
  limits.checkMetadata (host.componentJson c)

structure Totals where
  instances : ℕ
  dependencies : ℕ
  expanded : ℕ
  values : ℕ

def countComponent (host : Host) (t : Totals) (c : ComponentSpec) : Except AdmissionError Totals := do
  let instances ← addTo "instances" t.instances c.instances.instanceCount limits.maxInstances
  let dependencies ← addTo "dependencies" t.dependencies c.deps.length limits.maxDependencies
  let bytes ← limits.pathBytes host c
  let expanded ← addTo "expanded bytes" t.expanded bytes limits.maxExpandedBytes
  let values ← limits.componentValues c t.values
  return ⟨instances,dependencies,expanded,values⟩

def checkManifest (host : Host) (m : AppManifest) : Except AdmissionError Unit := do
  check "components" m.components.length limits.maxComponents
  check "wires" m.wiring.length limits.maxWires
  check "mirrors" m.mirrors.length (min limits.maxWires 64)
  let totals ← m.components.foldlM (limits.countComponent host) ⟨0,0,0,0⟩
  let _ ← match m.configOverlay with
    | some table => limits.checkTable 1 table totals.values
    | none => .ok totals.values
  limits.checkMetadata (host.manifestJson m)

end ApplicationLimits
end Parrot.App
