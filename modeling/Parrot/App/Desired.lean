import Parrot.App.Validate
import Parrot.Mirror.Control

/-! # Desired state (`orchestrator/state.rs`, `orchestrator/supervisor.rs:193-392`)

The record that the supervisors of an application share: what is declared, which rollouts are
under way and which mirror sessions they answer for. -/

namespace Parrot.App
open Machine Text Parrot.Mirror Parrot.Directory

structure PendingUpgrade where
  generation : ℕ
  policy : UpgradePolicy
  deriving DecidableEq

inductive MirrorIntentPhase where
  | allocating
  | applying
  | applied
  | closing
  deriving DecidableEq

structure MirrorIntent where
  owner : String
  session : MirrorSessionId
  desired : String
  revision : ℕ
  policies : List MirrorPolicySpec
  phase : MirrorIntentPhase
  deriving DecidableEq

structure DesiredStateRecord where
  revision : ℕ
  manifest : AppManifest
  pending : OrderedMap String PendingUpgrade
  mirrors : OrderedMap String MirrorIntent

/-- What records take from outside besides: the writes that serialising takes, the TOML text
of a value and `{:?}` of the errors of a manifest. -/
structure Serial extends Host where
  journalJson : OrderedMap String MirrorIntent → Writes
  textJson : String → Writes
  manifestToml : AppManifest → Except String String
  componentToml : ComponentSpec → Except String String
  tableToml : TomlTable → Except String String
  debug : List ManifestError → String

variable (serial : Serial) (limits : ApplicationLimits)

def isHexDigit (c : Char) : Bool := c.isDigit||(decide ('a'≤c)&&decide (c ≤ 'f'))||(decide ('A'≤c)&&decide (c ≤ 'F'))

def checkIntent (node : String) (entry : MirrorIntent) : Except String Unit := do
  (limits.checkMetadata (serial.textJson node)).mapError AdmissionError.text
  if node.isEmpty||node.toList.any isControl||entry.session.sequence==0||entry.revision != 1 ||
      entry.desired.utf8ByteSize != 64||!entry.desired.toList.all isHexDigit then
    .error "invalid mirror journal identity or revision"
  else do
    (MirrorControl.allocate entry.owner entry.session).validate
    (MirrorControl.apply entry.session entry.revision entry.policies).validate

def checkAll {κ α : Type} (f : κ → α → Except String Unit) : List (κ × α) → Except String Unit
  | [] => .ok ()
  | (k,a)::entries => do
    f k a
    checkAll f entries

def validateJournal (entries : OrderedMap String MirrorIntent) : Except String Unit :=
  if entries.size>64 then .error "at most 64 mirror node responsibilities"
  else do
    (limits.checkMetadata (serial.journalJson entries)).mapError AdmissionError.text
    checkAll (checkIntent serial limits) entries.entries

namespace DesiredStateRecord

def checkPending (r : DesiredStateRecord) (name : String) (pending : PendingUpgrade) : Except String Unit :=
  match r.manifest.component name with
  | none => .error "pending rollout references undeclared component"
  | some component =>
    if pending.generation=0 ∨ pending.generation>r.revision ∨ pending.policy≠component.upgrade then
      .error "invalid pending rollout generation or policy"
    else .ok ()

def validate (r : DesiredStateRecord) : Except String Unit := do
  (validateWithLimits serial.toHost limits r.manifest).mapError serial.debug
  if r.revision=0 ∨ r.pending.size>r.manifest.components.length then
    .error "invalid desired revision or pending rollout count"
  else do
    validateJournal serial limits r.mirrors
    checkAll r.checkPending r.pending.entries

end DesiredStateRecord

def checkTransition (current : Option DesiredStateRecord) (expected : Option ℕ) (next : DesiredStateRecord) :
    Except String Unit :=
  if current.map DesiredStateRecord.revision≠expected then .error "desired state revision conflict; refresh required"
  else
    match checkedAdd (expected.getD 0) 1 with
    | none => .error "desired revision exhausted"
    | some revision =>
      if next.revision≠revision ∨ (current.any fun s => s.manifest.name != next.manifest.name) then
        .error "invalid desired revision or application identity transition"
      else .ok ()

/-- How writing a record ends: refused before anything is written, failed on the way with the
file replaced or not, or done. The store in memory is always done. -/
inductive Publish where
  | done
  | refused (e : String)
  | failed (e : String) (renamed : Bool)

/-- `file` is what a store that is opened again reads. -/
structure Store where
  limits : ApplicationLimits
  latest : Option DesiredStateRecord
  failed : Bool
  file : Option DesiredStateRecord

namespace Store

def new (limits : ApplicationLimits) : Store := ⟨limits,none,false,none⟩

/-- `latest`; `fault` is an error of the access itself. -/
def read (s : Store) (fault : Option String) : Except String (Option DesiredStateRecord) :=
  match fault with
  | some e => .error e
  | none =>
    if s.failed then .error "desired state owner failed or inherited across fork; reopen required" else .ok s.latest

def commit (s : Store) (publish : Publish) (expected : Option ℕ) (next : DesiredStateRecord) : Store × Except String Unit :=
  match next.validate serial s.limits with
  | .error e => (s,.error e)
  | .ok () =>
    match s.read none with
    | .error e => (s,.error e)
    | .ok latest =>
      match checkTransition latest expected next with
      | .error e => (s,.error e)
      | .ok () =>
        match publish with
        | .refused e => (s,.error e)
        | .failed e renamed => ({s with failed:=true,file:=if renamed then some next else s.file},.error e)
        | .done => ({s with latest:=some next,file:=some next},.ok ())

end Store

structure AppSupervisor where
  limits : ApplicationLimits
  state : DesiredStateRecord
  mirrorExecutor : Bool

def requireMirrorExecutor (manifest : AppManifest) : Except String Unit :=
  if manifest.mirrors.isEmpty then .ok ()
  else .error "cluster mirror reconciliation is not implemented; use local application assembly for mirror policies"

/-- Without an executor for mirrors no record with any is taken. -/
def checkExecutor (mirrorExecutor : Bool) (r : DesiredStateRecord) : Except String Unit :=
  if mirrorExecutor then .ok ()
  else do
    requireMirrorExecutor r.manifest
    if r.mirrors.entries.isEmpty then .ok () else .error "mirror retirement requires MirrorSupervisor"

namespace AppSupervisor

variable (s : AppSupervisor)

def nextRevision : Except String ℕ :=
  match checkedAdd s.state.revision 1 with
  | some revision => .ok revision
  | none => .error "desired revision exhausted"

variable (latest : Except String (Option DesiredStateRecord))

/-- `require_current`, given what the store answers. -/
def requireCurrent : Except String Unit := do
  match ← latest with
  | none => .error "committed desired state disappeared"
  | some current =>
    if current.revision≠s.state.revision then .error "desired state revision conflict; refresh required" else .ok ()

def overlayText : Option TomlTable → Except String (Option String)
  | none => .ok none
  | some table => do
    let text ← serial.tableToml table
    return some text

/-- A change of the version, the overlay or the wiring reaches every component. -/
def globalChange (old m : AppManifest) : Except String Bool :=
  if m.version≠old.version then .ok true
  else do
    let new ← overlayText serial m.configOverlay
    let before ← overlayText serial old.configOverlay
    return decide (new≠before ∨ m.wiring≠old.wiring)

def componentChange (global : Bool) (old c : ComponentSpec) : Except String Bool :=
  if global then .ok true
  else do
    let new ← serial.componentToml c
    let before ← serial.componentToml old
    return decide (new≠before)

/-- The changed components among those that were declared are pending from here on. -/
def markPending (old : AppManifest) (global : Bool) (revision : ℕ) :
    List ComponentSpec → OrderedMap String PendingUpgrade → Except String (OrderedMap String PendingUpgrade)
  | [], pending => .ok pending
  | c::components, pending =>
    match old.component c.name with
    | none => markPending old global revision components pending
    | some before => do
      let changed ← componentChange serial global before c
      markPending old global revision components (if changed then pending.insert c.name ⟨revision,c.upgrade⟩ else pending)

/-- What `submit` asks before it compares. -/
def checkSubmission (m : AppManifest) : Except String Unit := do
  (validateWithLimits serial.toHost s.limits m).mapError serial.debug
  if s.mirrorExecutor then .ok () else requireMirrorExecutor m
  if m.name≠s.state.manifest.name then .error "cannot change application identity" else .ok ()
  s.requireCurrent latest

def replaceManifest (m : AppManifest) : Except String DesiredStateRecord := do
  let revision ← s.nextRevision
  let global ← globalChange serial s.state.manifest m
  let pending ← markPending serial s.state.manifest global revision m.components
    (s.state.pending.retain fun name _ => (m.component name).isSome)
  let next : DesiredStateRecord := ⟨revision,m,pending,s.state.mirrors⟩
  next.validate serial s.limits
  checkExecutor s.mirrorExecutor next
  return next

/-- `submit` up to its commit: nothing to do, or the record to commit. -/
def submit (m : AppManifest) : Except String (Option DesiredStateRecord) := do
  s.checkSubmission serial latest m
  let new ← serial.manifestToml m
  let before ← serial.manifestToml s.state.manifest
  if new=before then return none
  else do
    let next ← s.replaceManifest serial m
    return some next

def upgradeGeneration (comp : String) : Option ℕ := (s.state.pending.get comp).map PendingUpgrade.generation

/-- `finish_upgrade` up to its commit: a stale completion has none. -/
def finishUpgrade (comp : String) (generation : ℕ) :
    Except String (Option DesiredStateRecord) := do
  s.requireCurrent latest
  if s.upgradeGeneration comp≠some generation then return none
  else do
    let revision ← s.nextRevision
    return some {s.state with revision:=revision,pending:=s.state.pending.remove comp}

/-- `commit_mirrors` up to its commit. -/
def commitMirrors (mirrors : OrderedMap String MirrorIntent) :
    Except String DesiredStateRecord := do
  s.requireCurrent latest
  let revision ← s.nextRevision
  let next:={s.state with revision:=revision,mirrors:=mirrors}
  next.validate serial s.limits
  return next

def refresh : Except String DesiredStateRecord := do
  match ← latest with
  | none => .error "committed desired state disappeared"
  | some next =>
    if next.manifest.name≠s.state.manifest.name ∨ next.revision<s.state.revision then
      .error "invalid desired state recovery identity or revision"
    else do
      next.validate serial s.limits
      checkExecutor s.mirrorExecutor next
      return next

/-- `with_executor` up to its commit: the record that was found, or the first one. -/
def withExecutor (manifest : AppManifest) (mirrorExecutor : Bool) :
    Except String (DesiredStateRecord × Bool) := do
  match ← latest with
  | some state =>
    if state.manifest.name≠manifest.name then .error "stored application identity differs from bootstrap"
    else do
      state.validate serial limits
      checkExecutor mirrorExecutor state
      return (state,true)
  | none => do
    let state : DesiredStateRecord := ⟨1,manifest,.empty,.empty⟩
    state.validate serial limits
    checkExecutor mirrorExecutor state
    return (state,false)

end AppSupervisor
end Parrot.App
