import Parrot.App.Desired

/-! # Desired state on disk (`orchestrator/file_state.rs`)

One owner of a directory keeps the last committed record in `desired.state`. -/

namespace Parrot.App
open Machine CrashFs

def stateMagic : Bytes := [0x50,0x44,0x45,0x53,0x30,0x31,0x00,0x00]
def maxRecord : ℕ := 32*1024*1024

/- `desired.state` and `desired.next`. -/
inductive StateFile where
  | state
  | next
  deriving DecidableEq

/-- `serde_json` over a record, with the TOML of its manifest: the bytes of each write and the
error that serialising may end with, and reading. -/
structure RecordCodec where
  writes : DesiredStateRecord → List Bytes × Option String
  read : Bytes → Except String DesiredStateRecord

/-- What was serialised completely is read back as it was. -/
def RecordCodec.RoundTrips (codec : RecordCodec) : Prop :=
  ∀ r chunks, codec.writes r=(chunks,none) → codec.read chunks.flatten=.ok r

/-- The operating system fails a call, or the process ends there, after `budget` bytes and calls. -/
structure Fault where
  budget : ℕ
  text : String

def stateError (e : String) : String := "desired storage: "++e

/-- The writer of `encode`. -/
def boundedWrites (written : Bytes) : List Bytes → Except String Bytes
  | [] => .ok written
  | bytes::rest =>
    if bytes.length>maxRecord-written.length then .error "desired snapshot exceeds 32 MiB"
    else boundedWrites (written++bytes) rest

section codec
variable (codec : RecordCodec)

def encode (r : DesiredStateRecord) : Except String Bytes := do
  let bytes ← (boundedWrites [] (codec.writes r).1).mapError stateError
  match (codec.writes r).2 with
  | some e => .error (stateError e)
  | none => return bytes

def stateChunks (bytes : Bytes) : List Bytes := [stateMagic,Sha256.digest bytes,bytes]

def publishState (fault : Fault) (bytes : Bytes) (d : Disk StateFile) : Disk StateFile × Except String Unit :=
  match d.exec fault.budget (replace .next .state (stateChunks bytes)) with
  | (d',none) => (d',.error (stateError fault.text))
  | (d',some _) => (d',.ok ())

section limits
variable (serial : Serial) (limits : ApplicationLimits)

/-- The checks of `open` on the bytes of `desired.state`. -/
def loadState (file : Bytes) : Except String DesiredStateRecord :=
  let bytes:=file.take (maxRecord+41)
  if bytes.length<40 ∨ bytes.length>maxRecord+40 ∨ bytes.take 8≠stateMagic ∨
      Sha256.digest (bytes.drop 40)≠(bytes.drop 8).take 32 then
    .error "corrupt or oversized desired state snapshot"
  else do
    let state ← (codec.read (bytes.drop 40)).mapError stateError
    state.validate serial limits
    return state

structure FileStateStore where
  limits : ApplicationLimits
  pid : ℕ
  latest : Option DesiredStateRecord
  failed : Bool

namespace FileStateStore

def syncParent (fault : Fault) (s : FileStateStore) :
    Disk StateFile × Option ℕ → Disk StateFile × Except String FileStateStore
  | (d,some (_+1)) => (d,.ok s)
  | (d,_) => (d,.error (stateError fault.text))

/-- `open`; `place` is what comes of reaching the directory, its lock and the files in it. -/
def openStore (place : Except String Unit) (pid : ℕ) (fault : Fault) (d : Disk StateFile) :
    Disk StateFile × Except String FileStateStore :=
  match place with
  | .error e => (d,.error e)
  | .ok () =>
    let stale:=if (d.read .next).isSome then [Effect.unlink StateFile.next,.syncDir] else []
    match d.read .state with
    | some file =>
      match loadState codec serial limits file with
      | .error e => (d,.error e)
      | .ok state => syncParent fault ⟨limits,pid,some state,false⟩ (d.exec fault.budget ([.sync .state,.syncDir]++stale))
    | none =>
      if (d.read .next).isSome then (d,.error "incomplete initial desired commit; refusing reset")
      else syncParent fault ⟨limits,pid,none,false⟩ (d,some fault.budget)

end FileStateStore
end limits

structure CommitOutcome where
  disk : Disk StateFile
  store : FileStateStore
  result : Except String Unit

namespace FileStateStore

variable (s : FileStateStore) (pid : ℕ)

def ensurePid : Except String Unit :=
  if s.pid≠pid then .error "desired state inherited across fork; reopen required" else .ok ()

def checkOwner : Except String Unit :=
  if s.pid≠pid ∨ s.failed then .error "desired state owner failed or inherited across fork; reopen required" else .ok ()

/-- `commit` up to the publication: the bytes to publish. -/
def prepare (serial : Serial) (expected : Option ℕ) (state : DesiredStateRecord) : Except String Bytes := do
  s.ensurePid pid
  state.validate serial s.limits
  s.checkOwner pid
  checkTransition s.latest expected state
  encode codec state

def commit (serial : Serial) (fault : Fault) (expected : Option ℕ) (state : DesiredStateRecord) (d : Disk StateFile) :
    CommitOutcome :=
  match s.prepare codec pid serial expected state with
  | .error e => ⟨d,s,.error e⟩
  | .ok bytes =>
    match publishState fault bytes d with
    | (d',.error e) => ⟨d',{s with failed:=true},.error e⟩
    | (d',.ok ()) => ⟨d',{s with latest:=some state},.ok ()⟩

def currentRevision : Except String (Option ℕ) := do
  s.ensurePid pid
  s.checkOwner pid
  return s.latest.map DesiredStateRecord.revision

def read : Except String (Option DesiredStateRecord) := do
  s.ensurePid pid
  s.checkOwner pid
  return s.latest

end FileStateStore
end codec
end Parrot.App
