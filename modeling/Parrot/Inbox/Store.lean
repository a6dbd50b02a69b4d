import Mathlib.Data.Prod.Lex
import Mathlib.Data.String.Basic
import Parrot.Directory.Command
import Parrot.Lib.SortedMap
import Parrot.Wal.Record
import Parrot.Wire.Frame

/-! # The transactional inbox (`durable/envelope.rs:10-68`, `durable/inbox.rs:342-600`)

The business state and the watermarks of the streams are one snapshot, which every new message
replaces atomically. -/

namespace Parrot.Inbox
open Machine CrashFs
open Bincode (leBytes ofLeBytes)
open Wal (checksum)

structure DurableEnvelope where
  source : String
  session : String
  receiver : String
  path : String
  sequence : ℕ
  typeKey : String
  payload : Bytes
  deriving DecidableEq

def durableKey : String := "parrot:durable#v1"
def durableReceiptKey : String := "parrot:durable-completed#v1"

namespace DurableEnvelope

variable (e : DurableEnvelope)

def targetPath : String := "parrot://"++e.receiver++e.path

def encodedLen : Except String ℕ :=
  match [e.source.utf8ByteSize,e.session.utf8ByteSize,e.receiver.utf8ByteSize,e.path.utf8ByteSize,
      e.typeKey.utf8ByteSize,e.payload.length].foldlM checkedAdd 19 with
  | some n => .ok n
  | none => .error "durable size overflow"

def validateNode (node : String) : Except String Unit :=
  if node.utf8ByteSize>1024 then .error "durable node identity too long"
  else Directory.validateNodeId node

def validate : Except String Unit := do
  validateNode e.source
  validateNode e.receiver
  if e.sequence=0 ∨ e.session.isEmpty ∨ e.session.utf8ByteSize>1024 ∨ e.session.toList.contains '\x00' ∨
      e.path.toList.head? ≠ some '/' ∨ e.path.utf8ByteSize>4096 ∨ e.path.toList.contains '\x00' ∨
      e.typeKey.isEmpty ∨ e.typeKey.utf8ByteSize>1024 ∨ e.typeKey=durableKey ∨
      e.typeKey=durableReceiptKey ∨ e.typeKey="#ack" then
    .error "invalid durable identity, sequence, path or type key"
  else
    let size ← e.encodedLen
    let total:=(checkedAdd size e.targetPath.utf8ByteSize).bind
      (checkedAdd · (durableKey.utf8ByteSize+Wire.bodyFixedOverhead))
    if total.all fun n => decide (n>Wire.maxFrameLen) then .error "durable frame budget exceeded"
    else .ok ()

end DurableEnvelope

structure InboxLimits where
  maxStateBytes : ℕ
  maxSnapshotBytes : ℕ
  maxStreams : ℕ
  maxStreamBytes : ℕ

/- `io` is `Storage` with a text of the operating system, which the model leaves out. -/
inductive InboxError where
  | invalid (reason : String)
  | capacity
  | gap (expected received : ℕ)
  | business (reason : String)
  | storage (reason : String)
  | io
  deriving DecidableEq

inductive InboxFile where
  | state
  | next
  deriving DecidableEq

abbrev StreamKey := String ×ₗ String

structure Saved where
  version : UInt8
  node : String
  path : String
  revision : ℕ
  state : Bytes
  streams : List (StreamKey × ℕ)
  deriving DecidableEq

/- `bincode` over `Saved`, read back under the limits of `Store::open`: what decodes an
encoded snapshot at all returns that snapshot. -/
structure InboxCodec where
  encode : Saved → Bytes
  decode : InboxLimits → Bytes → Except String Saved
  decode_encode : ∀ limits s s', decode limits (encode s)=.ok s' → s'=s

def savedCodec : Bincode.Codec Saved :=
  (Bincode.u8.pair <| Bincode.string.pair <| Bincode.string.pair <| Bincode.u64.pair <| Bincode.bytes.pair <|
    ((Bincode.string.pair Bincode.string).pair Bincode.u64).list).via
    (fun s => (s.version,s.node,s.path,s.revision,s.state,s.streams.map fun e => (ofLex e.1,e.2)))
    (fun p => some ⟨p.1,p.2.1,p.2.2.1,p.2.2.2.1,p.2.2.2.2.1,p.2.2.2.2.2.map fun e => (toLex e.1,e.2)⟩) fun s => by
      have hstreams : (s.streams.map fun e => (ofLex e.1,e.2)).map (fun e => (toLex e.1,e.2))=s.streams := by
        rw [List.map_map]
        exact List.map_id _
      dsimp only
      rw [hstreams]

def InboxCodec.standard : InboxCodec where
  encode := savedCodec.encode
  decode limits bytes := if bytes.length>limits.maxSnapshotBytes then .error "payload exceeds limit"
    else
      match savedCodec.decode bytes with
      | some (s,[]) => .ok s
      | _ => .error "snapshot codec"
  decode_encode := by
    intro limits s s' h
    split at h
    · contradiction
    · have hdec:=savedCodec.decode_encode s []
      rw [List.append_nil] at hdec
      rw [hdec] at h
      by_cases hfit : savedCodec.fits s=true
      · rw [if_pos hfit] at h
        exact (Except.ok.inj h).symm
      · rw [if_neg hfit] at h
        contradiction

structure Store where
  saved : Saved
  failed : Bool

inductive Verdict where
  | next (state : Bytes)
  | refused (reason : String)
  | panicked

def Verdict.state : Verdict → Option Bytes
  | .next state => some state
  | _ => none

abbrev Transition := Bytes → DurableEnvelope → Verdict

def magic : Bytes := [0x50,0x49,0x4e,0x42,0x4f,0x58,0x31,0x00]

/-- The loop of `validate`. -/
def checkStreams : List (StreamKey × ℕ) → ℕ → Except InboxError ℕ
  | [],size => .ok size
  | (key,seq)::rest,size =>
    let (source,session):=ofLex key
    if source.utf8ByteSize>1024 ∨ (Directory.validateNodeId source).toBool=false ∨ session.isEmpty ∨
        session.utf8ByteSize>1024 ∨ session.toList.contains '\x00' ∨ seq=0 then
      .error (.storage "invalid saved stream identity")
    else
      match checkedAdd size (source.utf8ByteSize+session.utf8ByteSize) with
      | none => .error .capacity
      | some size => checkStreams rest size

def Saved.validate (limits : InboxLimits) (s : Saved) : Except InboxError Unit := do
  let size ← checkStreams s.streams 0
  if s.state.length>limits.maxStateBytes ∨ s.streams.length>limits.maxStreams ∨
      size>limits.maxStreamBytes then .error .capacity
  else .ok ()

def Saved.initial (node path : String) (state : Bytes) : Saved := ⟨1,node,path,0,state,[]⟩

def Saved.watermark (s : Saved) (key : StreamKey) : ℕ := (s.streams.lookup key).getD 0

def DurableEnvelope.key (e : DurableEnvelope) : StreamKey := toLex (e.source,e.session)

section codec
variable (codec : InboxCodec) (limits : InboxLimits)

def chunks (s : Saved) : List Bytes := [magic,leBytes 4 (checksum (codec.encode s)),codec.encode s]
def image (s : Saved) : Bytes := (chunks codec s).flatten

def load (bytes : Bytes) : Except InboxError Saved :=
  if bytes.length<12 ∨ bytes.length>limits.maxSnapshotBytes ∨ bytes.take 8≠magic ∨
      checksum (bytes.drop 12)≠ofLeBytes ((bytes.drop 8).take 4) then
    .error (.storage "corrupt inbox snapshot")
  else
    match codec.decode limits (bytes.drop 12) with
    | .error e => .error (.storage e)
    | .ok s => .ok s

/-- What a call leaves behind: the disk, the store and the caller's result. -/
structure Outcome where
  disk : Disk InboxFile
  store : Store
  result : Except InboxError Unit

def Store.write (budget : ℕ) (store : Store) (saved : Saved) (d : Disk InboxFile) : Outcome :=
  if 12+(codec.encode saved).length>limits.maxSnapshotBytes then ⟨d,store,.error .capacity⟩
  else
    match d.exec budget (replace .next .state (chunks codec saved)) with
    | (d',none) => ⟨d',{store with failed:=true},.error .io⟩
    | (d',some _) => ⟨d',store,.ok ()⟩

/-- What a readable `inbox.state` must satisfy before anything is touched. -/
def accept (node path : String) (bytes : Bytes) : Except InboxError Saved := do
  let saved ← load codec limits bytes
  if saved.version≠1 ∨ saved.node≠node ∨ saved.path≠path then
    .error (.invalid "saved receiver binding mismatch")
  else
    saved.validate limits
    return saved

def Store.open (node path : String) (initial : Bytes) (budget : ℕ) (d : Disk InboxFile) :
    Disk InboxFile × Except InboxError Store :=
  match d.read .state with
  | some bytes =>
    match accept codec limits node path bytes with
    | .error e => (d,.error e)
    | .ok saved =>
      let stale:=if (d.read .next).isSome then [Effect.unlink InboxFile.next,.syncDir] else []
      match d.exec budget (stale++[.sync .state,.syncDir]) with
      | (d',none) => (d',.error .io)
      | (d',some _) => (d',.ok ⟨saved,false⟩)
  | none =>
    if (d.read .next).isSome then
      (d,.error (.storage "incomplete initial snapshot; refusing reset"))
    else
      let saved:=Saved.initial node path initial
      match saved.validate limits with
      | .error e => (d,.error e)
      | .ok () =>
        match Store.write codec limits budget ⟨saved,false⟩ saved d with
        | ⟨d',_,.error e⟩ => (d',.error e)
        | ⟨d',store,.ok ()⟩ => (d',.ok store)

def Store.advance (transition : Transition) (store : Store) (e : DurableEnvelope) :
    Except InboxError (Option Saved) := do
  if e.receiver≠store.saved.node ∨ e.path≠store.saved.path then
    .error (.invalid "receiver binding mismatch")
  else
    let watermark:=store.saved.watermark e.key
    if e.sequence≤watermark then return none
    else
      match checkedAdd watermark 1 with
      | none => .error (.invalid "stream exhausted")
      | some next =>
        if e.sequence≠next then .error (.gap next e.sequence)
        else
          let saved:={store.saved with streams:=SortedMap.insert e.key e.sequence store.saved.streams}
          saved.validate limits
          match checkedAdd saved.revision 1 with
          | none => .error (.invalid "revision exhausted")
          | some revision =>
            match transition store.saved.state e with
            | .refused reason => .error (.business (String.ofList (reason.toList.take 1024)))
            | .panicked => .error (.business "transition panicked")
            | .next state =>
              let saved:={saved with revision:=revision,state:=state}
              saved.validate limits
              return some saved

def Store.apply (transition : Transition) (budget : ℕ) (store : Store) (e : DurableEnvelope)
    (d : Disk InboxFile) : Outcome :=
  match store.advance limits transition e with
  | .error err => ⟨d,store,.error err⟩
  | .ok none => ⟨d,store,.ok ()⟩
  | .ok (some saved) =>
    match store.write codec limits budget saved d with
    | ⟨d',store,.error err⟩ => ⟨d',store,.error err⟩
    | ⟨d',store,.ok ()⟩ => ⟨d',{store with saved:=saved},.ok ()⟩

end codec
end Parrot.Inbox
