import Parrot.Wire.Codec
import Parrot.Wal.Record

/-! # Batches (`frame.rs:688-970`)

Many messages for one target share the header, the path and the type key of one frame. -/

namespace Parrot.Wire
open Machine
open Bincode (Bytes leBytes ofLeBytes utf8)
open Wal (TraceParent)

namespace Flags

def compressedZstd : UInt16 := 0x0001
def tracing : UInt16 := 0x0002
def batch : UInt16 := 0x0004
def urgent : UInt16 := 0x0008
def tellAck : UInt16 := 0x0010
def appEncrypted : UInt16 := 0x0020
def traceContext : UInt16 := 0x0040
def mirrorShadow : UInt16 := 0x0080

def supported : UInt16 := tracing ||| urgent ||| tellAck ||| batch ||| traceContext ||| mirrorShadow

end Flags

def durableKey : String := "parrot:durable#v1"
def raftKey : String := "parrot:directory:raft#v1"
def clientKey : String := "parrot:directory:client#v1"
def readKey : String := "parrot:directory:read#v1"

def maxBatchItems : ℕ := 1024
def traceContextBytes : ℕ := 25
/- `size_of::<Frame>()`: a header of 24 bytes, two strings and the payload's handle. -/
def frameSize : ℕ := 104

def decodeTraceParent (b : Bytes) : Except FrameError TraceParent :=
  if b.length<traceContextBytes ∨ b.getD 0 0≠1 then .error .invalidTraceContext
  else
    match TraceParent.new ((b.drop 1).take 16) ((b.drop 17).take 8) with
    | .ok parent => .ok parent
    | .error _ => .error .invalidTraceContext

def batchExpandedSize (previous path key payload : ℕ) : Except FrameError ℕ :=
  match [path,key,payload,frameSize].foldlM checkedAdd previous with
  | some n =>
    if n ≤ maxFrameLen then .ok n else .error (.batchLimit "expanded bytes" maxFrameLen)
  | none => .error (.batchLimit "expanded bytes" maxFrameLen)

namespace Frame

def splitTraceParent (f : Frame) : Except FrameError (Option TraceParent × Bytes) :=
  if f.header.flags &&& Flags.traceContext=0 then .ok (none,f.payload)
  else if f.header.flags &&& Flags.batch≠0 ∨
      ¬(f.header.frameType=FrameType.ask ∨ f.header.frameType=FrameType.tell) then
    .error .invalidTraceContext
  else do
    let parent ← decodeTraceParent f.payload
    return (some parent,f.payload.drop traceContextBytes)

/-- Flags that say something this runtime cannot interpret. -/
def Unsupported (f : Frame) : Prop :=
  (f.typeKey=durableKey ∧
    (f.header.frameType≠FrameType.tell ∨ f.header.flags &&& Flags.tellAck=0)) ∨
  f.header.flags &&& ~~~Flags.supported≠0 ∨
  (f.header.flags &&& Flags.mirrorShadow≠0 ∧
    (f.header.frameType≠FrameType.tell ∨ f.header.flags &&& Flags.tellAck=0 ∨
      f.header.flags &&& (Flags.batch ||| Flags.urgent)≠0 ∨
      (f.typeKey=durableKey ∨ f.typeKey=readKey ∨ f.typeKey=clientKey ∨ f.typeKey=raftKey))) ∨
  (f.header.flags &&& Flags.traceContext≠0 ∧
    ¬(f.header.frameType=FrameType.ask ∨ f.header.frameType=FrameType.tell)) ∨
  (f.header.flags &&& Flags.tellAck≠0 ∧
    (f.header.frameType≠FrameType.tell ∨ f.header.seq≠seqNone ∨
      (f.header.flags &&& Flags.batch=0 ∧ f.header.correlationId=0))) ∨
  f.header.flags &&& (Flags.batch ||| Flags.urgent)=Flags.batch ||| Flags.urgent ∨
  (f.header.flags &&& Flags.batch≠0 ∧
    ¬(f.header.frameType=FrameType.ask ∨ f.header.frameType=FrameType.tell ∨
      f.header.frameType=FrameType.reply))

instance (f : Frame) : Decidable f.Unsupported :=
  inferInstanceAs (Decidable (_ ∨ _ ∨ _ ∨ _ ∨ _ ∨ _ ∨ _))

def validatePayloadFlags (f : Frame) : Except FrameError Unit := do
  if f.Unsupported then .error (.unsupportedFlags f.header.flags)
  else
    if f.header.flags &&& Flags.traceContext≠0 ∧ f.header.flags &&& Flags.batch=0 then
      let _ ← f.splitTraceParent
    if f.header.flags &&& Flags.mirrorShadow≠0 then
      let (_,payload) ← f.splitTraceParent
      let budget:=readLe payload 0 4
      if ¬(4≤payload.length ∧ 1≤budget ∧ budget≤60000) then
        .error (.unsupportedFlags f.header.flags)

structure Sums where
  encoded : ℕ
  expanded : ℕ
  hopCount : UInt8
  hopLimit : UInt8

def Batchable (first f : Frame) : Prop :=
  (f.header.frameType=FrameType.ask ∨ f.header.frameType=FrameType.tell ∨
    f.header.frameType=FrameType.reply) ∧
  f.header.frameType=first.header.frameType ∧ f.path=first.path ∧ f.typeKey=first.typeKey ∧
  f.header.flags=first.header.flags ∧ f.header.flags &&& (Flags.batch ||| Flags.urgent)=0 ∧
  f.header.version=protocolVersion ∧ f.header.seq=seqNone

instance (first f : Frame) : Decidable (Batchable first f) :=
  inferInstanceAs (Decidable (_ ∧ _ ∧ _ ∧ _ ∧ _ ∧ _ ∧ _ ∧ _))

def addMember (first : Frame) (total : ℕ) (s : Sums) (f : Frame) : Except FrameError Sums := do
  f.validatePayloadFlags
  if ¬Batchable first f then .error (.batchMalformed 0 total)
  else
    match (checkedAdd s.encoded 12).bind fun n => checkedAdd n f.payload.length with
    | none => .error (.batchMalformed 0 total)
    | some encoded =>
      let expanded ← batchExpandedSize s.expanded f.path.utf8ByteSize f.typeKey.utf8ByteSize f.payload.length
      return ⟨encoded,expanded,max s.hopCount f.header.hopCount,min s.hopLimit f.header.hopLimit⟩

def item (f : Frame) : Bytes :=
  leBytes 8 f.header.correlationId.toNat++(leBytes 4 f.payload.length++f.payload)

def batch (frames : List Frame) : Except FrameError Frame :=
  match frames with
  | [] => .error (.batchEmpty 0)
  | first::rest => do
    if frames.length>maxBatchItems then .error (.batchLimit "item count" maxBatchItems)
    else
      let s ← (first::rest).foldlM (addMember first frames.length) ⟨8,0,0,255⟩
      if s.hopCount≥s.hopLimit then .error (.hopExceeded s.hopCount s.hopLimit)
      else
        match ((checkedAdd s.encoded bodyFixedOverhead).bind fun n =>
            checkedAdd n first.path.utf8ByteSize).bind fun n => checkedAdd n first.typeKey.utf8ByteSize with
        | none => .error (.batchMalformed 0 frames.length)
        | some body =>
          if body>maxFrameLen then .error (.batchLimit "encoded bytes" maxFrameLen)
          else
            return ⟨{first.header with
              frameLen := 0
              flags := first.header.flags ||| Flags.batch
              correlationId := 0
              hopCount := s.hopCount
              hopLimit := s.hopLimit},first.path,first.typeKey,
              leBytes 8 frames.length++(frames.map item).flatten⟩

/-- The members that follow `position`: where they end. -/
def walkMembers (f : Frame) : ℕ → ℕ → ℕ → Except FrameError ℕ
  | 0,position,_ => .ok position
  | remaining+1,position,expanded => do
    if f.payload.length-position<12 then .error (.batchMalformed position f.payload.length)
    else if f.header.flags &&& Flags.tellAck≠0 ∧ readLe f.payload position 8=0 then
      .error (.batchMalformed position f.payload.length)
    else
      let size:=readLe f.payload (position+8) 4
      let position:=position+12
      if size>f.payload.length-position then .error (.batchMalformed position f.payload.length)
      else
        if f.header.flags &&& Flags.traceContext≠0 then
          let _ ← decodeTraceParent ((f.payload.drop position).take size)
        let expanded ← batchExpandedSize expanded f.path.utf8ByteSize f.typeKey.utf8ByteSize size
        walkMembers f remaining (position+size) expanded

structure BatchFrames where
  frame : Frame
  position : ℕ
  remaining : ℕ

def batchFrames (f : Frame) : Except FrameError BatchFrames := do
  f.validatePayloadFlags
  if f.header.flags &&& Flags.batch=0 ∨ f.header.version≠protocolVersion ∨ f.header.seq≠seqNone then
    .error (.batchMalformed 0 f.payload.length)
  else if f.header.hopCount≥f.header.hopLimit then .error (.hopExceeded f.header.hopCount f.header.hopLimit)
  else if f.payload.length<8 then .error (.batchEmpty f.payload.length)
  else
    let count:=readLe f.payload 0 8
    if count=0 then .error (.batchEmpty 0)
    else if count>maxBatchItems then .error (.batchLimit "item count" maxBatchItems)
    else
      let position ← f.walkMembers count 8 0
      if position≠f.payload.length then .error (.batchMalformed position f.payload.length)
      else return ⟨f,8,count⟩

def BatchFrames.next (it : BatchFrames) : Except Panic (Option (Frame × BatchFrames)) :=
  if it.remaining=0 then .ok none
  else do
    let cid ← slice it.frame.payload it.position (it.position+8)
    let len ← slice it.frame.payload (it.position+8) (it.position+12)
    let position:=it.position+12
    let payload ← slice it.frame.payload position (position+ofLeBytes len)
    return some (⟨{it.frame.header with
      flags := it.frame.header.flags &&& ~~~Flags.batch
      frameLen := 0
      correlationId := .ofNat (ofLeBytes cid)},it.frame.path,it.frame.typeKey,payload⟩,
      ⟨it.frame,position+ofLeBytes len,it.remaining-1⟩)

/-- The iterator run to its end: `remaining` calls and the one that says so. -/
def BatchFrames.collect (it : BatchFrames) : Except Panic (List Frame) :=
  go (it.remaining+1) it
where
  go : ℕ → BatchFrames → Except Panic (List Frame)
    | 0,_ => .ok []
    | fuel+1,it => do
      match ← it.next with
      | none => return []
      | some (f,it) => return f::(← go fuel it)

def iterBatch (f : Frame) : Except FrameError (Except Panic (List Frame)) := do
  return (← f.batchFrames).collect

end Frame
end Parrot.Wire
