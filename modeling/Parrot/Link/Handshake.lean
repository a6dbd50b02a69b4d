import Parrot.Lib.Tlv
import Parrot.Link.Sender

/-! # The handshake (`handshake.rs`, `transport.rs:260-319, 505-646, 895-926`)

The connecting side sends its own record of itself, the accepting side answers with its
own and the codec it chose, and both work out the limits of the connection for themselves. -/

namespace Parrot.Link
open Machine Parrot.Wire
open Bincode (Bytes leBytes ofLeBytes utf8)

namespace TlvTag

def nodeId : UInt8 := 1
def realm : UInt8 := 2
def cluster : UInt8 := 3
def capabilities : UInt8 := 4
def maxFrameLen : UInt8 := 5
def topologyRole : UInt8 := 6
def hopLimit : UInt8 := 7
def directAddr : UInt8 := 8
def chosenCodec : UInt8 := 9

end TlvTag

namespace Caps

def bin : UInt32 := 1
def pb : UInt32 := 2

end Caps

inductive HandshakeError where
  | invalidValue (tag : UInt8)
  | missingRequired (tag : UInt8)
  | duplicateTag (tag : UInt8)
  | badLen (tag : UInt8) (len : ℕ)
  | utf8 (tag : UInt8)
  | truncated (tag : UInt8) (declared left : ℕ)
  deriving DecidableEq

inductive TopologyRole where
  | normal
  | hub
  | border
  | directory

namespace TopologyRole

def toU8 : TopologyRole → UInt8
  | normal => 0
  | hub => 1
  | border => 2
  | directory => 3

def fromU8 (v : UInt8) : Option TopologyRole :=
  if v=0 then some normal
  else if v=1 then some hub
  else if v=2 then some border
  else if v=3 then some directory
  else none

end TopologyRole

structure HandshakeBody where
  nodeId : String
  realm : Option String
  cluster : Option String
  capabilities : UInt32
  maxFrameLen : UInt32
  topologyRole : TopologyRole
  hopLimit : UInt8
  directAddr : Option String

structure HandshakeAckBody extends HandshakeBody where
  chosenCodec : String

def putTlv (tag : UInt8) (bytes : Bytes) : Except HandshakeError Bytes :=
  if bytes.length>65535 then .error (.badLen tag bytes.length) else .ok (Tlv.Record.bytes (tag,bytes))

def validateLen (tag : UInt8) (value : Option String) : Except HandshakeError Unit :=
  match value with
  | some value => if value.utf8ByteSize>65535 then .error (.badLen tag value.utf8ByteSize) else .ok ()
  | none => .ok ()

namespace HandshakeBody

/-- `validate_common`. -/
def validate (b : HandshakeBody) : Except HandshakeError Unit := do
  validateLen TlvTag.nodeId (some b.nodeId)
  validateLen TlvTag.realm b.realm
  validateLen TlvTag.cluster b.cluster
  validateLen TlvTag.directAddr b.directAddr
  if b.nodeId.isEmpty||b.nodeId.toList.contains '\x00' then .error (.invalidValue TlvTag.nodeId)
  else if b.maxFrameLen.toNat<bodyFixedOverhead then .error (.invalidValue TlvTag.maxFrameLen)
  else if b.hopLimit=0 then .error (.invalidValue TlvTag.hopLimit)

def records (b : HandshakeBody) : List Tlv.Record :=
  [(TlvTag.nodeId,utf8 b.nodeId)]++(b.realm.map fun r => (TlvTag.realm,utf8 r)).toList++
    (b.cluster.map fun c => (TlvTag.cluster,utf8 c)).toList++
    [(TlvTag.capabilities,leBytes 4 b.capabilities.toNat),(TlvTag.maxFrameLen,leBytes 4 b.maxFrameLen.toNat),
      (TlvTag.topologyRole,[b.topologyRole.toU8]),(TlvTag.hopLimit,[b.hopLimit])]++
    (b.directAddr.map fun d => (TlvTag.directAddr,utf8 d)).toList

end HandshakeBody

def putAll (records : List Tlv.Record) : Except HandshakeError Bytes :=
  records.foldlM (fun buf r => do return buf++(← putTlv r.1 r.2)) []

def HandshakeBody.encodeTlv (b : HandshakeBody) : Except HandshakeError Bytes := do
  b.validate
  putAll b.records

def validateChosen (codec : String) (capabilities : UInt32) : Except HandshakeError Unit :=
  if codec.utf8ByteSize>65535 then .error (.badLen TlvTag.chosenCodec codec.utf8ByteSize)
  else if codec = "bin" then
    if capabilities &&& Caps.bin=0 then .error (.invalidValue TlvTag.chosenCodec) else .ok ()
  else if codec = "pb" then
    if capabilities &&& Caps.pb=0 then .error (.invalidValue TlvTag.chosenCodec) else .ok ()
  else .error (.invalidValue TlvTag.chosenCodec)

def HandshakeAckBody.encodeTlv (a : HandshakeAckBody) : Except HandshakeError Bytes := do
  a.toHandshakeBody.validate
  validateChosen a.chosenCodec a.capabilities
  putAll (a.records++[(TlvTag.chosenCodec,utf8 a.chosenCodec)])

abbrev TlvFields := UInt8 → Tlv.Field

def knownTag (tag : UInt8) : Bool := TlvTag.nodeId≤tag&&tag≤TlvTag.chosenCodec

def readTlv (payload : Bytes) : Except HandshakeError TlvFields :=
  match Tlv.scan (Tlv.collect knownTag) payload.length (fun _ => .empty) payload with
  | .ok out => .ok out
  | .error t => .error (.truncated t.tag t.declared t.left)

variable (tlvs : TlvFields)

def takeOne (tag : UInt8) : Except HandshakeError (Option Bytes) :=
  if (tlvs tag).duplicate then .error (.duplicateTag tag) else .ok (tlvs tag).value

def takeRequired (tag : UInt8) : Except HandshakeError Bytes := do
  match ← takeOne tlvs tag with
  | some v => .ok v
  | none => .error (.missingRequired tag)

def decodeString (bytes : Bytes) (tag : UInt8) : Except HandshakeError String :=
  match String.fromUTF8? ⟨bytes.toArray⟩ with
  | some s => .ok s
  | none => .error (.utf8 tag)

def takeString (tag : UInt8) : Except HandshakeError (Option String) := do
  match ← takeOne tlvs tag with
  | some v => return some (← decodeString v tag)
  | none => return none

def takeU32 (tag : UInt8) : Except HandshakeError UInt32 := do
  let v ← takeRequired tlvs tag
  if v.length≠4 then .error (.badLen tag v.length) else return .ofNat (ofLeBytes v)

def takeNodeId : Except HandshakeError String := do
  let nodeId ← decodeString (← takeRequired tlvs TlvTag.nodeId) TlvTag.nodeId
  if nodeId.isEmpty||nodeId.toList.contains '\x00' then .error (.invalidValue TlvTag.nodeId) else return nodeId

def takeMaxFrameLen : Except HandshakeError UInt32 := do
  let n ← takeU32 tlvs TlvTag.maxFrameLen
  if n.toNat<bodyFixedOverhead then .error (.invalidValue TlvTag.maxFrameLen) else return n

def takeRole : Except HandshakeError TopologyRole := do
  let role ← takeRequired tlvs TlvTag.topologyRole
  if role.length≠1 then .error (.badLen TlvTag.topologyRole role.length)
  else
    match TopologyRole.fromU8 (role.headD 0) with
    | some role => return role
    | none => .error (.badLen TlvTag.topologyRole 99)

def takeHopLimit : Except HandshakeError UInt8 := do
  let hopLimit ←
    match ← takeOne tlvs TlvTag.hopLimit with
    | some [v] => pure v
    | some v => .error (.badLen TlvTag.hopLimit v.length)
    | none => pure defaultHopLimit
  if hopLimit=0 then .error (.invalidValue TlvTag.hopLimit) else return hopLimit

def takeDirectAddr : Except HandshakeError (Option String) := do
  match ← takeOne tlvs TlvTag.directAddr with
  | some [] => return none
  | some v => return some (← decodeString v TlvTag.directAddr)
  | none => return none

def decodeCommon : Except HandshakeError HandshakeBody := do
  let nodeId ← takeNodeId tlvs
  let capabilities ← takeU32 tlvs TlvTag.capabilities
  let maxFrameLen ← takeMaxFrameLen tlvs
  let topologyRole ← takeRole tlvs
  let realm ← takeString tlvs TlvTag.realm
  let cluster ← takeString tlvs TlvTag.cluster
  let hopLimit ← takeHopLimit tlvs
  let directAddr ← takeDirectAddr tlvs
  return ⟨nodeId,realm,cluster,capabilities,maxFrameLen,topologyRole,hopLimit,directAddr⟩

def HandshakeBody.decodeTlv (payload : Bytes) : Except HandshakeError HandshakeBody := do
  let tlvs ← readTlv payload
  if (← takeOne tlvs TlvTag.chosenCodec).isSome then .error (.invalidValue TlvTag.chosenCodec)
  else decodeCommon tlvs

def HandshakeAckBody.decodeTlv (payload : Bytes) : Except HandshakeError HandshakeAckBody := do
  let tlvs ← readTlv payload
  let common ← decodeCommon tlvs
  let chosen:=(← takeString tlvs TlvTag.chosenCodec).getD "bin"
  validateChosen chosen common.capabilities
  return ⟨common,chosen⟩

def negotiateCaps (a b : UInt32) : Except ErrCode UInt32 :=
  if a &&& b &&& (Caps.bin ||| Caps.pb)=0 then .error .noCommonCodec else .ok (a &&& b)

/-- Where a handshake stopped. The texts are left out. -/
inductive HandshakeFailure where
  | localEncode (e : HandshakeError)
  | send (e : FrameError)
  | receive (e : FrameError)
  | flags (e : FrameError)
  | unexpected (frameType : UInt8)
  | closed
  | ackDecode (e : HandshakeError)
  | decode (e : HandshakeError)
  | ackEncode (e : HandshakeError)
  | noCommonCodec
  | invalidCodec
  | unsupportedCodec
  | peer

def handshakeFrame (payload : Bytes) : Frame := ⟨newHeader FrameType.handshake 0,"","",payload⟩

def handshakeAckFrame (payload : Bytes) : Frame := ⟨newHeader FrameType.handshakeAck 0,"","",payload⟩

/-- The first frame of what arrived, read with the codec every connection starts with. -/
def recvExpect (expect : UInt8) (received : Bytes) : Except HandshakeFailure (Frame × Bytes) :=
  match (Codec.negotiated maxFrameLen).decode received with
  | (.error e,_) => .error (.receive e)
  | (.ok none,_) => .error .closed
  | (.ok (some f),rest) => do
    f.validatePayloadFlags.mapError .flags
    if f.header.frameType=expect then return (f,rest) else .error (.unexpected f.header.frameType)

def connectHello (b : HandshakeBody) : Except HandshakeFailure Bytes := do
  let body ← b.encodeTlv.mapError .localEncode
  ((Codec.negotiated maxFrameLen).encode (handshakeFrame body)).mapError .send

def chosenCap (codec : String) : Option UInt32 :=
  if codec = "bin" then some Caps.bin else if codec = "pb" then some Caps.pb else none

/-- The connecting side from the answer on. `verify` is what the transport knows of its peer. -/
def connectFinish (b : HandshakeBody) (verify : String → Bool) (received : Bytes) :
    Except HandshakeFailure (HandshakeAckBody × Bytes) := do
  let (ack,rest) ← recvExpect FrameType.handshakeAck received
  let ackBody ← (HandshakeAckBody.decodeTlv ack.payload).mapError .ackDecode
  let common ← (negotiateCaps b.capabilities ackBody.capabilities).mapError fun _ => .noCommonCodec
  match chosenCap ackBody.chosenCodec with
  | none => .error .invalidCodec
  | some cap =>
    if common &&& cap=0 then .error .unsupportedCodec
    else if verify ackBody.nodeId then return (ackBody,rest) else .error .peer

def ackBody (b theirs : HandshakeBody) : HandshakeAckBody :=
  ⟨{b with maxFrameLen:=min b.maxFrameLen theirs.maxFrameLen},
    if b.capabilities &&& theirs.capabilities &&& Caps.bin≠0 then "bin" else "pb"⟩

/-- The accepting side: what it learnt and what it answered. -/
def accept (b : HandshakeBody) (verify : String → Bool) (received : Bytes) :
    Except HandshakeFailure (HandshakeBody × Bytes × Bytes) := do
  let (hello,rest) ← recvExpect FrameType.handshake received
  let theirs ← (HandshakeBody.decodeTlv hello.payload).mapError .decode
  if verify theirs.nodeId then
    let _ ← (negotiateCaps b.capabilities theirs.capabilities).mapError fun _ => .noCommonCodec
    let body ← (ackBody b theirs).encodeTlv.mapError .ackEncode
    let answer ← ((Codec.negotiated maxFrameLen).encode (handshakeAckFrame body)).mapError .send
    return (theirs,answer,rest)
  else .error .peer

/-- `set_max_frame_len`. -/
def negotiatedCodec (b peer : HandshakeBody) : Codec :=
  .negotiated (min (max (min b.maxFrameLen peer.maxFrameLen).toNat bodyFixedOverhead) maxFrameLen)

/-- The sender of a connection between `b` and `peer`. -/
def establishedSender (connection : ℕ) (b peer : HandshakeBody) : FrameSender :=
  ⟨connection,peer.capabilities,b.capabilities &&& peer.capabilities,
    min (min b.maxFrameLen peer.maxFrameLen).toNat maxFrameLen⟩

end Parrot.Link
