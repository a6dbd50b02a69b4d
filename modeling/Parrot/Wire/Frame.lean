import Parrot.Lib.Bincode
import Parrot.Lib.Machine
import Parrot.Lib.StreamCodec

/-! # Wire frames (`frame.rs`, `transport.rs:290-338`)

A frame is a fixed header, a path, a type key and a payload behind the length of all of them. -/

namespace Parrot.Wire
open Machine
open Bincode (Bytes leBytes ofLeBytes utf8)

def protocolVersion : UInt8 := 0x01
def maxFrameLen : ℕ := 16*1024*1024
def bodyFixedOverhead : ℕ := 28
def seqNone : UInt32 := 0

namespace FrameType

def handshake : UInt8 := 0x01
def handshakeAck : UInt8 := 0x02
def heartbeat : UInt8 := 0x03
def heartbeatAck : UInt8 := 0x04
def ask : UInt8 := 0x10
def reply : UInt8 := 0x11
def replyErr : UInt8 := 0x12
def tell : UInt8 := 0x13
def stop : UInt8 := 0x14
def fragment : UInt8 := 0x15
def systemEvent : UInt8 := 0x20
def resolveQ : UInt8 := 0x21
def resolveR : UInt8 := 0x22
def invalidate : UInt8 := 0x23
def routeHint : UInt8 := 0x24
def error : UInt8 := 0x7F

def known (ft : UInt8) : Bool :=
  [handshake,handshakeAck,heartbeat,heartbeatAck,ask,reply,replyErr,tell,stop,fragment,systemEvent,
    resolveQ,resolveR,invalidate,routeHint,error].contains ft

end FrameType

inductive FrameError where
  | truncated (received : ℕ) (expected : Option ℕ)
  | tooLarge (len max : ℕ)
  | versionMismatch (expect got : UInt8)
  | unknownFrameType (got : UInt8)
  | malformedLengths (flen plen klen : ℕ)
  | utf8 (field : String)
  | reservedNotZero (got : ℕ)
  | hopExceeded (count limit : UInt8)
  | unsupportedFlags (flags : UInt16)
  | invalidTraceContext
  | batchLimit (what : String) (max : ℕ)
  | batchMalformed (offset total : ℕ)
  | batchEmpty (got : ℕ)
  deriving DecidableEq

structure FrameHeader where
  frameLen : UInt32
  version : UInt8
  frameType : UInt8
  flags : UInt16
  correlationId : UInt64
  hopCount : UInt8
  hopLimit : UInt8
  seq : UInt32
  deriving DecidableEq

structure Frame where
  header : FrameHeader
  path : String
  typeKey : String
  payload : Bytes
  deriving DecidableEq

namespace Frame

variable (f : Frame)

def bodyLen : ℕ :=
  bodyFixedOverhead+f.path.utf8ByteSize+f.typeKey.utf8ByteSize+f.payload.length

def validateSize (limit : ℕ) : Except FrameError ℕ :=
  if f.bodyLen>min limit maxFrameLen then
    .error (.tooLarge (min f.bodyLen (2^32-1)) (min limit maxFrameLen))
  else .ok f.bodyLen

/-- The fixed part of the body, up to the length of the path. -/
def fixed (rest : Bytes) : Bytes :=
  f.header.version::f.header.frameType::(leBytes 2 f.header.flags.toNat++
    (leBytes 8 f.header.correlationId.toNat++(f.header.hopCount::f.header.hopLimit::
      (leBytes 4 f.header.seq.toNat++(leBytes 2 0++rest)))))

def body : Bytes :=
  f.fixed (leBytes 4 f.path.utf8ByteSize++(utf8 f.path++(leBytes 4 f.typeKey.utf8ByteSize++
    (utf8 f.typeKey++f.payload))))

def encode : Except FrameError Bytes := do
  let body ← f.validateSize maxFrameLen
  if f.header.version≠protocolVersion then .error (.versionMismatch protocolVersion f.header.version)
  else return leBytes 4 body++f.body

/-- `k` bytes at `offset`, least significant first. -/
def readLe (b : Bytes) (offset k : ℕ) : ℕ := ofLeBytes ((b.drop offset).take k)

def readString (field : String) (b : Bytes) : Except FrameError String :=
  match String.fromUTF8? ⟨b.toArray⟩ with
  | some s => .ok s
  | none => .error (.utf8 field)

/-- The path, the type key and the payload, each length checked before it is used. -/
def parseTail (header : FrameHeader) (bodyLen pathLen : ℕ) (b : Bytes) : Except FrameError Frame :=
  if b.length<4 ∨ pathLen>b.length-4 then .error (.malformedLengths bodyLen pathLen 0)
  else do
    let path ← readString "path" (b.take pathLen)
    let b:=b.drop pathLen
    let keyLen:=readLe b 0 4
    let b:=b.drop 4
    if keyLen>b.length then .error (.malformedLengths bodyLen pathLen keyLen)
    else
      let key ← readString "type_key" (b.take keyLen)
      return ⟨header,path,key,b.drop keyLen⟩

/- A body has at least 28 bytes, so no fixed field runs past its end. -/
def parseBody (bodyLen : ℕ) (b : Bytes) : Except FrameError Frame :=
  let version:=b.getD 0 0
  let ft:=b.getD 1 0
  let hopCount:=b.getD 12 0
  let hopLimit:=b.getD 13 0
  let reserved:=readLe b 18 2
  if version≠protocolVersion then .error (.versionMismatch protocolVersion version)
  else if FrameType.known ft=false then .error (.unknownFrameType ft)
  else if hopLimit=0 ∨ hopCount≥hopLimit then .error (.hopExceeded hopCount hopLimit)
  else if reserved≠0 then .error (.reservedNotZero (reserved*2^32))
  else parseTail ⟨.ofNat bodyLen,version,ft,.ofNat (readLe b 2 2),.ofNat (readLe b 4 8),hopCount,hopLimit,
    .ofNat (readLe b 14 4)⟩ bodyLen (readLe b 20 4) (b.drop 24)

def decodeWithLimit (limit : ℕ) (buf : Bytes) : Except FrameError (Option Frame) × Bytes :=
  if buf.length<4 then (.ok none,buf)
  else
    let bodyLen:=readLe buf 0 4
    if bodyLen>min limit maxFrameLen then (.error (.tooLarge bodyLen (min limit maxFrameLen)),buf)
    else if bodyLen<bodyFixedOverhead then (.error (.malformedLengths bodyLen 0 0),buf)
    else if buf.length<4+bodyLen then (.ok none,buf)
    else ((parseBody bodyLen ((buf.drop 4).take bodyLen)).map some,buf.drop (4+bodyLen))

def decode (buf : Bytes) : Except FrameError (Option Frame) × Bytes := decodeWithLimit maxFrameLen buf

def filled : Frame := {f with header := {f.header with frameLen:=.ofNat f.bodyLen}}

structure Routable (f : Frame) : Prop where
  known : FrameType.known f.header.frameType=true
  hop : f.header.hopCount<f.header.hopLimit

end Frame

/-- `FrameCodec`, and `NegotiatedFrameCodec` with the limit of the handshake. -/
inductive Codec where
  | frame
  | negotiated (maxFrameLen : ℕ)

namespace Codec

def encode (c : Codec) (f : Frame) : Except FrameError Bytes :=
  match c with
  | frame => f.encode
  | negotiated maxFrameLen => do
    let _ ← f.validateSize maxFrameLen
    f.encode

def decode (c : Codec) (buf : Bytes) : Except FrameError (Option Frame) × Bytes :=
  match c with
  | frame => Frame.decode buf
  | negotiated maxFrameLen => Frame.decodeWithLimit maxFrameLen buf

/-- The end of the stream: bytes left over are a truncated frame. -/
def decodeEof (c : Codec) (buf : Bytes) : Except FrameError (Option Frame) × Bytes :=
  match c.decode buf with
  | (.ok none,rest) =>
    if rest.isEmpty then (.ok none,rest)
    else (.error (.truncated rest.length
      (if rest.length<4 then none else some (4+Frame.readLe rest 0 4))),rest)
  | answer => answer

end Codec
end Parrot.Wire
