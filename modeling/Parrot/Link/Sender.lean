import Parrot.Wire.Batch

/-! # Frame senders (`transport.rs:34-202`, `error.rs`)

The outbound end of a connection. -/

namespace Parrot.Link
open Machine Parrot.Wire
open Bincode (Bytes leBytes utf8)
open Wal (TraceParent)

namespace Caps

def tellCompletion : UInt32 := 0x100
def durableDelivery : UInt32 := 0x200
def traceContext : UInt32 := 0x2000
def mirrorShadow : UInt32 := 0x10000

end Caps

inductive ErrCode where
  | actorNotFound
  | timeout
  | stopped
  | notRemotable
  | codecError
  | unknownTypeKey
  | routeUnreachable
  | connectionLost
  | directoryStale
  | overloaded
  | noCommonCodec
  | protocolViolation
  | forbidden
  deriving DecidableEq

def ErrCode.toU16 (code : ErrCode) : ℕ := code.ctorIdx+1

def ErrCode.name : ErrCode → String
  | .actorNotFound => "ActorNotFound"
  | .timeout => "Timeout"
  | .stopped => "Stopped"
  | .notRemotable => "NotRemotable"
  | .codecError => "CodecError"
  | .unknownTypeKey => "UnknownTypeKey"
  | .routeUnreachable => "RouteUnreachable"
  | .connectionLost => "ConnectionLost"
  | .directoryStale => "DirectoryStale"
  | .overloaded => "Overloaded"
  | .noCommonCodec => "NoCommonCodec"
  | .protocolViolation => "ProtocolViolation"
  | .forbidden => "Forbidden"

def toErrcode : FrameError → ErrCode
  | .hopExceeded .. => .routeUnreachable
  | _ => .protocolViolation

def encodeErrPayload (code : ErrCode) (detail : String) : Bytes :=
  leBytes 2 code.toU16++leBytes 2 0++utf8 detail

def defaultHopLimit : UInt8 := 8

def newHeader (frameType : UInt8) (cid : UInt64) : FrameHeader :=
  ⟨0,protocolVersion,frameType,0,cid,0,defaultHopLimit,seqNone⟩

def replyErr (cid : UInt64) (path : String) (code : ErrCode) (detail : String) : Frame :=
  ⟨newHeader FrameType.replyErr cid,path,"",encodeErrPayload code detail⟩

def tryRouteHint (node addr : String) : Except FrameError Frame :=
  let nodeLen:=(utf8 node).length
  let addrLen:=(utf8 addr).length
  if nodeLen>65535 ∨ addrLen>65535 then
    .error (.malformedLengths 0 (min nodeLen (2^32-1)) (min addrLen (2^32-1)))
  else .ok ⟨newHeader FrameType.routeHint 0,"","",leBytes 2 nodeLen++utf8 node++leBytes 2 addrLen++utf8 addr⟩

def withTraceParent (f : Frame) (parent : TraceParent) : Except FrameError Frame :=
  if ¬(f.header.frameType=FrameType.ask ∨ f.header.frameType=FrameType.tell) ∨
      f.header.flags &&& (Flags.batch ||| Flags.traceContext)≠0 then .error .invalidTraceContext
  else do
    f.validatePayloadFlags
    let _ ← f.validateSize (maxFrameLen-traceContextBytes)
    return {f with
      payload := 1::parent.traceId++parent.spanId++f.payload
      header := {f.header with flags:=f.header.flags ||| Flags.traceContext,frameLen:=0}}

/-- `connection` is the identity of the writer channel. -/
structure FrameSender where
  connection : ℕ
  peerCapabilities : UInt32
  negotiatedCapabilities : UInt32
  maxFrameLen : ℕ
  deriving DecidableEq

namespace FrameSender

def sameConnection (a b : FrameSender) : Bool := a.connection=b.connection

variable (s : FrameSender)

def supportsMirrorShadow : Bool :=
  s.negotiatedCapabilities &&& (Caps.mirrorShadow ||| Caps.tellCompletion)=Caps.mirrorShadow ||| Caps.tellCompletion

def supportsTraceContext : Bool := s.negotiatedCapabilities &&& Caps.traceContext≠0

/-- `current` is the trace of the running task. -/
def traceRequest (current : Option TraceParent) (f : Frame) : Except FrameError Frame :=
  match current with
  | some parent => if s.supportsTraceContext then withTraceParent f parent else .ok f
  | none => .ok f

def checkTraceContext (f : Frame) : Except FrameError Unit :=
  if (f.header.flags &&& Flags.traceContext≠0 ∧ s.supportsTraceContext=false) ∨
      (f.header.flags &&& Flags.mirrorShadow≠0 ∧ s.supportsMirrorShadow=false) then
    .error (.unsupportedFlags f.header.flags)
  else .ok ()

/-- The checks every way of sending makes before it asks for room in the queue. -/
def checkSend (f : Frame) : Except FrameError Unit := do
  s.checkTraceContext f
  let _ ← f.validateSize s.maxFrameLen

end FrameSender

end Parrot.Link
