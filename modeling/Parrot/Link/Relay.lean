import Parrot.Lib.Slots
import Parrot.Link.Sender

/-! # Relayed requests (`ingress.rs:138-258, 1930-2096, 2519-2556`, `system.rs:899-912`)

A hub forwards a request under an id of its own and keeps, until something ends the
request, where the reply has to come from and where it has to go. -/

namespace Parrot.Link
open Machine Parrot.Wire Slots
open Bincode (utf8)
open Wal (TraceParent)

/-- `ticket` numbers the accepted requests. The code has no such field. -/
structure RelaySlot where
  origCid : UInt64
  back : FrameSender
  target : FrameSender
  created : ℕ
  ticket : ℕ
  deriving DecidableEq

inductive Outcome where
  | forwarded (source : FrameSender) (reply : Frame)
  | expired
  | lost
  /- The origin itself is gone. -/
  | reclaimed

def withCid (f : Frame) (cid : UInt64) : Frame := {f with header := {f.header with correlationId:=cid}}

def Outcome.frame (slot : RelaySlot) : Outcome → Option Frame
  | .forwarded _ reply => some (withCid reply slot.origCid)
  | .expired => some (replyErr slot.origCid "" .timeout "relay expired")
  | .lost => some (replyErr slot.origCid "" .connectionLost "relay connection lost")
  | .reclaimed => none

/-- `replies` are the frames handed to `send_reply`, `sent` those queued in another way.
`outcomes` and `failed` only record what happened. -/
structure Hub where
  ttl : ℕ
  capacity : ℕ
  slots : Table UInt64 RelaySlot
  closed : ℕ → Bool
  now : ℕ
  accepted : ℕ
  outcomes : List (RelaySlot × Outcome)
  replies : List (FrameSender × Frame)
  sent : List (FrameSender × Frame)
  failed : List ℕ

namespace Hub

def withTable (ttl capacity : ℕ) : Hub := ⟨ttl,capacity,[],fun _ => false,0,0,[],[],[],[]⟩

def new : Hub := withTable 65000000000 65536

def close (h : Hub) (connection : ℕ) : Hub := {h with closed:=Function.update h.closed connection true}

/-- `room` says whether the queue takes one more frame. -/
def sendReply (h : Hub) (sender : FrameSender) (f : Frame) (room : Bool) : Hub :=
  let h:={h with replies:=h.replies++[(sender,f)]}
  if (sender.checkSend f).isOk&&!h.closed sender.connection&&room then h else h.close sender.connection

def sendReplies (h : Hub) : List (FrameSender × Frame) → List Bool → Hub
  | [],_ => h
  | (sender,f)::rest,rooms => sendReplies (h.sendReply sender f (rooms.headD true)) rest rooms.tail

def sendFrame (h : Hub) (sender : FrameSender) (f : Frame) (room : Bool) : Hub :=
  if (sender.checkSend f).isOk&&!h.closed sender.connection&&room then {h with sent:=h.sent++[(sender,f)]} else h

/-- What an outcome makes the hub hand to the origin of its slot. -/
def answer (x : RelaySlot × Outcome) : Option (FrameSender × Frame) := (x.2.frame x.1).map fun f => (x.1.back,f)

def insert (h : Hub) (forwardCid origCid : UInt64) (back target : FrameSender) : Option Hub :=
  if h.slots.length≥h.capacity ∨ (get h.slots forwardCid).isSome ∨ h.closed back.connection ∨
      h.closed target.connection then none
  else some {h with
    slots := (forwardCid,⟨origCid,back,target,h.now,h.accepted⟩)::h.slots
    accepted := h.accepted+1}

inductive RelayReply where
  | missing
  | wrongSource
  | matched (slot : RelaySlot) (expired : Bool)

def takeFrom (h : Hub) (cid : UInt64) (source : FrameSender) : Hub × RelayReply :=
  match get h.slots cid with
  | none => (h,.missing)
  | some slot =>
    if slot.target.sameConnection source then
      ({h with slots:=remove h.slots cid},.matched slot (h.now-slot.created≥h.ttl))
    else (h,.wrongSource)

/-- The slots of `p` leave the table, with their outcomes and what they make the hub say. -/
def drain (h : Hub) (p : UInt64 × RelaySlot → Bool) (outcome : RelaySlot → Outcome) :
    Hub × List (FrameSender × Frame) :=
  let gone:=(h.slots.filter p).map fun e => (e.2,outcome e.2)
  ({h with
    slots := without h.slots p
    outcomes := h.outcomes++gone},gone.filterMap answer)

def touches (connection : FrameSender) (slot : RelaySlot) : Bool :=
  slot.back.sameConnection connection||slot.target.sameConnection connection

def failConnection (h : Hub) (connection : FrameSender) : Hub × List (FrameSender × Frame) :=
  h.drain (fun e => touches connection e.2) fun slot =>
    if slot.back.sameConnection connection then .reclaimed else .lost

def expire (h : Hub) : Hub × List (FrameSender × Frame) :=
  h.drain (fun e => decide (h.now-e.2.created≥h.ttl)) fun _ => .expired

structure RelayRouter where
  selfNode : String
  senderOf : String → Option FrameSender
  nextCid : UInt64
  dialAddrOf : String → Option String

def targetNode (path : String) : Option String :=
  let scheme := "parrot://".toList
  let rest:=path.toList.drop scheme.length
  if scheme.isPrefixOf path.toList&&rest.contains '/' then some (String.ofList (rest.takeWhile (· ≠ '/')))
  else none

/-- What the rest of the system answers during one request: the injected router, the trace of
the task, the text of a frame error, whether the target's queue gave a permit in time and which
replies and hints the origin's queue takes. -/
structure Surroundings where
  router : Option RelayRouter
  current : Option TraceParent
  text : FrameError → String
  permit : Bool
  room : Bool
  hintRoom : Bool

def refuse (h : Hub) (back : FrameSender) (origCid : UInt64) (path : String) (code : ErrCode) (detail : String)
    (room : Bool) : Hub × Option ErrCode :=
  (h.sendReply back (replyErr origCid path code detail) room,some code)

/-- From the permit on: the slot is in the table before the request is visible. -/
def forward (h : Hub) (env : Surroundings) (router : RelayRouter) (node : String) (frame fwd : Frame)
    (back sender : FrameSender) (origCid : UInt64) : Hub × Option ErrCode :=
  match h.insert router.nextCid origCid back sender with
  | none =>
    let code:=if h.closed sender.connection ∨ h.closed back.connection then ErrCode.connectionLost else .overloaded
    h.refuse back origCid frame.path code "relay admission unavailable" env.room
  | some h =>
    let h:={h with sent:=h.sent++[(sender,fwd)]}
    match (router.dialAddrOf node).map (tryRouteHint node) with
    | some (.ok hint) => (h.sendFrame back hint env.hintRoom,none)
    | _ => (h,none)

def tryRelayRequest (h : Hub) (env : Surroundings) (frame : Frame) (back : FrameSender) (origCid : UInt64) :
    Hub × Option ErrCode :=
  match targetNode frame.path,env.router with
  | some node,some router =>
    if node=router.selfNode then (h,some .actorNotFound)
    else if min (frame.header.hopCount.toNat+1) 255≥frame.header.hopLimit.toNat then
      h.refuse back origCid frame.path .routeUnreachable "relay hop limit exhausted" env.room
    else
      match router.senderOf node with
      | none =>
        (h.sendFrame back (replyErr origCid frame.path .routeUnreachable ("no route to "++node)) env.room,
          some .routeUnreachable)
      | some sender =>
        if frame.header.flags &&& Flags.tellAck≠0 ∧ sender.peerCapabilities &&& Caps.tellCompletion=0 then
          h.refuse back origCid frame.path .protocolViolation "next hop does not support completion TELL" env.room
        else if frame.typeKey=durableKey ∧ sender.peerCapabilities &&& Caps.durableDelivery=0 then
          h.refuse back origCid frame.path .protocolViolation "next hop does not support durable delivery" env.room
        else
          let fwd:={frame with header := {frame.header with
            correlationId := router.nextCid
            hopCount := .ofNat (min (frame.header.hopCount.toNat+1) 255)}}
          match sender.traceRequest env.current fwd with
          | .error e => h.refuse back origCid frame.path .protocolViolation ("frame: "++env.text e) env.room
          | .ok fwd =>
            match sender.checkSend fwd with
            | .error e => h.refuse back origCid frame.path (toErrcode e) (env.text e) env.room
            | .ok () =>
              if env.permit&&!h.closed sender.connection then h.forward env router node frame fwd back sender origCid
              else h.refuse back origCid frame.path .connectionLost "relay unavailable" env.room
  | _,_ => (h,some .actorNotFound)

def relayReply (h : Hub) (frame : Frame) (source : FrameSender) (room : Bool) : Hub × Bool :=
  match h.takeFrom frame.header.correlationId source with
  | (h,.missing) => (h,false)
  | (h,.wrongSource) => (h,true)
  | (h,.matched slot expired) =>
    let outcome:=if expired then Outcome.expired else .forwarded source frame
    let h:={h with outcomes:=h.outcomes++[(slot,outcome)]}
    (h.sendReplies ((answer (slot,outcome)).toList) [room],true)

/-- The driver of a connection reports its end once, after it has closed it. -/
def connectionClosed (h : Hub) (connection : FrameSender) (rooms : List Bool) : Hub :=
  let (h,replies):=h.failConnection connection
  {h with failed:=connection.connection::h.failed}.sendReplies replies rooms

inductive Event where
  | request (env : Surroundings) (frame : Frame) (back : FrameSender) (origCid : UInt64)
  | reply (frame : Frame) (source : FrameSender) (room : Bool)
  | close (connection : ℕ)
  | disconnected (connection : FrameSender) (rooms : List Bool)
  | tick (rooms : List Bool)
  | wait (d : ℕ)
  /- A hash map may be walked in any order. -/
  | reorder (slots : Table UInt64 RelaySlot)

def step (h : Hub) : Event → Hub
  | .request env frame back origCid => (h.tryRelayRequest env frame back origCid).1
  | .reply frame source room => (h.relayReply frame source room).1
  | .close connection => h.close connection
  | .disconnected connection rooms => if h.closed connection.connection then h.connectionClosed connection rooms else h
  | .tick rooms => h.expire.1.sendReplies h.expire.2 rooms
  | .wait d => {h with now:=h.now+d}
  | .reorder slots => if slots.Perm h.slots then {h with slots:=slots} else h

def run (h : Hub) (events : List Event) : Hub := events.foldl step h

end Hub

end Parrot.Link
