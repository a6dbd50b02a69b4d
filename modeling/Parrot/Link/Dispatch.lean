import Parrot.Wire.Batch

/-! # Inbound dispatch lanes (`system/dispatch.rs`)

Frames that may wait for application work run in one lane for each connection and kind,
one at a time and within budgets that all lanes share. -/

namespace Parrot.Link
open Function (update)
open Machine Parrot.Wire

inductive LaneKind where
  | business
  | resolve
  | mirror
  deriving DecidableEq

namespace SysEventTag

def adminReply : UInt8 := 0x02
def adminCmdV2 : UInt8 := 0x03
def adminReplyV2 : UInt8 := 0x04
def membershipPing : UInt8 := 0x11
def membershipPingReq : UInt8 := 0x12
def membershipPong : UInt8 := 0x13
def membershipPingReqAck : UInt8 := 0x14

end SysEventTag

/-- A mirror command is variant 6, read as the decoder reads it. -/
def laneKind (f : Frame) : LaneKind :=
  if f.header.frameType=FrameType.resolveQ then .resolve
  else if f.header.frameType=FrameType.systemEvent ∧ f.payload.head? = some SysEventTag.adminCmdV2 ∧
      (Bincode.u32.decode (f.payload.drop 1)).map Prod.fst=some 6 then .mirror
  else .business

def isSlow (f : Frame) : Bool :=
  if f.header.frameType=FrameType.tell then decide (f.header.flags &&& Flags.tellAck=0)
  else if f.header.frameType=FrameType.stop then true
  else if f.header.frameType=FrameType.resolveQ then true
  else if f.header.frameType=FrameType.systemEvent then
    !(f.payload.head?.any fun tag => decide (tag∈[SysEventTag.adminReply,SysEventTag.adminReplyV2,
      SysEventTag.membershipPing,SysEventTag.membershipPingReq,SysEventTag.membershipPong,
      SysEventTag.membershipPingReqAck]))
  else false

/-- A connection by the identity of its driver, and a kind. -/
abbrev LaneKey := ℕ × LaneKind

structure Pending where
  frame : Frame
  fromNode : String
  bytes : ℕ

def Pending.content (p : Pending) : Frame × String := (p.frame,p.fromNode)

structure Lane where
  queue : List Pending

structure RuntimeKnobs where
  inboundDispatchCapacity : ℕ
  inboundDispatchPerConnection : ℕ
  inboundDispatchBytes : ℕ
  capacity_le : inboundDispatchCapacity≤u64Max
  bytes_le : inboundDispatchBytes≤u64Max

/-- `closed` is what `is_closed` says of each connection. -/
structure Dispatcher where
  lanes : LaneKey → Option Lane
  active : List (LaneKey × Pending)
  count : ℕ
  bytes : ℕ
  closed : ℕ → Bool

namespace Dispatcher

def new : Dispatcher := ⟨fun _ => none,[],0,0,fun _ => false⟩

variable (d : Dispatcher)

def close (connection : ℕ) : Dispatcher := {d with closed:=update d.closed connection true}

def queue (key : LaneKey) : List Pending := ((d.lanes key).map Lane.queue).getD []

/-- A lane holds its queue and the operation that is active. -/
def laneSize (lane : Option Lane) : ℕ := (lane.map fun lane => lane.queue.length+1).getD 0

def connectionPending (connection : ℕ) : ℕ :=
  ([LaneKind.business,.resolve,.mirror].map fun kind => laneSize (d.lanes (connection,kind))).sum

def size (frame : Frame) (fromNode : String) : Option ℕ := do
  let n ← checkedAdd frame.payload.length frame.path.utf8ByteSize
  let n ← checkedAdd n frame.typeKey.utf8ByteSize
  checkedAdd n fromNode.utf8ByteSize

def fits (knobs : RuntimeKnobs) (connection size : ℕ) : Bool :=
  decide (size≤knobs.inboundDispatchBytes-d.bytes)&&decide (d.count<knobs.inboundDispatchCapacity) &&
    decide (d.connectionPending connection<knobs.inboundDispatchPerConnection)

/-- The admission of a slow frame, with the operation that starts at once. -/
def enqueue (key : LaneKey) (pending : Pending) : Except Panic (Dispatcher × Option (LaneKey × Pending)) := do
  let count ← add d.count 1
  let bytes ← add d.bytes pending.bytes
  match d.lanes key with
  | some lane => return ({d with
      count := count
      bytes := bytes
      lanes := update d.lanes key (some ⟨lane.queue++[pending]⟩)},none)
  | none => return ({d with
      count := count
      bytes := bytes
      active := d.active++[(key,pending)]
      lanes := update d.lanes key (some ⟨[]⟩)},some (key,pending))

/-- One received frame. A fast one is dispatched before the next event, outside the lanes. -/
def input (knobs : RuntimeKnobs) (frame : Frame) (connection : ℕ) (fromNode : String) :
    Except Panic (Dispatcher × Option (LaneKey × Pending)) :=
  if d.closed connection then .ok (d,none)
  else if isSlow frame=false then .ok (d,none)
  else
    match size frame fromNode with
    | none => .ok (d.close connection,none)
    | some size =>
      if d.fits knobs connection size then d.enqueue (connection,laneKind frame) ⟨frame,fromNode,size⟩
      else .ok (d.close connection,none)

/-- The completion of the `i`-th active operation, with the one that starts next. -/
def complete (i : ℕ) : Except Panic (Dispatcher × Option (LaneKey × Pending)) := do
  let (key,pending) ← index d.active i
  let count ← sub d.count 1
  let bytes ← sub d.bytes pending.bytes
  let d:={d with active:=d.active.eraseIdx i,count:=count,bytes:=bytes}
  match d.lanes key with
  | none => .error .debugAssert
  | some lane =>
    match if d.closed key.1 then [] else lane.queue with
    | next::rest => return ({d with
        active := d.active++[(key,next)]
        lanes := update d.lanes key (some ⟨rest⟩)},some (key,next))
    | [] => do
      let count ← sub d.count lane.queue.length
      let bytes ← sub d.bytes (lane.queue.map Pending.bytes).sum
      return ({d with count:=count,bytes:=bytes,lanes:=update d.lanes key none},none)

end Dispatcher

/-- A dispatcher with the slow frames that arrived for each lane and those that were
started. -/
structure DispatchRun where
  d : Dispatcher
  arrived : LaneKey → List (Frame × String)
  started : LaneKey → List (Frame × String)

def DispatchRun.new : DispatchRun := ⟨.new,fun _ => [],fun _ => []⟩

def noteArrival (arrived : LaneKey → List (Frame × String)) (frame : Frame) (connection : ℕ) (fromNode : String) :
    LaneKey → List (Frame × String) :=
  if isSlow frame then
    update arrived (connection,laneKind frame) (arrived (connection,laneKind frame)++[(frame,fromNode)])
  else arrived

def noteStart (started : LaneKey → List (Frame × String)) : Option (LaneKey × Pending) → LaneKey → List (Frame × String)
  | none => started
  | some (key,pending) => update started key (started key++[pending.content])

inductive DispatchStep (knobs : RuntimeKnobs) : DispatchRun → DispatchRun → Prop where
  | input (r : DispatchRun) (frame : Frame) (connection : ℕ) (fromNode : String) (d : Dispatcher)
      (op : Option (LaneKey × Pending)) (h : r.d.input knobs frame connection fromNode=.ok (d,op)) :
      DispatchStep knobs r ⟨d,noteArrival r.arrived frame connection fromNode,noteStart r.started op⟩
  | complete (r : DispatchRun) (i : ℕ) (d : Dispatcher) (op : Option (LaneKey × Pending))
      (h : r.d.complete i=.ok (d,op)) : DispatchStep knobs r ⟨d,r.arrived,noteStart r.started op⟩
  | close (r : DispatchRun) (connection : ℕ) : DispatchStep knobs r {r with d:=r.d.close connection}

end Parrot.Link
