import Mathlib.Data.List.Sort
import Parrot.Lib.CrashFs
import Parrot.Wal.Receipts

/-! # The write-ahead log (`durable.rs:110-560,640-810`)

Segments are files named by their number. -/

namespace Parrot.Wal
open Machine
open Bincode (Bytes)
open CrashFs (Disk Effect)

structure PendingRecord where
  record : WalRecord
  parent : Option TraceParent

/-- The part of the state that recovery reads back from the records. -/
structure Index where
  acked : AList fun _ : Stream => ℕ
  watermarkBytes : ℕ
  pending : List PendingRecord
  pendingBytes : ℕ
  receipts : ReceiptIndex

structure WalInner extends Index where
  segId : ℕ
  segBytes : ℕ
  diskBytes : ℕ
  segments : ℕ
  failed : Bool

def WalInner.healthy (w : WalInner) : Except String Unit :=
  if w.failed then
    .error "wal poisoned by an I/O or storage mutation failure; close and recover before reuse"
  else .ok ()

/-- The order in which a hash map yields its entries. -/
structure Order (α : Type) where
  arrange : List α → List α
  perm : ∀ l, (arrange l).Perm l

def Order.stored (α : Type) : Order α := ⟨id,fun _ => List.Perm.refl _⟩

section env
variable (env : WalEnv) (limits : WalLimits) (segmentMax : ℕ)

def watermarkMemory (s : Stream) : ℕ := s.1.utf8ByteSize+s.2.utf8ByteSize+env.watermarkSize

def reserveWatermark (previous : ℕ) (s : Stream) : Except String ℕ :=
  if previous+watermarkMemory env s≤limits.maxWatermarkBytes then
    .ok (previous+watermarkMemory env s)
  else .error "wal watermark byte budget exceeded"

def recordMemory (r : WalRecord) : ℕ :=
  env.pendingSize+r.endpoint.utf8ByteSize+r.sender.utf8ByteSize+r.path.utf8ByteSize+
    r.typeKey.utf8ByteSize+r.payload.length

def reservePending (r : WalRecord) (count bytes : ℕ) : Except String ℕ :=
  if count≥limits.maxPendingRecords then .error "wal pending count budget exceeded"
  else if bytes+recordMemory env r≤limits.maxPendingBytes then .ok (bytes+recordMemory env r)
  else .error "wal pending byte budget exceeded"

variable (w : WalInner)

def ensureDisk (bytes : ℕ) : Except String Unit :=
  if w.diskBytes+bytes≤limits.maxDiskBytes then .ok () else .error "wal disk byte budget exceeded"

def checkpointAdd (a b : ℕ) : Except String ℕ :=
  match checkedAdd a b with
  | some n => .ok n
  | none => .error "wal checkpoint size overflow"

def listSegments (names : List ℕ) (max : ℕ) : Except String (List ℕ) :=
  if names.length>max then .error "wal segment count budget exceeded"
  else
    let ids:=names.insertionSort (·≤·)
    if ids.IsChain (fun a b => checkedAdd a 1=some b) then .ok ids
    else .error "wal segment gap detected"

structure Plan (α : Type) where
  effects : List (Effect ℕ)
  wal : WalInner
  result : Except String α

def WalInner.wrote (frame : Bytes) : WalInner :=
  {w with segBytes:=w.segBytes+frame.length,diskBytes:=w.diskBytes+frame.length}

def isAcked (acked : AList fun _ : Stream => ℕ) (r : WalRecord) : Bool :=
  (acked.lookup r.stream).any fun seq => decide (r.seq ≤ seq)

def insertReceipt (receipts : ReceiptIndex) : Option Receipt → Except String ReceiptIndex
  | none => .ok receipts
  | some receipt => receipts.insert env limits receipt

def checkReceipt (receipts : ReceiptIndex) : Option Receipt → Except String Unit
  | none => .ok ()
  | some receipt => receipts.check env limits receipt

def wrapSubmission (r : WalRecord) : Option String → Except String (WalRecord × Option Receipt)
  | none => .ok (r,none)
  | some id => do
    let (stored,receipt) ← submissionWrap env r id
    return (stored,some receipt)

def lookupSubmission (receipts : ReceiptIndex) (r : WalRecord) :
    Option String → Except String (Option ℕ)
  | none => .ok none
  | some id => receipts.lookup env r id

/- The record goes to the end of the active segment; a segment that is full is
synced before its successor is created. -/
def appendPlan (r : WalRecord) (parent : Option TraceParent) (receipt : Option Receipt)
    (bytes : ℕ) (encoded : Bytes) (rotate : Bool) : Plan (ℕ × Bool) :=
  match insertReceipt env limits w.receipts receipt with
  | .error e => ⟨[.write w.segId encoded],{w.wrote encoded with failed:=true},.error e⟩
  | .ok receipts =>
    let w':={w.wrote encoded with
      receipts := receipts
      pending := w.pending++[⟨r,parent⟩]
      pendingBytes := bytes}
    if rotate then
      ⟨[.write w.segId encoded,.sync w.segId,.create (w.segId+1),.syncDir],
        {w' with segId:=w.segId+1,segBytes:=0,segments:=w.segments+1},.ok (r.seq,true)⟩
    else ⟨[.write w.segId encoded],w',.ok (r.seq,true)⟩

def appendSubmissionWithParent (r : WalRecord) (requestId : Option String)
    (parent : Option TraceParent) : Except String (Plan (ℕ × Bool)) := do
  w.healthy
  validateRecord r false
  match ← lookupSubmission env w.receipts r requestId with
  | some seq => return ⟨[],w,.ok (seq,false)⟩
  | none =>
    if isAcked w.acked r then
      if requestId.isSome then .error "new submission sequence is already ACKed"
      else return ⟨[],w,.ok (r.seq,false)⟩
    else
      let (stored,receipt) ← wrapSubmission env r requestId
      checkReceipt env limits w.receipts receipt
      let bytes ← reservePending env limits r w.pending.length w.pendingBytes
      let stored ← causalWrap stored parent
      let encoded ← encodeFrame env limits stored
      ensureDisk limits w encoded.length
      let rotate:=decide (w.segBytes+encoded.length≥segmentMax)
      if rotate ∧ (w.segId=u64Max ∨ w.segments=limits.maxSegments) then
        .error "wal segment count/id budget exhausted"
      else return appendPlan env limits w r parent receipt bytes encoded rotate

def appendSubmission (r : WalRecord) (requestId : Option String) :
    Except String (Plan (ℕ × Bool)) :=
  appendSubmissionWithParent env limits segmentMax w r requestId none

def WalInner.sync : Except String (Plan Unit) := do
  w.healthy
  return ⟨[.sync w.segId],w,.ok ()⟩

def WalInner.clears (s : Stream) (seq : ℕ) : Bool :=
  w.pending.all fun p => p.record.stream==s&&decide (p.record.seq ≤ seq)

/-- The watermarks of the other streams, in the order of the map. -/
def otherAcks (order : Order (Stream × ℕ)) (w : WalInner) (s : Stream) : List WalRecord :=
  ((order.arrange (w.acked.entries.map fun e => (e.1,e.2))).filter fun e => e.1 != s).map
    fun e => ackRecord e.1.1 e.1.2 e.2

def checkpointSize (order : Order (Stream × ℕ)) (w : WalInner) (s : Stream) : Except String ℕ :=
  (otherAcks order w s).foldlM (fun total r => do checkpointAdd total (← encodedSize env limits r))
    w.receipts.checkpointBytes

def checkpointAfter (order : Order (Stream × ℕ)) (w : WalInner) (s : Stream) (clears : Bool) :
    Except String ℕ :=
  if clears then checkpointSize env limits order w s else .ok 0

def watermarkAfter (s : Stream) : Except String ℕ :=
  if (w.acked.lookup s).isSome then .ok w.watermarkBytes
  else reserveWatermark env limits w.watermarkBytes s

def WalInner.acknowledged (s : Stream) (seq watermarkBytes : ℕ) : WalInner :=
  let pending:=w.pending.filter fun p => !(p.record.stream==s&&decide (p.record.seq ≤ seq))
  {w with
    acked := w.acked.insert s seq
    watermarkBytes := watermarkBytes
    pending := pending
    pendingBytes := (pending.map fun p => recordMemory env p.record).sum}

/-- The frames up to the first record that cannot be encoded. -/
def encodeUntil : List WalRecord → List Bytes × Option String
  | [] => ([],none)
  | r::rest =>
    match encodeFrame env limits r with
    | .error e => ([],some e)
    | .ok frame => (frame::(encodeUntil rest).1,(encodeUntil rest).2)

/- The checkpoint and its directory entry are synced before an old segment is
removed. -/
def checkpointPlan (names : List ℕ) (receipts : Order Receipt) (w : WalInner) (s : Stream)
    (seq watermarkBytes size : ℕ) (marker : Bytes) (others : List WalRecord) : Plan Unit :=
  let next:=w.segId+1
  let (frames,failure):=encodeUntil env limits
    (others++(receipts.arrange w.receipts.iter).map (·.record env))
  let written : List (Effect ℕ) := .create next::(marker::frames).map (.write next)
  match failure with
  | some e => ⟨written,{w with failed:=true},.error e⟩
  | none =>
    let synced:=written++[.sync next,.syncDir]
    let w:={w with segId:=next,segBytes:=size}
    match listSegments (names++[next]) limits.maxSegments with
    | .error e => ⟨synced,{w with failed:=true},.error e⟩
    | .ok ids =>
      ⟨synced++((ids.filter (· < next)).map .unlink++[.syncDir]),
        WalInner.acknowledged env {w with diskBytes:=size,segments:=1} s seq watermarkBytes,.ok ()⟩

/- `names` is the directory as it is before the call. -/
def ack (names : List ℕ) (acks : Order (Stream × ℕ)) (receipts : Order Receipt) (w : WalInner)
    (endpoint sender : String) (seq : ℕ) : Except String (Plan Unit) := do
  w.healthy
  let marker:=ackRecord endpoint sender seq
  validateRecord marker true
  let s : Stream := (endpoint,sender)
  if (w.acked.lookup s).any fun n => decide (seq≤n) then return ⟨[],w,.ok ()⟩
  else if (w.acked.lookup s).isNone ∧ w.acked.keys.length=limits.maxStreams then
    .error "wal stream budget exceeded"
  else
    let watermarkBytes ← watermarkAfter env limits w s
    let frame ← encodeFrame env limits marker
    let clears:=w.clears s seq
    let checkpointBytes ← checkpointAfter env limits acks w s clears
    let size ← checkpointAdd frame.length checkpointBytes
    ensureDisk limits w size
    if clears ∧ (w.segId=u64Max ∨ w.segments=limits.maxSegments) then
      .error "wal checkpoint segment budget exhausted"
    else if clears then
      return checkpointPlan env limits names receipts w s seq watermarkBytes size frame
        (otherAcks acks w s)
    else
      return ⟨[.write w.segId frame],WalInner.acknowledged env (w.wrote frame) s seq watermarkBytes,.ok ()⟩

variable {σ : Type}

/- The position is where the next record begins; `tail` allows an unfinished one. -/
def scan (tail : Bool) (visit : σ → WalRecord → Except String σ) :
    ℕ → ℕ → Bytes → σ → Except String (σ × ℕ)
  | 0,position,_,st => .ok (st,position)
  | fuel+1,position,bytes,st =>
    match Frames.head checksum limits.maxRecordBytes bytes with
    | .done => .ok (st,position)
    | .torn =>
      if tail then .ok (st,position) else .error s!"wal corruption in sealed segment at {position}"
    | .badLength size => .error s!"wal invalid record length {size} at {position}"
    | .badCheck =>
      if tail then .error s!"wal checksum corruption in segment at {position}"
      else .error s!"wal checksum corruption in sealed segment at {position}"
    | .frame body rest =>
      match env.decodeRecord body with
      | .error e => .error s!"wal invalid record at {position}: {e}"
      | .ok record => do
        validateRecord record true
        let st ← visit st record
        scan tail visit fuel (position+(8+body.length)) rest st

def scanSegment (tail : Bool) (visit : σ → WalRecord → Except String σ) (bytes : Bytes)
    (st : σ) : Except String (σ × ℕ) :=
  if bytes.length>limits.maxDiskBytes then .error "wal disk byte budget exceeded"
  else scan env limits tail visit bytes.length 0 bytes st

structure Tail where
  sid : ℕ
  good : ℕ
  length : ℕ
  deriving DecidableEq

def scanAll (visit : σ → WalRecord → Except String σ) (last : Option ℕ) :
    List (ℕ × Bytes) → σ → Option Tail → Except String (σ × Option Tail)
  | [],st,tail => .ok (st,tail)
  | (sid,bytes)::rest,st,tail => do
    let (st,good) ← scanSegment env limits (some sid==last) visit bytes st
    scanAll visit last rest st (if good≠bytes.length then some ⟨sid,good,bytes.length⟩ else tail)

structure Acks where
  acked : AList fun _ : Stream => ℕ
  watermarkBytes : ℕ
  receipts : ReceiptIndex

def Acks.visit (st : Acks) (item : Item) : Except String Acks := do
  let receipts ← insertReceipt env limits st.receipts item.receipt
  match item.business with
  | none => return {st with receipts:=receipts}
  | some r =>
    if r.typeKey="#ack" then
      match st.acked.lookup r.stream with
      | some n => return ⟨st.acked.insert r.stream (max n r.seq),st.watermarkBytes,receipts⟩
      | none =>
        if st.acked.keys.length=limits.maxStreams then .error "wal stream budget exceeded"
        else
          let watermarkBytes ← reserveWatermark env limits st.watermarkBytes r.stream
          return ⟨st.acked.insert r.stream r.seq,watermarkBytes,receipts⟩
    else return {st with receipts:=receipts}

structure Pending where
  pending : List PendingRecord
  bytes : ℕ

def Pending.visit (acked : AList fun _ : Stream => ℕ) (st : Pending) (item : Item) :
    Except String Pending :=
  match item.business with
  | none => .ok st
  | some r =>
    if r.typeKey ≠ "#ack" ∧ isAcked acked r=false then do
      let bytes ← reservePending env limits r st.pending.length st.bytes
      return ⟨st.pending++[⟨r,item.parent⟩],bytes⟩
    else .ok st

def visitItem (visit : σ → Item → Except String σ) (st : σ) (r : WalRecord) :
    Except String σ := do
  visit st (← readItem env r)

/-- The sizes of the segments against the disk budget. -/
def sumSizes : List (ℕ × Bytes) → ℕ → Except String ℕ
  | [],total => .ok total
  | (_,bytes)::rest,total =>
    if total+bytes.length≤limits.maxDiskBytes then sumSizes rest (total+bytes.length)
    else .error "wal disk byte budget exceeded"

def readSegments (d : Disk ℕ) (ids : List ℕ) : Except String (List (ℕ × Bytes)) :=
  ids.mapM fun sid => match d.read sid with
    | some bytes => .ok (sid,bytes)
    | none => .error "wal open"

/- Nothing is repaired before all records and budgets have passed. -/
def openWithLimits (d : Disk ℕ) : Except String (Plan Unit) := do
  limits.validate segmentMax
  let ids ← listSegments (d.dir.map Prod.fst) limits.maxSegments
  let files ← readSegments d ids
  let diskBytes ← sumSizes limits files 0
  let segId:=ids.getLast?.getD 1
  match checkedAdd segId 1 with
  | none => .error "wal segment id exhausted"
  | some _ =>
    let (acks,tail) ← scanAll env limits (visitItem env (Acks.visit env limits)) ids.getLast? files
      ⟨∅,0,.empty⟩ none
    let (pending,_) ← scanAll env limits (visitItem env (Pending.visit env limits acks.acked))
      ids.getLast? files ⟨[],0⟩ none
    let length:=((d.read segId).map List.length).getD 0
    let lost:=(tail.map fun t => t.length-t.good).getD 0
    return {
      effects := (tail.map fun t => [Effect.truncate t.sid t.good,Effect.sync t.sid]).getD []++
        ((if ids.isEmpty then [.create segId] else [])++[.syncDir])
      wal := {
        acked := acks.acked
        watermarkBytes := acks.watermarkBytes
        pending := pending.pending
        pendingBytes := pending.bytes
        receipts := acks.receipts
        segId := segId
        segBytes := (tail.map Tail.good).getD length
        diskBytes := diskBytes-lost
        segments := max ids.length 1
        failed := false}
      result := .ok ()}

end env
end Parrot.Wal
