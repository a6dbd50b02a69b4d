import Parrot.Wal.System

/-! # Admission to an outbox (`durable/outbox.rs:122-129,397-405,597-654`)

An outbox is the writer of a log with one stream. -/

namespace Parrot.Outbox
open Machine Wal
open Bincode (Bytes)
open SegmentLog

structure Identity where
  receiver : String
  path : String
  sender : String

structure Command where
  parent : Option TraceParent
  requestId : Option String
  key : String
  payload : Bytes
  deriving DecidableEq

def Identity.stream (identity : Identity) : Stream := (identity.receiver,identity.sender)

def Identity.record (identity : Identity) (cmd : Command) (seq : ℕ) : WalRecord :=
  ⟨identity.receiver,identity.sender,seq,identity.path,cmd.key,cmd.payload⟩

def ackReservation (pending ackSize recordSize checkpointBytes extraCheckpoint : ℕ) : Option ℕ := do
  let n ← checkedAdd pending 1
  let n ← checkedMul n ackSize
  let n ← checkedAdd n recordSize
  let n ← checkedAdd n checkpointBytes
  checkedAdd n extraCheckpoint

section env
variable (env : WalEnv) (limits : WalLimits) (segmentMax : ℕ)

/-- What is stored for a submission, and the size of its receipt in a checkpoint. -/
def wrapChecked (receipts : ReceiptIndex) (r : WalRecord) : Option String → Except String (WalRecord × ℕ)
  | none => .ok (r,0)
  | some id => do
    let (stored,receipt) ← submissionWrap env r id
    receipts.check env limits receipt
    let size ← encodedSize env limits (receipt.record env)
    return (stored,size)

def appendForGroup (w : WalInner) (identity : Identity) (cmd : Command) (seq : ℕ) :
    Except String (Plan (ℕ × Bool)) := do
  let r:=identity.record cmd seq
  w.healthy
  match ← lookupSubmission env w.receipts r cmd.requestId with
  | some seq => return ⟨[],w,.ok (seq,false)⟩
  | none =>
    if seq=0 then .error "sequence exhausted"
    else
      let (stored,extraCheckpoint) ← wrapChecked env limits w.receipts r cmd.requestId
      let stored ← causalWrap stored cmd.parent
      let recordSize ← encodedSize env limits stored
      let ackSize ← encodedSize env limits (ackRecord identity.receiver identity.sender u64Max)
      match ackReservation w.pending.length ackSize recordSize w.receipts.checkpointBytes extraCheckpoint with
      | none => .error "ACK reservation overflow"
      | some reserve =>
        ensureDisk limits w reserve
        let rotate:=decide (w.segBytes+recordSize≥segmentMax)
        if saturatingAdd w.segments rotate.toNat≥limits.maxSegments ∨
            (checkedAdd w.segId (1+rotate.toNat)).isNone then
          .error "outbox must reserve a checkpoint segment"
        else appendSubmissionWithParent env limits segmentMax w r cmd.requestId cmd.parent

def Identity.ackSize (identity : Identity) : ℕ :=
  (recordFrame env (ackRecord identity.receiver identity.sender u64Max)).length

def receiptSize : Option Receipt → ℕ
  | none => 0
  | some receipt => (recordFrame env (receipt.record env)).length

structure Reserves (w : WalInner) (identity : Identity) (stored : WalRecord) (receipt : Option Receipt) :
    Prop where
  marker : (env.encodeRecord (ackRecord identity.receiver identity.sender u64Max)).length ≤
    limits.maxRecordBytes
  disk : w.diskBytes+((w.pending.length+1)*identity.ackSize env+(recordFrame env stored).length+
    w.receipts.checkpointBytes+receiptSize env receipt)≤limits.maxDiskBytes
  segments : w.segments+(decide (w.segBytes+(recordFrame env stored).length≥segmentMax)).toNat <
    limits.maxSegments
  segId : w.segId+1+(decide (w.segBytes+(recordFrame env stored).length≥segmentMax)).toNat≤u64Max

variable {env limits segmentMax} {w : WalInner} {identity : Identity} {cmd : Command} {seq : ℕ}

theorem segments_addressable (h : limits.validate segmentMax=.ok ()) : limits.maxSegments≤u64Max := by
  unfold WalLimits.validate at h
  obtain ⟨hbad,h⟩:=Except.of_ite_left h
  push Not at hbad
  have hlt:=hbad.2.2.2.2.2.2.2.2.2.2.2.2.2 limits.maxSegments (List.mem_cons_self ..)
  have hle : isizeMax≤u64Max := by decide
  omega

theorem ackReservation_eq {p a r c x n : ℕ} (h : ackReservation p a r c x=some n) : n=(p+1)*a+r+c+x := by
  simp only [ackReservation,bind,Option.bind_eq_some_iff] at h
  obtain ⟨n1,h1,n2,h2,n3,h3,n4,h4,h5⟩:=h
  obtain ⟨rfl,-⟩:=checkedAdd_eq_some.mp h1
  obtain ⟨rfl,-⟩:=checkedMul_eq_some.mp h2
  obtain ⟨rfl,-⟩:=checkedAdd_eq_some.mp h3
  obtain ⟨rfl,-⟩:=checkedAdd_eq_some.mp h4
  exact (checkedAdd_eq_some.mp h5).1

theorem wrapChecked_ok {r stored : WalRecord} {id : Option String} {extra : ℕ} {receipts : ReceiptIndex}
    (h : wrapChecked env limits receipts r id=.ok (stored,extra)) :
    ∃ receipt, wrapSubmission env r id=.ok (stored,receipt) ∧ extra=receiptSize env receipt := by
  cases id with
  | none =>
    cases h
    exact ⟨none,rfl,rfl⟩
  | some id =>
    obtain ⟨⟨inner,receipt⟩,hwrap,h⟩:=bind_eq_ok.mp h
    obtain ⟨_,-,h⟩:=bind_eq_ok.mp h
    obtain ⟨size,hsize,h⟩:=bind_eq_ok.mp h
    obtain ⟨-,rfl⟩:=ReceiptIndex.encodedSize_ok hsize
    cases h
    refine ⟨some receipt,?_,(recordFrame_length _).symm⟩
    simp only [wrapSubmission,hwrap]
    rfl

theorem appendForGroup_cases (hmax : limits.maxSegments≤u64Max) {plan : Plan (ℕ × Bool)}
    (h : appendForGroup env limits segmentMax w identity cmd seq=.ok plan) : (∃ seq, plan=⟨[],w,.ok (seq,false)⟩) ∨
    appendSubmissionWithParent env limits segmentMax w (identity.record cmd seq) cmd.requestId cmd.parent = .ok plan ∧
    ∃ inner stored receipt, wrapSubmission env (identity.record cmd seq) cmd.requestId=.ok (inner,receipt) ∧
    causalWrap inner cmd.parent=.ok stored ∧ Reserves env limits segmentMax w identity stored receipt := by
  unfold appendForGroup at h
  obtain ⟨-,-,h⟩:=bind_eq_ok.mp h
  obtain ⟨known,-,h⟩:=bind_eq_ok.mp h
  cases known with
  | some n => exact .inl ⟨n,(Except.ok.inj h).symm⟩
  | none =>
    dsimp only at h
    obtain ⟨-,h⟩:=Except.of_ite_left h
    obtain ⟨⟨inner,extra⟩,hwrap,h⟩:=bind_eq_ok.mp h
    obtain ⟨stored,hcausal,h⟩:=bind_eq_ok.mp h
    obtain ⟨recordSize,hrecord,h⟩:=bind_eq_ok.mp h
    obtain ⟨ackSize,hack,h⟩:=bind_eq_ok.mp h
    obtain ⟨-,rfl⟩:=ReceiptIndex.encodedSize_ok hrecord
    obtain ⟨hmarker,rfl⟩:=ReceiptIndex.encodedSize_ok hack
    obtain ⟨receipt,hwraps,rfl⟩:=wrapChecked_ok hwrap
    dsimp only at h
    cases hreserve : ackReservation w.pending.length
        ((env.encodeRecord (ackRecord identity.receiver identity.sender u64Max)).length+8)
        ((env.encodeRecord stored).length+8) w.receipts.checkpointBytes (receiptSize env receipt) with
    | none =>
      rw [hreserve] at h
      contradiction
    | some reserve =>
      rw [hreserve] at h
      obtain ⟨_,hdisk,h⟩:=bind_eq_ok.mp h
      obtain ⟨hroom,h⟩:=Except.of_ite_left h
      push Not at hroom
      obtain ⟨hsegs,hid⟩:=hroom
      refine .inr ⟨h,inner,stored,receipt,hwraps,hcausal,hmarker,?_,?_,?_⟩
      · have hbytes:=ensureDisk_ok hdisk
        rw [ackReservation_eq hreserve] at hbytes
        rw [Identity.ackSize,recordFrame_length,recordFrame_length]
        exact hbytes
      · rw [recordFrame_length]
        unfold saturatingAdd at hsegs
        omega
      · obtain ⟨n,hn⟩:=Option.ne_none_iff_exists'.mp (by simpa using hid)
        have hle:=(checkedAdd_eq_some.mp hn).2
        rw [recordFrame_length,Nat.add_assoc]
        exact hle

end env
end Parrot.Outbox
