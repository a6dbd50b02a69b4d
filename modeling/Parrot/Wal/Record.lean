import Parrot.Lib.Frames
import Parrot.Lib.Machine
import Parrot.Lib.Sha256

/-! # Records of the write-ahead log (`durable.rs:18-110,524-640`, `durable/causal.rs`,
`durable/submission.rs`)

A record is a message, an acknowledgement or the receipt of a keyed submission. -/

namespace Parrot.Wal
open List (take_left' drop_left' drop_drop)
open Machine
open Bincode (Bytes leBytes ofLeBytes utf8)

structure WalRecord where
  endpoint : String
  sender : String
  seq : ℕ
  path : String
  typeKey : String
  payload : Bytes

abbrev Stream := String × String

def WalRecord.stream (r : WalRecord) : Stream := (r.endpoint,r.sender)

structure WalLimits where
  maxRecordBytes : ℕ
  maxDiskBytes : ℕ
  maxSegments : ℕ
  maxPendingRecords : ℕ
  maxPendingBytes : ℕ
  maxStreams : ℕ
  maxWatermarkBytes : ℕ
  maxSubmissionReceipts : ℕ
  maxSubmissionReceiptBytes : ℕ

def wireLimit : ℕ := 16*1024*1024

def WalLimits.validate (l : WalLimits) (segmentMax : ℕ) : Except String Unit :=
  if segmentMax=0 ∨ l.maxDiskBytes=0 ∨ l.maxDiskBytes>isizeMax ∨ segmentMax>l.maxDiskBytes ∨
      l.maxRecordBytes=0 ∨ l.maxRecordBytes>wireLimit ∨ l.maxSegments=0 ∨
      l.maxPendingRecords=0 ∨ l.maxPendingBytes=0 ∨ l.maxStreams=0 ∨ l.maxWatermarkBytes=0 ∨
      l.maxSubmissionReceipts=0 ∨ l.maxSubmissionReceiptBytes=0 ∨
      ∃ v∈[l.maxSegments,l.maxPendingRecords,l.maxPendingBytes,l.maxStreams,l.maxWatermarkBytes,
        l.maxSubmissionReceipts,l.maxSubmissionReceiptBytes], v≥isizeMax then
    .error "wal invalid segment size or limits"
  else .ok ()

def crcRound (crc : UInt32) (_ : ℕ) : UInt32 :=
  if crc &&& 1≠0 then (crc >>> 1) ^^^ 0xEDB88320 else crc >>> 1

def crcByte (crc : UInt32) (b : UInt8) : UInt32 :=
  (List.range 8).foldl crcRound (crc ^^^ b.toUInt32)

def crc32 (data : Bytes) : UInt32 := ~~~ data.foldl crcByte 0xFFFFFFFF

def checksum (body : Bytes) : ℕ := (crc32 body).toNat

theorem checksum_lt (body : Bytes) : checksum body<256^4 :=
  (crc32 body).toNat_lt

/-- `parrot_api::trace::TraceParent`: both identifiers are nonzero. -/
structure TraceParent where
  traceId : Bytes
  spanId : Bytes
  traceId_length : traceId.length=16
  spanId_length : spanId.length=8
  traceId_ne : traceId≠List.replicate 16 0
  spanId_ne : spanId≠List.replicate 8 0
  deriving DecidableEq

def TraceParent.new (traceId spanId : Bytes) : Except String TraceParent :=
  if h : (traceId.length=16 ∧ spanId.length=8) ∧ traceId≠List.replicate 16 0 ∧
      spanId≠List.replicate 8 0 then .ok ⟨traceId,spanId,h.1.1,h.1.2,h.2.1,h.2.2⟩
  else .error "trace and parent span identifiers must both be nonzero"

theorem TraceParent.new_self (p : TraceParent) : TraceParent.new p.traceId p.spanId=.ok p := by
  unfold TraceParent.new
  rw [dif_pos ⟨⟨p.traceId_length,p.spanId_length⟩,p.traceId_ne,p.spanId_ne⟩]

structure Acceptance where
  requestId : String
  typeKey : String
  payload : Bytes

structure SavedReceipt where
  requestId : String
  fingerprint : Bytes
  deriving DecidableEq

def ackRecord (endpoint sender : String) (seq : ℕ) : WalRecord :=
  ⟨endpoint,sender,seq,"","#ack",[]⟩

/-- `bincode` over the three stored types, decoded whole under the limits of
`serde_remote_deserialize`, SHA-256, and the sizes of two types in memory. -/
structure WalEnv where
  encodeRecord : WalRecord → Bytes
  decodeRecord : Bytes → Except String WalRecord
  encodeAcceptance : Acceptance → Bytes
  decodeAcceptance : Bytes → Except String Acceptance
  encodeReceipt : SavedReceipt → Bytes
  decodeReceipt : Bytes → Except String SavedReceipt
  digest : Bytes → Bytes
  watermarkSize : ℕ
  pendingSize : ℕ
  record_pos : ∀ r, 0<(encodeRecord r).length
  payload_le : ∀ r, r.payload.length≤(encodeRecord r).length
  path_le : ∀ r, r.path.utf8ByteSize≤(encodeRecord r).length
  acceptance_le : ∀ a, a.typeKey.utf8ByteSize+a.payload.length≤(encodeAcceptance a).length
  decode_record : ∀ r, r.seq≤u64Max → (encodeRecord r).length≤wireLimit → decodeRecord (encodeRecord r)=.ok r
  decode_acceptance : ∀ a, (encodeAcceptance a).length≤wireLimit → decodeAcceptance (encodeAcceptance a)=.ok a
  decode_receipt : ∀ s, s.fingerprint.length=32 → (encodeReceipt s).length≤wireLimit →
    decodeReceipt (encodeReceipt s)=.ok s
  digest_length : ∀ b, (digest b).length=32
  ack_le : ∀ endpoint sender seq, seq≤u64Max → (encodeRecord (ackRecord endpoint sender seq)).length ≤
      (encodeRecord (ackRecord endpoint sender u64Max)).length

def acceptKey : String := "#outbox-accept-v1"
def receiptKey : String := "#outbox-receipt-v1"
def causalKey : String := "#outbox-causal-v1"

def submissionReserved (key : String) : Bool := key==acceptKey||key==receiptKey
def causalReserved (key : String) : Bool := "#outbox-causal-".toList.isPrefixOf key.toList

def validateRecord (r : WalRecord) (allowAck : Bool) : Except String Unit :=
  if r.seq=0 ∨ r.endpoint.isEmpty ∨ r.sender.isEmpty ∨ r.typeKey.isEmpty ∨
      (allowAck=false ∧ (submissionReserved r.typeKey ∨ causalReserved r.typeKey)) ∨
      (r.typeKey="#ack" ∧ (allowAck=false ∨ r.path.isEmpty=false ∨ r.payload.isEmpty=false)) then
    .error "wal invalid record identity, reserved ACK or zero sequence"
  else .ok ()

def checkInner (key : String) : Except String Unit :=
  if key.isEmpty ∨ causalReserved key ∨ key = "#ack" ∨ key=receiptKey then
    .error "invalid nested causal WAL record"
  else .ok ()

def causalWrap (record : WalRecord) : Option TraceParent → Except String WalRecord
  | none => .ok record
  | some parent => do
    checkInner record.typeKey
    if record.typeKey.utf8ByteSize≥256^4 then .error "causal WAL key too large"
    else
      return {record with
        typeKey := causalKey
        payload := 1::(parent.traceId++(parent.spanId++(leBytes 4 record.typeKey.utf8ByteSize++
          (utf8 record.typeKey++record.payload))))}

def causalRead (record : WalRecord) : Except String (WalRecord × Option TraceParent) :=
  if causalReserved record.typeKey=false then .ok (record,none)
  else if record.typeKey≠causalKey ∨ record.payload.length<29 ∨ record.payload.head? ≠ some 1 then
    .error "unsupported or truncated causal WAL record"
  else do
    let parent ← TraceParent.new ((record.payload.drop 1).take 16) ((record.payload.drop 17).take 8)
    let length:=ofLeBytes ((record.payload.drop 25).take 4)
    if 29+length>record.payload.length then .error "truncated causal WAL key"
    else
      match String.fromUTF8? ⟨((record.payload.drop 29).take length).toArray⟩ with
      | none => .error "invalid causal WAL key UTF-8"
      | some key =>
        checkInner key
        return ({record with typeKey:=key,payload:=record.payload.drop (29+length)},some parent)

def validateId (id : String) : Except String Unit :=
  if id.isEmpty ∨ id.utf8ByteSize>1024 ∨ id.toList.any isControl then
    .error "submission ID must contain 1..1024 bytes and no control characters"
  else .ok ()

structure Receipt where
  endpoint : String
  sender : String
  seq : ℕ
  saved : SavedReceipt
  deriving DecidableEq

namespace Receipt

def key (r : Receipt) : String × String × String := (r.endpoint,r.sender,r.saved.requestId)
def memory (r : Receipt) : ℕ :=
  512+3*(r.endpoint.utf8ByteSize+r.sender.utf8ByteSize+r.saved.requestId.utf8ByteSize)

end Receipt

section env
variable (env : WalEnv)

def Receipt.record (r : Receipt) : WalRecord :=
  ⟨r.endpoint,r.sender,r.seq,"",receiptKey,env.encodeReceipt r.saved⟩

/-- The bytes that are hashed: each part behind its length. -/
def fingerprintInput (r : WalRecord) : Bytes :=
  utf8 "parrot.outbox.submission.v1\x00"++
    ([utf8 r.path,utf8 r.typeKey,r.payload].map fun b => leBytes 8 b.length++b).flatten

def fingerprint (r : WalRecord) : Bytes := env.digest (fingerprintInput r)

def receiptOf (r : WalRecord) (id : String) : Receipt :=
  ⟨r.endpoint,r.sender,r.seq,⟨id,fingerprint env r⟩⟩

def submissionWrap (r : WalRecord) (id : String) : Except String (WalRecord × Receipt) := do
  validateId id
  validateRecord r false
  return ({r with
    typeKey := acceptKey
    payload := env.encodeAcceptance ⟨id,r.typeKey,r.payload⟩},receiptOf env r id)

def submissionRead (r : WalRecord) : Except String (Option WalRecord × Option Receipt) :=
  if r.typeKey=acceptKey then do
    let saved ← env.decodeAcceptance r.payload
    validateId saved.requestId
    let business:={r with typeKey:=saved.typeKey,payload:=saved.payload}
    validateRecord business false
    return (some business,some (receiptOf env business saved.requestId))
  else if r.typeKey=receiptKey then
    if r.path.isEmpty=false then .error "submission receipt has a business path"
    else do
      let saved ← env.decodeReceipt r.payload
      validateId saved.requestId
      return (none,some ⟨r.endpoint,r.sender,r.seq,saved⟩)
  else .ok (some r,none)

structure Item where
  business : Option WalRecord
  parent : Option TraceParent
  receipt : Option Receipt

def readItem (r : WalRecord) : Except String Item := do
  let (r,parent) ← causalRead r
  let (business,receipt) ← submissionRead env r
  return ⟨business,parent,receipt⟩

def encodedSize (limits : WalLimits) (r : WalRecord) : Except String ℕ :=
  if (env.encodeRecord r).length>limits.maxRecordBytes then .error "wal encode budget"
  else .ok ((env.encodeRecord r).length+8)

def recordFrame (r : WalRecord) : Bytes := Frames.frame checksum (env.encodeRecord r)

def encodeFrame (limits : WalLimits) (r : WalRecord) : Except String Bytes := do
  let _ ← encodedSize env limits r
  return recordFrame env r

variable {env} {r : WalRecord} {parent : Option TraceParent} {id : String}

theorem validate_business (h : validateRecord r false=.ok ()) :
    r.seq≠0 ∧ r.endpoint.isEmpty=false ∧ r.sender.isEmpty=false ∧ r.typeKey.isEmpty=false ∧
      submissionReserved r.typeKey=false ∧ causalReserved r.typeKey=false ∧ r.typeKey ≠ "#ack" := by
  unfold validateRecord at h
  obtain ⟨hcond,h⟩:=Except.of_ite_left h
  push Not at hcond
  obtain ⟨h1,h2,h3,h4,h5,h6⟩:=hcond
  refine ⟨h1,by simpa using h2,by simpa using h3,by simpa using h4,?_,?_,?_⟩
  · simpa using (h5 rfl).1
  · simpa using (h5 rfl).2
  · intro hack
    exact (h6 hack).1 rfl

theorem validate_stored (h : validateRecord r false=.ok ()) {key : String} (hkey : key.isEmpty=false)
    (hack : key ≠ "#ack") (payload : Bytes) :
    validateRecord {r with typeKey:=key,payload:=payload} true=.ok () := by
  obtain ⟨h1,h2,h3,-⟩:=validate_business h
  unfold validateRecord
  rw [if_neg]
  simp [h1,h2,h3,hkey,hack]

theorem causalReserved_causalKey : causalReserved causalKey=true := by decide

variable {stored : WalRecord}

theorem causalRead_wrap (hkey : causalReserved r.typeKey=false)
    (h : causalWrap r parent=.ok stored) : causalRead stored=.ok (r,parent) := by
  cases parent with
  | none =>
    cases h
    exact if_pos hkey
  | some p =>
    simp only [causalWrap] at h
    cases hin : checkInner r.typeKey with
    | error e => simp [hin,bind,Except.bind] at h
    | ok u =>
      simp only [hin,bind,Except.bind] at h
      obtain ⟨hsize,h⟩:=Except.of_ite_left h
      cases h
      have ht:=p.traceId_length
      have hs:=p.spanId_length
      have hk : (utf8 r.typeKey).length=r.typeKey.utf8ByteSize := Bincode.utf8_length _
      have h4 : (leBytes 4 r.typeKey.utf8ByteSize).length=4 := Bincode.leBytes_length ..
      generalize hpay : (1::(p.traceId++(p.spanId++(leBytes 4 r.typeKey.utf8ByteSize++
        (utf8 r.typeKey++r.payload)))) : Bytes)=payload
      have hlen : payload.length=29+r.typeKey.utf8ByteSize+r.payload.length := by
        rw [← hpay]
        simp only [List.length_cons,List.length_append]
        omega
      have hd1 : (payload.drop 1).take 16=p.traceId := by
        rw [← hpay,List.drop_succ_cons,List.drop_zero,take_left' ht]
      have hd17 : payload.drop 17=p.spanId++(leBytes 4 r.typeKey.utf8ByteSize++
          (utf8 r.typeKey++r.payload)) := by
        rw [← hpay,List.drop_succ_cons,drop_left' ht]
      have hd25 : payload.drop 25=leBytes 4 r.typeKey.utf8ByteSize++(utf8 r.typeKey++r.payload) := by
        rw [show (25 : ℕ)=17+8 from rfl,← drop_drop,hd17,drop_left' hs]
      have hd29 : payload.drop 29=utf8 r.typeKey++r.payload := by
        rw [show (29 : ℕ)=25+4 from rfl,← drop_drop,hd25,drop_left' h4]
      have hread : ofLeBytes ((payload.drop 25).take 4)=r.typeKey.utf8ByteSize := by
        rw [hd25,take_left' h4,Bincode.ofLeBytes_leBytes (by omega)]
      have hhead : payload.head? = some 1 := by rw [← hpay]; rfl
      have hrest : payload.drop (29+r.typeKey.utf8ByteSize)=r.payload := by
        rw [← drop_drop,hd29,drop_left' hk]
      unfold causalRead
      dsimp only
      rw [if_neg (by rw [causalReserved_causalKey]; simp),if_neg (by simp [hhead]; omega),hd1,hd17,
        take_left' hs,TraceParent.new_self]
      simp only [bind,Except.bind,pure,Except.pure]
      rw [hread,if_neg (by omega),hd29,take_left' hk,Bincode.fromUTF8_utf8,hrest]
      simp only [hin]

theorem submissionRead_plain (h : submissionReserved r.typeKey=false) : submissionRead env r=.ok (some r,none) := by
  simp only [submissionReserved,Bool.or_eq_false_iff,beq_eq_false_iff_ne] at h
  unfold submissionRead
  rw [if_neg h.1,if_neg h.2]

variable {receipt : Receipt}

theorem submissionWrap_ok
    (h : submissionWrap env r id=.ok (stored,receipt)) :
    validateId id=.ok () ∧ validateRecord r false=.ok () ∧ receipt=receiptOf env r id ∧ stored={r with
        typeKey := acceptKey
        payload := env.encodeAcceptance ⟨id,r.typeKey,r.payload⟩} := by
  unfold submissionWrap at h
  cases hid : validateId id with
  | error e => simp [hid,bind,Except.bind] at h
  | ok u =>
    cases hv : validateRecord r false with
    | error e => simp [hid,hv,bind,Except.bind] at h
    | ok v =>
      simp only [hid,hv,bind,Except.bind,pure,Except.pure,Except.ok.injEq,Prod.mk.injEq] at h
      exact ⟨rfl,rfl,h.2.symm,h.1.symm⟩

theorem submissionRead_wrap (h : submissionWrap env r id=.ok (stored,receipt))
    (hlen : stored.payload.length≤wireLimit) : submissionRead env stored=.ok (some r,some receipt) := by
  obtain ⟨hid,hv,rfl,rfl⟩:=submissionWrap_ok h
  unfold submissionRead
  rw [if_pos rfl,env.decode_acceptance _ hlen]
  simp only [bind,Except.bind,hid,hv]
  rfl

theorem causalWrap_fields (h : causalWrap r parent=.ok stored) :
    stored.seq=r.seq ∧ r.payload.length ≤ stored.payload.length ∧
      (parent=none ∧ stored=r ∨ ∃ payload, stored={r with typeKey:=causalKey,payload:=payload}) := by
  cases parent with
  | none =>
    cases h
    exact ⟨rfl,le_rfl,.inl ⟨rfl,rfl⟩⟩
  | some p =>
    simp only [causalWrap] at h
    cases hin : checkInner r.typeKey with
    | error e => simp [hin,bind,Except.bind] at h
    | ok u =>
      simp only [hin,bind,Except.bind] at h
      obtain ⟨-,h⟩:=Except.of_ite_left h
      cases h
      refine ⟨rfl,?_,.inr ⟨_,rfl⟩⟩
      simp only [List.length_cons,List.length_append]
      omega

theorem readItem_eq {r' : WalRecord} {business : Option WalRecord} {receipt : Option Receipt}
    (h : causalRead r=.ok (r',parent)) (h' : submissionRead env r'=.ok (business,receipt)) :
    readItem env r=.ok ⟨business,parent,receipt⟩ := by
  unfold readItem
  rw [h]
  simp only [bind,Except.bind]
  rw [h']
  rfl

theorem readItem_ack (endpoint sender : String) (seq : ℕ) :
    readItem env (ackRecord endpoint sender seq)=.ok ⟨some (ackRecord endpoint sender seq),none,none⟩ :=
  readItem_eq (if_pos (show causalReserved "#ack" = false by decide))
    (submissionRead_plain (show submissionReserved "#ack" = false by decide))

theorem readItem_receipt (hid : validateId receipt.saved.requestId=.ok ()) (hfp : receipt.saved.fingerprint.length=32)
    (hlen : (env.encodeReceipt receipt.saved).length≤wireLimit) :
    readItem env (receipt.record env)=.ok ⟨none,none,some receipt⟩ := by
  have hc : causalRead (receipt.record env)=.ok (receipt.record env,none) :=
    if_pos (show causalReserved receiptKey=false by decide)
  refine readItem_eq hc ?_
  have h0 : (receipt.record env).typeKey=receiptKey := rfl
  have h1 : (receipt.record env).typeKey≠acceptKey := show receiptKey≠acceptKey by decide
  have h2 : ¬ (receipt.record env).path.isEmpty=false := show ¬ "".isEmpty=false by decide
  have h3 : (receipt.record env).payload=env.encodeReceipt receipt.saved := rfl
  unfold submissionRead
  rw [if_neg h1,if_pos h0,if_neg h2,h3,env.decode_receipt _ hfp hlen]
  simp only [bind,Except.bind,hid]
  rfl

end env
end Parrot.Wal
