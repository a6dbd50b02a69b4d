import Parrot.Inbox.Envelope
import Parrot.Link.Prefixes
import Parrot.Outbox.Worker

/-! # Sending what was admitted (`durable/outbox.rs:407-478,655-745`, `ref_.rs:72-80,183-345`, `frame.rs:218-235`)

Admission adds up the parts of a message. -/

namespace Parrot.Outbox
open Machine Wal Parrot.Wire
open Bincode (Bytes)
open Inbox (DurableEnvelope durableReceiptKey)
open Link (FrameSender newHeader)

def tell (path typeKey : String) (payload : Bytes) : Frame := ⟨newHeader FrameType.tell 0,path,typeKey,payload⟩

def tellWithAck (cid : UInt64) (path typeKey : String) (payload : Bytes) : Frame :=
  let frame:=tell path typeKey payload
  {frame with header := {frame.header with
    correlationId := cid
    flags := frame.header.flags ||| Flags.tellAck}}

def outgoing (hopLimit : UInt8) (frame : Frame) : Frame := {frame with header := {frame.header with hopLimit:=hopLimit}}

inductive DeliveryError where
  | envelope (reason : String)
  | frame (e : FrameError)

def BoundIdentity.targetPath (identity : BoundIdentity) : String := "parrot://"++identity.receiver++identity.path

def BoundIdentity.wireMessage (identity : BoundIdentity) (r : WalRecord) : Except DeliveryError (String × Bytes) :=
  if identity.transactional then
    match (identity.envelope r).encode with
    | .error e => .error (.envelope e)
    | .ok bytes => .ok (Inbox.durableKey,bytes)
  else .ok (r.typeKey,r.payload)

/-- The frame that an attempt gives to its connection. The trace of the attempt is the one
stored with the record. -/
def BoundIdentity.deliveryFrame (identity : BoundIdentity) (sender : FrameSender) (hopLimit : UInt8) (cid : UInt64)
    (p : PendingRecord) : Except DeliveryError Frame := do
  let (typeKey,payload) ← identity.wireMessage p.record
  match sender.traceRequest p.parent (outgoing hopLimit (tellWithAck cid identity.targetPath typeKey payload)) with
  | .error e => .error (.frame e)
  | .ok frame => .ok frame

/-- An attempt has a frame, and the frame can be encoded. -/
def BoundIdentity.Sendable (identity : BoundIdentity) (sender : FrameSender) (hopLimit : UInt8) (cid : UInt64)
    (p : PendingRecord) : Prop :=
  ∃ frame size, identity.deliveryFrame sender hopLimit cid p=.ok frame ∧ frame.validateSize maxFrameLen=.ok size

/-- The keys that the log and the protocol keep for themselves. -/
def ReservedKey (typeKey : String) : Prop :=
  typeKey.isEmpty ∨ submissionReserved typeKey ∨ causalReserved typeKey ∨ typeKey="#ack" ∨
    typeKey=Inbox.durableKey ∨ typeKey=durableReceiptKey

theorem exceedsFrame_sum {a b c : ℕ} :
    exceedsFrame ((checkedAdd a b).bind (checkedAdd · c))=false ↔ a+b+c ≤ maxFrameLen := by
  have hmax : maxFrameLen≤u64Max := by decide
  constructor
  · intro h
    cases hsum : (checkedAdd a b).bind (checkedAdd · c) with
    | none => simp [exceedsFrame,hsum] at h
    | some n =>
      obtain ⟨m,hm,hn⟩:=Option.bind_eq_some_iff.mp hsum
      have h1:=(checkedAdd_eq_some.mp hm).1
      have h2:=(checkedAdd_eq_some.mp hn).1
      have hle : n ≤ maxFrameLen := by simpa [exceedsFrame,hsum] using h
      omega
  · intro h
    have hsum : (checkedAdd a b).bind (checkedAdd · c)=some (a+b+c) := by
      rw [checkedAdd_eq_some.mpr ⟨rfl,by omega⟩]
      exact checkedAdd_eq_some.mpr ⟨rfl,by omega⟩
    simpa [exceedsFrame,hsum] using h

variable {e : DurableEnvelope}

theorem encodedLen_iff {n : ℕ} : e.encodedLen=.ok n ↔
    n=19+e.source.utf8ByteSize+e.session.utf8ByteSize+e.receiver.utf8ByteSize+e.path.utf8ByteSize+
      e.typeKey.utf8ByteSize+e.payload.length ∧ n≤u64Max := by
  unfold DurableEnvelope.encodedLen
  constructor
  · intro h
    split at h
    · rename_i m hm
      cases h
      simp only [List.foldlM_cons,List.foldlM_nil,Option.bind_eq_bind,Option.bind_eq_some_iff,checkedAdd_eq_some,
        Option.pure_def,Option.some.injEq] at hm
      obtain ⟨a,⟨ha,-⟩,b,⟨hb,-⟩,c,⟨hc,-⟩,d,⟨hd,-⟩,f,⟨hf,-⟩,g,⟨hg,hle⟩,hlast⟩:=hm
      omega
    · contradiction
  · rintro ⟨rfl,hle⟩
    have hsum : [e.source.utf8ByteSize,e.session.utf8ByteSize,e.receiver.utf8ByteSize,e.path.utf8ByteSize,
        e.typeKey.utf8ByteSize,e.payload.length].foldlM checkedAdd 19 =
        some (19+e.source.utf8ByteSize+e.session.utf8ByteSize+e.receiver.utf8ByteSize+e.path.utf8ByteSize+
          e.typeKey.utf8ByteSize+e.payload.length) := by
      simp only [List.foldlM_cons,List.foldlM_nil,Option.bind_eq_bind,Option.bind_eq_some_iff,checkedAdd_eq_some,
        Option.pure_def,Option.some.injEq]
      exact ⟨_,⟨rfl,by omega⟩,_,⟨rfl,by omega⟩,_,⟨rfl,by omega⟩,_,⟨rfl,by omega⟩,_,⟨rfl,by omega⟩,_,⟨rfl,hle⟩,rfl⟩
    rw [hsum]

def Shaped (e : DurableEnvelope) : Prop :=
  DurableEnvelope.validateNode e.source=.ok () ∧ DurableEnvelope.validateNode e.receiver=.ok () ∧
    ¬(e.sequence=0 ∨ e.session.isEmpty ∨ e.session.utf8ByteSize>1024 ∨ e.session.toList.contains '\x00' ∨
      e.path.toList.head? ≠ some '/' ∨ e.path.utf8ByteSize>4096 ∨ e.path.toList.contains '\x00' ∨
      e.typeKey.isEmpty ∨ e.typeKey.utf8ByteSize>1024 ∨ e.typeKey=Inbox.durableKey ∨
      e.typeKey=durableReceiptKey ∨ e.typeKey="#ack")

def envelopeSize (e : DurableEnvelope) : ℕ :=
  19+e.source.utf8ByteSize+e.session.utf8ByteSize+e.receiver.utf8ByteSize+e.path.utf8ByteSize+
    e.typeKey.utf8ByteSize+e.payload.length

theorem validate_iff : e.validate=.ok () ↔
    Shaped e ∧ envelopeSize e+e.targetPath.utf8ByteSize+(Inbox.durableKey.utf8ByteSize+bodyFixedOverhead) ≤ maxFrameLen := by
  have hmax : maxFrameLen≤u64Max := by decide
  unfold DurableEnvelope.validate Shaped
  constructor
  · intro h
    obtain ⟨⟨⟩,hsource,h⟩:=bind_eq_ok.mp h
    obtain ⟨⟨⟩,hreceiver,h⟩:=bind_eq_ok.mp h
    obtain ⟨hfields,h⟩:=Except.of_ite_left h
    obtain ⟨n,hlen,h⟩:=bind_eq_ok.mp h
    obtain ⟨hn,-⟩:=encodedLen_iff.mp hlen
    refine ⟨⟨hsource,hreceiver,hfields⟩,?_⟩
    dsimp only at h
    obtain ⟨htotal,h⟩:=Except.of_ite_left h
    have hfits:=exceedsFrame_sum.mp (Bool.not_eq_true _ ▸ htotal)
    rw [hn] at hfits
    exact hfits
  · rintro ⟨⟨hsource,hreceiver,hfields⟩,hfits⟩
    have hlen : e.encodedLen=.ok (envelopeSize e) := encodedLen_iff.mpr ⟨rfl,by omega⟩
    have htotal:=exceedsFrame_sum.mpr hfits
    unfold exceedsFrame at htotal
    rw [hsource,hreceiver]
    simp only [bind,Except.bind,hfields,if_false,hlen,htotal]
    simp

theorem encode_length {bytes : Bytes} (h : e.encode=.ok bytes) : bytes.length=envelopeSize e := by
  obtain ⟨-,rfl⟩:=DurableEnvelope.encode_ok.mp h
  simp only [DurableEnvelope.layout,DurableEnvelope.fields,DurableEnvelope.texts,envelopeSize,List.flatMap_cons,
    List.flatMap_nil,List.length_cons,List.length_append,DurableEnvelope.lengths_length,Bincode.leBytes_length,
    Bincode.utf8_length,List.length_nil]
  omega

variable {identity : BoundIdentity} {sender : FrameSender} {hopLimit : UInt8} {cid : UInt64} {p : PendingRecord}
  {path typeKey : String} {payload : Bytes}

def prefixBytes (sender : FrameSender) (parent : Option TraceParent) : ℕ :=
  if parent.isSome ∧ sender.supportsTraceContext then traceContextBytes else 0

theorem tellWithAck_bodyLen : (outgoing hopLimit (tellWithAck cid path typeKey payload)).bodyLen =
    bodyFixedOverhead+path.utf8ByteSize+typeKey.utf8ByteSize+payload.length := rfl

theorem tellWithAck_flags : (outgoing hopLimit (tellWithAck cid path typeKey payload)).header.flags=Flags.tellAck := by
  have hflags : (0 : UInt16) ||| Flags.tellAck=Flags.tellAck := by decide
  exact hflags

theorem tellWithAck_valid (hcid : cid≠0) :
    (outgoing hopLimit (tellWithAck cid path typeKey payload)).validatePayloadFlags=.ok () := by
  have hflags : (outgoing hopLimit (tellWithAck cid path typeKey payload)).header.flags=Flags.tellAck :=
    tellWithAck_flags
  have hack : Flags.tellAck≠0 := by decide
  have hknown : Flags.tellAck &&& ~~~Flags.supported=0 := by decide
  have hshadow : Flags.tellAck &&& Flags.mirrorShadow=0 := by decide
  have htrace : Flags.tellAck &&& Flags.traceContext=0 := by decide
  have hbatch : Flags.tellAck &&& Flags.batch=0 := by decide
  have hboth : ¬Flags.tellAck &&& (Flags.batch ||| Flags.urgent)=Flags.batch ||| Flags.urgent := by decide
  have hsupported : ¬(outgoing hopLimit (tellWithAck cid path typeKey payload)).Unsupported := by
    unfold Frame.Unsupported
    simp only [hflags,hknown,hshadow,htrace,hbatch,hboth,ne_eq,not_true_eq_false,false_and,or_false,false_or]
    simp [outgoing,tellWithAck,tell,newHeader,hcid,hack]
  unfold Frame.validatePayloadFlags
  rw [if_neg hsupported]
  simp only [hflags,htrace,hshadow]
  rfl

theorem traceRequest_sized (hcid : cid≠0) (parent : Option TraceParent) :
    (∃ frame size, sender.traceRequest parent (outgoing hopLimit (tellWithAck cid path typeKey payload))=.ok frame ∧
      frame.validateSize maxFrameLen=.ok size) ↔
    bodyFixedOverhead+path.utf8ByteSize+typeKey.utf8ByteSize+payload.length+prefixBytes sender parent ≤ maxFrameLen := by
  have hplain : (∃ size, (outgoing hopLimit (tellWithAck cid path typeKey payload)).validateSize maxFrameLen=.ok size) ↔
      bodyFixedOverhead+path.utf8ByteSize+typeKey.utf8ByteSize+payload.length ≤ maxFrameLen := by
    simp only [Codec.validateSize_ok,tellWithAck_bodyLen,min_self]
    simp
  unfold FrameSender.traceRequest prefixBytes
  cases parent with
  | none => simpa using hplain
  | some parent =>
    by_cases hsupports : sender.supportsTraceContext=true
    · simp only [hsupports,if_true,Option.isSome_some,and_self]
      constructor
      · rintro ⟨frame,size,hframe,-⟩
        exact (Link.withTraceParent_ok.mp hframe).size
      · intro hfits
        have hfree : (outgoing hopLimit (tellWithAck cid path typeKey payload)).header.flags &&&
            (Flags.batch ||| Flags.traceContext)=0 := by
          rw [tellWithAck_flags]
          decide
        refine ⟨_,_,Link.withTraceParent_ok.mpr ⟨.inr rfl,hfree,tellWithAck_valid hcid,hfits,rfl⟩,
          Codec.validateSize_ok.mpr ⟨rfl,?_⟩⟩
        simp [Frame.bodyLen,outgoing,tellWithAck,tell,parent.traceId_length,parent.spanId_length] at hfits ⊢
        simp only [traceContextBytes] at hfits
        omega
    · simpa [hsupports] using hplain

theorem targetPath_size : identity.targetPath.utf8ByteSize =
    "parrot://".utf8ByteSize+identity.receiver.utf8ByteSize+identity.path.utf8ByteSize := by
  simp [BoundIdentity.targetPath,String.utf8ByteSize_append]

def BoundIdentity.probe (identity : BoundIdentity) (typeKey : String) : DurableEnvelope :=
  ⟨identity.source,identity.sender,identity.receiver,identity.path,1,typeKey,[]⟩

theorem validateProbe_iff {probe : DurableEnvelope} {len extra : ℕ} : validateProbe probe len extra=.ok () ↔
    probe.validate=.ok () ∧ envelopeSize probe+len+extra ≤ maxFrameLen := by
  have hmax : maxFrameLen≤u64Max := by decide
  unfold validateProbe
  constructor
  · intro h
    obtain ⟨⟨⟩,hvalid,h⟩:=bind_eq_ok.mp h
    obtain ⟨n,hlen,h⟩:=bind_eq_ok.mp h
    obtain ⟨hn,-⟩:=encodedLen_iff.mp hlen
    refine ⟨hvalid,?_⟩
    obtain ⟨htotal,h⟩:=Except.of_ite_left h
    have hfits:=exceedsFrame_sum.mp (Bool.not_eq_true _ ▸ htotal)
    rw [hn] at hfits
    exact hfits
  · rintro ⟨hvalid,hfits⟩
    have hlen : probe.encodedLen=.ok (envelopeSize probe) := encodedLen_iff.mpr ⟨rfl,by omega⟩
    rw [hvalid]
    simp only [bind,Except.bind,hlen,exceedsFrame_sum.mpr hfits]
    rfl

theorem chargedSize {key len trace : ℕ} : ((checkedAdd key len).bind (checkedAdd · trace)).filter
    (fun n => decide (n<2^32))=if key+len+trace<2^32 then some (key+len+trace) else none := by
  have hmax : 2^32≤u64Max := by decide
  split
  · rename_i hlt
    have hsum : (checkedAdd key len).bind (checkedAdd · trace)=some (key+len+trace) := by
      rw [checkedAdd_eq_some.mpr ⟨rfl,by omega⟩]
      exact checkedAdd_eq_some.mpr ⟨rfl,by omega⟩
    rw [hsum]
    simpa using hlt
  · rename_i hge
    rw [Option.filter_eq_none_iff]
    intro n hn
    obtain ⟨m,hm,hn⟩:=Option.bind_eq_some_iff.mp hn
    have h1:=(checkedAdd_eq_some.mp hm).1
    have h2:=(checkedAdd_eq_some.mp hn).1
    simp only [decide_eq_true_eq]
    omega

def tracedBytes (traced : Bool) : ℕ := if traced then traceContextBytes else 0

theorem validateMessage_iff {len : ℕ} {traced : Bool} : (∃ size, identity.validateMessage typeKey len traced=.ok size) ↔
    ¬ReservedKey typeKey ∧
      bodyFixedOverhead+identity.targetPath.utf8ByteSize+typeKey.utf8ByteSize+len+tracedBytes traced ≤ maxFrameLen ∧
      (identity.transactional=true → (identity.probe typeKey).validate=.ok () ∧
        envelopeSize (identity.probe typeKey)+len+
          (identity.targetPath.utf8ByteSize+Inbox.durableKey.utf8ByteSize+bodyFixedOverhead+tracedBytes traced) ≤
          maxFrameLen) := by
  have hmax : maxFrameLen<2^32 := by decide
  rw [targetPath_size]
  unfold BoundIdentity.validateMessage ReservedKey tracedBytes
  dsimp only
  rw [chargedSize]
  by_cases hkey : typeKey.isEmpty ∨ submissionReserved typeKey ∨ causalReserved typeKey ∨ typeKey="#ack" ∨
      typeKey=Inbox.durableKey ∨ typeKey=durableReceiptKey
  · rw [if_pos hkey]
    constructor
    · rintro ⟨size,h⟩
      contradiction
    · rintro ⟨hfree,-⟩
      exact absurd hkey hfree
  · rw [if_neg hkey]
    simp only [hkey,not_false_eq_true,true_and]
    by_cases hcharged : typeKey.utf8ByteSize+len+(if traced=true then traceContextBytes else 0)<2^32
    · rw [if_pos hcharged]
      dsimp only
      have hsum:=@exceedsFrame_sum ("parrot://".utf8ByteSize+identity.receiver.utf8ByteSize+
        identity.path.utf8ByteSize) (typeKey.utf8ByteSize+len+(if traced=true then traceContextBytes else 0))
        bodyFixedOverhead
      by_cases hplain : exceedsFrame ((checkedAdd ("parrot://".utf8ByteSize+identity.receiver.utf8ByteSize+
          identity.path.utf8ByteSize) (typeKey.utf8ByteSize+len+(if traced=true then traceContextBytes else 0))).bind
            (checkedAdd · bodyFixedOverhead))=true
      · rw [if_pos hplain]
        constructor
        · rintro ⟨size,h⟩
          contradiction
        · rintro ⟨hfits,-⟩
          have hfalse:=hsum.mpr (by omega)
          rw [hplain] at hfalse
          contradiction
      · have hfits:=hsum.mp (Bool.not_eq_true _ ▸ hplain)
        rw [if_neg hplain]
        cases htx : identity.transactional with
        | false => simpa using (by omega)
        | true =>
          simp only [if_true]
          have hprobe : validateProbe (identity.probe typeKey) len ("parrot://".utf8ByteSize+identity.receiver.utf8ByteSize+
              identity.path.utf8ByteSize+Inbox.durableKey.utf8ByteSize+bodyFixedOverhead+
              (if traced=true then traceContextBytes else 0))=.ok () ↔ _ := validateProbe_iff
          unfold BoundIdentity.probe at hprobe ⊢
          constructor
          · rintro ⟨size,h⟩
            split at h
            · contradiction
            · rename_i hok
              exact ⟨by omega,fun _ => hprobe.mp hok⟩
          · rintro ⟨-,h⟩
            rw [hprobe.mpr (h trivial)]
            exact ⟨_,rfl⟩
    · rw [if_neg hcharged]
      constructor
      · rintro ⟨size,h⟩
        contradiction
      · rintro ⟨hfits,-⟩
        omega

theorem sendable_plain (hmode : identity.transactional=false) (hcid : cid≠0) : identity.Sendable sender hopLimit cid
    p ↔ bodyFixedOverhead+identity.targetPath.utf8ByteSize+p.record.typeKey.utf8ByteSize+p.record.payload.length+
    prefixBytes sender p.parent ≤ maxFrameLen := by
  unfold BoundIdentity.Sendable BoundIdentity.deliveryFrame BoundIdentity.wireMessage
  rw [hmode,← traceRequest_sized hcid]
  simp only [Bool.false_eq_true,if_false,bind,Except.bind]
  constructor
  · rintro ⟨frame,size,hframe,hsize⟩
    split at hframe
    · contradiction
    · rename_i heq
      cases hframe
      exact ⟨_,size,heq,hsize⟩
  · rintro ⟨frame,size,hframe,hsize⟩
    rw [hframe]
    exact ⟨frame,size,rfl,hsize⟩

theorem sendable_transactional (hmode : identity.transactional=true) (hcid : cid≠0) :
    identity.Sendable sender hopLimit cid p ↔ (identity.envelope p.record).validate=.ok () ∧
      bodyFixedOverhead+identity.targetPath.utf8ByteSize+Inbox.durableKey.utf8ByteSize+
        envelopeSize (identity.envelope p.record)+prefixBytes sender p.parent ≤ maxFrameLen := by
  unfold BoundIdentity.Sendable BoundIdentity.deliveryFrame BoundIdentity.wireMessage
  rw [hmode]
  simp only [if_true,bind,Except.bind]
  constructor
  · rintro ⟨frame,size,hframe,hsize⟩
    split at hframe
    · contradiction
    · rename_i message hmessage
      split at hmessage
      · contradiction
      · rename_i bytes hbytes
        cases hmessage
        dsimp only at hframe
        split at hframe
        · contradiction
        · rename_i heq
          cases hframe
          have hfits:=(traceRequest_sized hcid p.parent).mp ⟨_,size,heq,hsize⟩
          rw [encode_length hbytes] at hfits
          exact ⟨(DurableEnvelope.encode_ok.mp hbytes).1,hfits⟩
  · rintro ⟨hvalid,hfits⟩
    have hbytes:=DurableEnvelope.encode_ok.mpr ⟨hvalid,rfl⟩
    rw [← encode_length hbytes] at hfits
    obtain ⟨frame,size,hframe,hsize⟩:=(@traceRequest_sized _ hopLimit _ _ _ _ hcid p.parent).mpr hfits
    rw [hbytes]
    dsimp only
    rw [hframe]
    exact ⟨frame,size,rfl,hsize⟩

theorem probe_shaped {r : WalRecord} (hseq : r.seq≠0) : Shaped (identity.envelope r) ↔ Shaped (identity.probe r.typeKey) := by
  simp [Shaped,BoundIdentity.envelope,BoundIdentity.probe,hseq]

theorem envelope_target (r : WalRecord) : (identity.envelope r).targetPath=identity.targetPath := rfl

theorem probe_target (typeKey : String) : (identity.probe typeKey).targetPath=identity.targetPath := rfl

theorem envelope_size (r : WalRecord) :
    envelopeSize (identity.envelope r)=envelopeSize (identity.probe r.typeKey)+r.payload.length := by
  simp [envelopeSize,BoundIdentity.envelope,BoundIdentity.probe]

theorem envelope_large (r : WalRecord) : r.typeKey.utf8ByteSize+r.payload.length≤envelopeSize (identity.envelope r) := by
  unfold envelopeSize BoundIdentity.envelope
  dsimp only
  omega

theorem prefix_le (sender : FrameSender) (parent : Option TraceParent) :
    prefixBytes sender parent≤tracedBytes parent.isSome := by
  unfold prefixBytes tracedBytes
  cases parent <;> cases sender.supportsTraceContext <;> simp

theorem prefix_eq {parent : Option TraceParent} (h : parent.isSome=true → sender.supportsTraceContext=true) :
    prefixBytes sender parent=tracedBytes parent.isSome := by
  unfold prefixBytes tracedBytes
  cases parent with
  | none => simp
  | some parent => simp [h rfl]

theorem admitted_of_sendable (hcid : cid≠0) (hseq : p.record.seq≠0)
    (hbytes : prefixBytes sender p.parent=tracedBytes p.parent.isSome) (hfree : ¬ReservedKey p.record.typeKey)
    (h : identity.Sendable sender hopLimit cid p) :
    ∃ size, identity.validateMessage p.record.typeKey p.record.payload.length p.parent.isSome=.ok size := by
  rw [validateMessage_iff]
  refine ⟨hfree,?_⟩
  cases hmode : identity.transactional with
  | false =>
    have hfits:=(sendable_plain hmode hcid).mp h
    rw [hbytes] at hfits
    exact ⟨hfits,by simp⟩
  | true =>
    obtain ⟨hvalid,hfits⟩:=(sendable_transactional hmode hcid).mp h
    obtain ⟨hshaped,htotal⟩:=validate_iff.mp hvalid
    have hlarge:=@envelope_large identity p.record
    rw [envelope_target] at htotal
    rw [hbytes] at hfits
    rw [envelope_size] at htotal hfits hlarge
    refine ⟨by omega,fun _ => ⟨validate_iff.mpr ⟨(probe_shaped hseq).mp hshaped,?_⟩,by omega⟩⟩
    rw [probe_target]
    omega

theorem sendable_of_admitted (hcid : cid≠0) (hseq : p.record.seq≠0)
    (h : ∃ size, identity.validateMessage p.record.typeKey p.record.payload.length p.parent.isSome=.ok size) :
    ¬ReservedKey p.record.typeKey ∧ identity.Sendable sender hopLimit cid p := by
  obtain ⟨hfree,hplain,hdurable⟩:=validateMessage_iff.mp h
  have hbytes:=prefix_le sender p.parent
  refine ⟨hfree,?_⟩
  cases hmode : identity.transactional with
  | false =>
    rw [sendable_plain hmode hcid]
    omega
  | true =>
    obtain ⟨hvalid,hfits⟩:=hdurable hmode
    obtain ⟨hshaped,-⟩:=validate_iff.mp hvalid
    rw [sendable_transactional hmode hcid,validate_iff,envelope_target,envelope_size]
    exact ⟨⟨(probe_shaped hseq).mpr hshaped,by omega⟩,by omega⟩

/-- What is admitted can be sent over any connection, and what can be sent with the trace
prefix that admission counts is admitted, unless its key is reserved. -/
theorem admission_exact (identity : BoundIdentity) (sender : FrameSender) (hopLimit : UInt8) (cid : UInt64)
    (p : PendingRecord) (hcid : cid≠0) (hseq : p.record.seq≠0) :
    ((∃ size, identity.validateMessage p.record.typeKey p.record.payload.length p.parent.isSome=.ok size) →
      identity.Sendable sender hopLimit cid p) ∧
    ((p.parent.isSome=true → sender.supportsTraceContext=true) →
      ((∃ size, identity.validateMessage p.record.typeKey p.record.payload.length p.parent.isSome=.ok size) ↔
        ¬ReservedKey p.record.typeKey ∧ identity.Sendable sender hopLimit cid p)) := by
  refine ⟨fun h => (sendable_of_admitted hcid hseq h).2,fun htrace => ⟨sendable_of_admitted hcid hseq,?_⟩⟩
  rintro ⟨hfree,h⟩
  exact admitted_of_sendable hcid hseq (prefix_eq htrace) hfree h

def stateIdentity (transactional : Bool) : BoundIdentity := ⟨⟨"receiver","/state","session"⟩,4,transactional,"source"⟩

def stateRecord (typeKey : String) : WalRecord := ⟨"receiver","session",u64Max,"/state",typeKey,[1,2,3]⟩

/- The last sequence, in an envelope and behind a trace parent. -/
theorem admission_exact_last : (stateIdentity true).Sendable ⟨1,0,Link.Caps.traceContext,maxFrameLen⟩ 8 7
    ⟨stateRecord "delta",some ⟨List.replicate 16 1,List.replicate 8 2,rfl,rfl,by decide,by decide⟩⟩ :=
  (admission_exact (stateIdentity true) ⟨1,0,Link.Caps.traceContext,maxFrameLen⟩ 8 7
    ⟨stateRecord "delta",some ⟨List.replicate 16 1,List.replicate 8 2,rfl,rfl,by decide,by decide⟩⟩ (by decide)
    (by decide)).1 ⟨_,show (stateIdentity true).validateMessage "delta" 3 true=.ok 33 by decide +kernel⟩

/-- A reserved key is refused although the frame is one that can be sent. -/
theorem reserved_refused : ¬((∃ size, (stateIdentity false).validateMessage "#ack" 3 false=.ok size) ↔
    (stateIdentity false).Sendable ⟨1,0,0,maxFrameLen⟩ 8 7 ⟨stateRecord "#ack",none⟩) := by
  intro h
  have hsendable : (stateIdentity false).Sendable ⟨1,0,0,maxFrameLen⟩ 8 7 ⟨stateRecord "#ack",none⟩ :=
    (sendable_plain rfl (by decide)).mpr (by decide +kernel)
  obtain ⟨hfree,-⟩:=validateMessage_iff.mp (h.mpr hsendable)
  exact hfree (.inr (.inr (.inr (.inl rfl))))

/-- What a transactional outbox admits arrives: the frame of an attempt has bytes that are read back as one
frame whatever follows them, and behind its trace prefix stands the envelope of the record. -/
theorem admitted_arrives (hcid : cid≠0) (hhop : 0<hopLimit) (hseq : p.record.seq≠0) (hmax : p.record.seq≤u64Max)
    (htx : identity.transactional=true)
    (h : ∃ size, identity.validateMessage p.record.typeKey p.record.payload.length p.parent.isSome=.ok size) :
    ∃ frame bytes, identity.deliveryFrame sender hopLimit cid p=.ok frame ∧ frame.encode=.ok bytes ∧ ∀ tail, ∃ f trace payload,
      Frame.decode (bytes++tail)=(.ok (some f),tail) ∧ f.splitTraceParent=.ok (trace,payload) ∧
      (sender.supportsTraceContext=true → trace=p.parent) ∧ DurableEnvelope.decode payload=.ok (identity.envelope p.record) := by
  obtain ⟨-,frame,size,hframe,hsize⟩:=@sendable_of_admitted identity sender hopLimit cid p hcid hseq h
  have hfits:=(Codec.validateSize_ok.mp hsize).2
  obtain ⟨⟨typeKey,envelope⟩,hwire,hsent⟩:=bind_eq_ok.mp hframe
  have henvelope : DurableEnvelope.decode envelope=.ok (identity.envelope p.record) := by
    unfold BoundIdentity.wireMessage at hwire
    rw [if_pos htx] at hwire
    split at hwire
    · contradiction
    · rename_i bytes hencode
      cases hwire
      exact DurableEnvelope.decode_encode hmax hencode
  have hread : frame.Routable ∧ frame.header.version=protocolVersion ∧ ∃ trace,
      frame.splitTraceParent=.ok (trace,envelope) ∧ (sender.supportsTraceContext=true → trace=p.parent) := by
    have hroutable : (outgoing hopLimit (tellWithAck cid identity.targetPath typeKey envelope)).Routable := ⟨rfl,hhop⟩
    have hsplit : (outgoing hopLimit (tellWithAck cid identity.targetPath typeKey envelope)).splitTraceParent =
        .ok (none,envelope) := by
      rw [Frame.splitTraceParent,tellWithAck_flags]
      rfl
    unfold FrameSender.traceRequest at hsent
    cases hparent : p.parent with
    | none =>
      rw [hparent] at hsent
      cases hsent
      exact ⟨hroutable,rfl,none,hsplit,fun _ => rfl⟩
    | some parent =>
      rw [hparent] at hsent
      by_cases hsupports : sender.supportsTraceContext=true
      · simp only [hsupports,if_true] at hsent
        split at hsent
        · contradiction
        · rename_i f htraced
          cases hsent
          have ht:=Link.withTraceParent_ok.mp htraced
          have hframe:=ht.frame
          have hparts:=ht.splits
          subst hframe
          exact ⟨⟨rfl,hhop⟩,rfl,some parent,hparts,fun _ => rfl⟩
      · simp only [hsupports] at hsent
        cases hsent
        exact ⟨hroutable,rfl,none,hsplit,fun hyes => absurd hyes hsupports⟩
  obtain ⟨hroutable,hversion,trace,hsplit,htrace⟩:=hread
  refine ⟨frame,frame.bytes,hframe,Codec.encode_frame.mpr ⟨by omega,hversion,rfl⟩,fun tail => ⟨frame.filled,trace,envelope,?_,hsplit,htrace,henvelope⟩⟩
  exact Frame.decodeWithLimit_bytes hroutable hversion (by omega) tail

theorem admitted_arrives_last : ∃ frame bytes, frame.encode=.ok bytes ∧
    (stateIdentity true).deliveryFrame ⟨1,0,0,maxFrameLen⟩ 8 7 ⟨stateRecord "delta",none⟩=.ok frame :=
  let ⟨frame,bytes,hframe,hbytes,_⟩:=@admitted_arrives (stateIdentity true) ⟨1,0,0,maxFrameLen⟩ 8 7 ⟨stateRecord "delta",none⟩
    (by decide) (by decide) (by decide) (by decide) rfl ⟨_,show (stateIdentity true).validateMessage "delta" 3 false=.ok 8 by decide +kernel⟩
  ⟨frame,bytes,hbytes,hframe⟩

/-- What recovery takes over can be sent over any connection: no record stops the stream for good. -/
theorem recoverPending_sendable {last n : ℕ} {pending : List PendingRecord}
    (h : recoverPending identity last pending=.ok n) (hcid : cid≠0) :
    ∀ p∈pending, identity.Sendable sender hopLimit cid p := by
  induction pending generalizing last with
  | nil => simp
  | cons p rest ih =>
    unfold recoverPending at h
    obtain ⟨hbound,h⟩:=Except.of_ite_left h
    push Not at hbound
    split at h
    · contradiction
    · rename_i size hvalid
      have hseq : p.record.seq≠0 := by
        have hnext:=(checkedAdd_eq_some.mp hbound.2.2.2).1
        omega
      intro q hq
      rcases List.mem_cons.mp hq with rfl | hq
      · exact (sendable_of_admitted hcid hseq ⟨size,hvalid⟩).2
      · exact ih h q hq

theorem recoverPending_sendable_one : (stateIdentity true).Sendable ⟨1,0,0,maxFrameLen⟩ 8 7 ⟨{stateRecord "delta" with seq := 5},none⟩ :=
  @recoverPending_sendable (stateIdentity true) ⟨1,0,0,maxFrameLen⟩ 8 7 4 5 [⟨{stateRecord "delta" with seq := 5},none⟩]
    (by decide +kernel) (by decide) _ (List.mem_singleton_self _)

end Parrot.Outbox
