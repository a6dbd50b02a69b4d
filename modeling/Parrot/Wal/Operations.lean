import Parrot.Wal.Checkpoint

/-! # The operations of the log

Each operation that is not refused either does nothing or makes one change to the
segmented log, and the state it leaves describes the changed log. -/

namespace Parrot.Wal
open Machine
open Bincode (Bytes)
open CrashFs (Effect)
open SegmentLog

section env
variable {env : WalEnv} {limits : WalLimits} {segmentMax : ℕ}

structure Live (w : WalInner) (L : Layout (Stored env limits)) : Prop where
  represents : Represents env limits w.toIndex (items L.log)
  segId : w.segId=L.segId
  segBytes : w.segBytes=(data Stored.body checksum L.active).length
  diskBytes : w.diskBytes=size Stored.body checksum L.log
  segments : w.segments=L.sealed.length+1
  healthy : w.failed=false
  disk_le : w.diskBytes≤limits.maxDiskBytes
  segments_le : w.segments≤limits.maxSegments
  segId_le : w.segId≤u64Max

def ackItem (endpoint sender : String) (seq : ℕ) : Item :=
  ⟨some (ackRecord endpoint sender seq),none,none⟩

def receiptItem (r : Receipt) : Item := ⟨none,none,some r⟩

theorem validate_ack {endpoint sender : String} {seq : ℕ} : validateRecord (ackRecord endpoint sender seq) true=.ok
    () ↔ seq≠0 ∧ endpoint.isEmpty=false ∧ sender.isEmpty=false := by
  unfold validateRecord ackRecord
  constructor
  · intro h
    obtain ⟨hbad,h⟩:=Except.of_ite_left h
    push Not at hbad
    exact ⟨hbad.1,by simpa using hbad.2.1,by simpa using hbad.2.2.1⟩
  · rintro ⟨h1,h2,h3⟩
    rw [if_neg]
    simp [h1,h2,h3]

def ackStored (endpoint sender : String) (seq : ℕ)
    (hvalid : validateRecord (ackRecord endpoint sender seq) true=.ok ()) (hseq : seq≤u64Max)
    (hfits : (env.encodeRecord (ackRecord endpoint sender seq)).length≤limits.maxRecordBytes) :
    Stored env limits where
  record := ackRecord endpoint sender seq
  item := ackItem endpoint sender seq
  fits := hfits
  seq_le := hseq
  valid := hvalid
  means := readItem_ack endpoint sender seq
  sound := by
    obtain ⟨h1,h2,h3⟩:=validate_ack.mp hvalid
    constructor
    · intro r hr
      contradiction
    all_goals
      intro r hr
      cases hr
    · exact h1
    · exact hseq
    · exact h2
    · exact h3

def receiptStored (hrecord : limits.maxRecordBytes≤wireLimit) (r : Receipt)
    (hgenuine : ReceiptIndex.Genuine r)
    (hfits : (env.encodeRecord (r.record env)).length≤limits.maxRecordBytes) : Stored env limits where
  record := r.record env
  item := receiptItem r
  fits := hfits
  seq_le := hgenuine.seq_le
  valid := by
    have h1 : (r.record env).seq≠0 := hgenuine.seq_pos
    have h2 : (r.record env).endpoint.isEmpty=false := hgenuine.endpoint
    have h3 : (r.record env).sender.isEmpty=false := hgenuine.sender
    have h4 : (r.record env).typeKey.isEmpty=false := show receiptKey.isEmpty=false by decide
    have h5 : (r.record env).typeKey ≠ "#ack" := show receiptKey ≠ "#ack" by decide
    unfold validateRecord
    rw [if_neg]
    simp [h1,h2,h3,h4,h5]
  means := readItem_receipt hgenuine.id hgenuine.fingerprint
    (((env.payload_le (r.record env)).trans hfits).trans hrecord)
  sound := by
    constructor
    · intro r' hr'
      exact Option.some.inj hr' ▸ hgenuine
    all_goals
      intro r' hr'
      contradiction

variable {r : WalRecord}

theorem validate_any (h : validateRecord r false=.ok ()) : validateRecord r true=.ok () := by
  obtain ⟨-,-,-,hkey,-,-,hack⟩:=validate_business h
  exact validate_stored h hkey hack r.payload

variable {parent : Option TraceParent} {receipt : Option Receipt} {id : Option String}

theorem message_stored (hrecord : limits.maxRecordBytes≤wireLimit) {r stored stored' : WalRecord}
    (hvalid : validateRecord r false=.ok ()) (hseq : r.seq≤u64Max)
    (hwrap : wrapSubmission env r id=.ok (stored,receipt)) (hcausal : causalWrap stored parent=.ok stored')
    (hfits : (env.encodeRecord stored').length≤limits.maxRecordBytes) : ∃ s : Stored env limits, s.record=stored' ∧
    s.item=⟨some r,parent,receipt⟩ ∧ (∀ i, id=some i → receipt=some (receiptOf env r i)) ∧ (id=none → receipt=none) :=
    by
  obtain ⟨hpos,hend,hsend,hkey,hsub,hres,hack⟩:=validate_business hvalid
  obtain ⟨hseq',hpay,hshape⟩:=causalWrap_fields hcausal
  have hlen : stored.payload.length≤wireLimit := ((hpay.trans (env.payload_le stored')).trans hfits).trans hrecord
  -- the record behind the causal envelope
  have hinner : causalReserved stored.typeKey=false ∧ stored.seq=r.seq ∧
      submissionRead env stored=.ok (some r,receipt) ∧
      (∀ payload, validateRecord {stored with typeKey:=causalKey,payload:=payload} true=.ok ()) ∧
      validateRecord stored true=.ok () ∧ (∀ g, receipt=some g → ReceiptIndex.Genuine g) ∧
      (∀ i, id=some i → receipt=some (receiptOf env r i)) ∧ (id=none → receipt=none) := by
    have hcausalKey : causalKey.isEmpty=false := by decide
    have hcausalAck : causalKey ≠ "#ack" := by decide
    cases id with
    | none =>
      obtain ⟨rfl,rfl⟩ : r=stored ∧ none=receipt := by simpa [wrapSubmission] using hwrap
      refine ⟨hres,rfl,submissionRead_plain hsub,?_,validate_any hvalid,?_,?_,fun _ => rfl⟩
      · exact fun payload => validate_stored hvalid hcausalKey hcausalAck payload
      · intro g hg
        contradiction
      · intro i hi
        contradiction
    | some i =>
      simp only [wrapSubmission] at hwrap
      obtain ⟨⟨w,g⟩,hw,heq⟩:=bind_eq_ok.mp hwrap
      obtain ⟨rfl,rfl⟩ : w=stored ∧ some g=receipt := by simpa [pure,Except.pure] using heq
      have hread:=submissionRead_wrap hw hlen
      obtain ⟨hid,-,rfl,rfl⟩:=submissionWrap_ok hw
      refine ⟨show causalReserved acceptKey=false by decide,rfl,hread,?_,?_,?_,?_,?_⟩
      · exact fun payload => validate_stored hvalid hcausalKey hcausalAck payload
      · exact validate_stored hvalid (show acceptKey.isEmpty=false by decide)
          (show acceptKey ≠ "#ack" by decide) _
      · intro g hg
        cases hg
        exact ⟨hid,env.digest_length _,hpos,hseq,hend,hsend⟩
      · intro j hj
        rw [Option.some.inj hj]
      · intro hnone
        contradiction
  obtain ⟨hcr,hs,hread,hvalid1,hvalid2,hgen,hid1,hid2⟩:=hinner
  have hmeans : readItem env stored'=.ok ⟨some r,parent,receipt⟩ := readItem_eq (causalRead_wrap hcr hcausal) hread
  have hvalid' : validateRecord stored' true=.ok () := by
    rcases hshape with ⟨-,rfl⟩ | ⟨payload,rfl⟩
    · exact hvalid2
    · exact hvalid1 payload
  refine ⟨⟨stored',⟨some r,parent,receipt⟩,hfits,by rw [hseq',hs]; exact hseq,hvalid',hmeans,?_⟩,rfl,rfl,hid1,hid2⟩
  constructor
  · exact hgen
  all_goals
    intro r' hr'
    cases hr'
  · exact hpos
  · exact hseq
  · exact hend
  · exact hsend

structure Admitted (env : WalEnv) (limits : WalLimits) (segmentMax : ℕ) (w : WalInner) (r : WalRecord)
    (id : Option String) (parent : Option TraceParent) (stored : WalRecord) (receipt : Option Receipt)
    (bytes : ℕ) : Prop where
  valid : validateRecord r false=.ok ()
  unknown : lookupSubmission env w.receipts r id=.ok none
  unacked : isAcked w.acked r=false
  wraps : ∃ inner, wrapSubmission env r id=.ok (inner,receipt) ∧ causalWrap inner parent=.ok stored
  receipt : checkReceipt env limits w.receipts receipt=.ok ()
  room : reservePending env limits r w.pending.length w.pendingBytes=.ok bytes
  fits : (env.encodeRecord stored).length≤limits.maxRecordBytes
  disk : w.diskBytes+(recordFrame env stored).length≤limits.maxDiskBytes
  segment : w.segBytes+(recordFrame env stored).length≥segmentMax → w.segId≠u64Max ∧ w.segments≠limits.maxSegments

theorem encodeFrame_ok {frame : Bytes} (h : encodeFrame env limits r=.ok frame) :
    frame=recordFrame env r ∧ (env.encodeRecord r).length≤limits.maxRecordBytes := by
  obtain ⟨size,hs,hf⟩:=bind_eq_ok.mp h
  exact ⟨(Except.ok.inj hf).symm,(ReceiptIndex.encodedSize_ok hs).1⟩

theorem encodeFrame_eq (h : (env.encodeRecord r).length≤limits.maxRecordBytes) :
    encodeFrame env limits r=.ok (recordFrame env r) := by
  unfold encodeFrame
  rw [ReceiptIndex.encodedSize_eq h]
  rfl

variable {w : WalInner}

theorem ensureDisk_ok {bytes : ℕ} (h : ensureDisk limits w bytes=.ok ()) : w.diskBytes+bytes≤limits.maxDiskBytes := by
  unfold ensureDisk at h
  split at h
  · assumption
  · contradiction

theorem append_cases {plan : Plan (ℕ × Bool)}
    (h : appendSubmissionWithParent env limits segmentMax w r id parent=.ok plan) :
    (∃ seq, plan=⟨[],w,.ok (seq,false)⟩) ∨ ∃ stored receipt bytes,
    Admitted env limits segmentMax w r id parent stored receipt bytes ∧ plan=appendPlan env limits w r parent receipt
    bytes (recordFrame env stored) (decide (w.segBytes+(recordFrame env stored).length≥segmentMax)) := by
  unfold appendSubmissionWithParent at h
  obtain ⟨-,-,h⟩:=bind_eq_ok.mp h
  obtain ⟨_,hvalid,h⟩:=bind_eq_ok.mp h
  obtain ⟨known,hknown,h⟩:=bind_eq_ok.mp h
  cases known with
  | some seq => exact .inl ⟨seq,(Except.ok.inj h).symm⟩
  | none =>
    dsimp only at h
    split at h
    · obtain ⟨-,h⟩:=Except.of_ite_left h
      exact .inl ⟨r.seq,(Except.ok.inj h).symm⟩
    · rename_i hacked
      obtain ⟨⟨inner,receipt⟩,hwrap,h⟩:=bind_eq_ok.mp h
      obtain ⟨_,hcheck,h⟩:=bind_eq_ok.mp h
      obtain ⟨bytes,hbytes,h⟩:=bind_eq_ok.mp h
      obtain ⟨stored,hcausal,h⟩:=bind_eq_ok.mp h
      obtain ⟨frame,hframe,h⟩:=bind_eq_ok.mp h
      obtain ⟨_,hdisk,h⟩:=bind_eq_ok.mp h
      obtain ⟨rfl,hfits⟩:=encodeFrame_ok hframe
      dsimp only at h
      obtain ⟨hrotate,h⟩:=Except.of_ite_left h
      refine .inr ⟨stored,receipt,bytes,?_,(Except.ok.inj h).symm⟩
      constructor
      · exact hvalid
      · exact hknown
      · simpa using hacked
      · exact ⟨inner,hwrap,hcausal⟩
      · exact hcheck
      · exact hbytes
      · exact hfits
      · exact ensureDisk_ok hdisk
      · intro hfull
        push Not at hrotate
        exact hrotate (by simpa using hfull)

theorem filter_uncovered {items : List Item} :
    (replay items).pending.filter (fun p => !covered (replay items).acked p)=(replay items).pending := by
  rw [List.filter_eq_self]
  intro p hp
  rw [replay_uncovered hp]
  rfl

theorem apply_message {items : List Item} (hack : r.typeKey ≠ "#ack")
    (hnew : covered (replay items).acked ⟨r,parent⟩=false) :
    replay (items++[⟨some r,parent,receipt⟩])=⟨(replay items).acked,
      (replay items).pending++[⟨r,parent⟩],record (replay items).receipts receipt⟩ := by
  have hmark : Item.mark ⟨some r,parent,receipt⟩=none := by simp [Item.mark,Option.filter,hack]
  have hmessage : Item.message ⟨some r,parent,receipt⟩=some ⟨r,parent⟩ := by
    simp [Item.message,Option.filter,hack]
  rw [replay_snoc]
  simp only [Value.apply,hmark,hmessage,raise,Option.toList_some,List.filter_append,filter_uncovered]
  simp [hnew]

theorem append_represents {its : List Item} {stored : WalRecord}
    {bytes : ℕ} (hw : Represents env limits w.toIndex its)
    (h : Admitted env limits segmentMax w r id parent stored receipt bytes)
    (hsound : Item.Sound ⟨some r,parent,receipt⟩) : ∃ receipts',
      insertReceipt env limits w.receipts receipt=.ok receipts' ∧
      Represents env limits {w.toIndex with
        receipts := receipts'
        pending := w.pending++[⟨r,parent⟩]
        pendingBytes := bytes} (its++[⟨some r,parent,receipt⟩]) := by
  have hinsert : ∃ receipts', insertReceipt env limits w.receipts receipt=.ok receipts' := by
    cases receipt with
    | none => exact ⟨_,rfl⟩
    | some g => exact ReceiptIndex.insert_of_check h.receipt
  obtain ⟨receipts',hreceipts'⟩:=hinsert
  obtain ⟨hrok,hrval,hrknown⟩:=insertReceipt_spec hsound hw.ok.acks.receipts hreceipts'
  replace hrval : (fun key => receipts'.entries.lookup key) =
    record (fun key => w.receipts.entries.lookup key) receipt := hrval
  obtain ⟨-,-,-,-,-,-,hack⟩:=validate_business h.valid
  have hvalue:=hw.value
  have hacked : (fun s => w.acked.lookup s)=(replay its).acked := congrArg Value.acked hvalue
  have hpend : w.pending=(replay its).pending := congrArg Value.pending hvalue
  have hrec : (fun key => w.receipts.entries.lookup key)=(replay its).receipts := congrArg Value.receipts hvalue
  have hnew : covered (replay its).acked ⟨r,parent⟩=false := by
    rw [← hacked]
    exact h.unacked
  have hroom:=h.room
  unfold reservePending at hroom
  obtain ⟨hcount,hroom⟩:=Except.of_ite_left hroom
  obtain ⟨hfit,hroom⟩:=Except.of_ite_right hroom
  have hbytes:=Except.ok.inj hroom
  have hsum : bytes=((w.pending++[(⟨r,parent⟩ : PendingRecord)]).map fun p => recordMemory env p.record).sum := by
    rw [← hbytes,hw.ok.bytes,List.map_append,List.sum_append]
    simp
  refine ⟨receipts',hreceipts',⟨⟨hw.ok.acks.streams_le,hw.ok.acks.watermark,
    hw.ok.acks.watermark_le,hrok,hw.ok.acks.seq_pos,hw.ok.acks.seq_le,hw.ok.acks.endpoint,
    hw.ok.acks.sender⟩,⟨?_,?_⟩,hsum⟩,?_,?_⟩
  · rw [List.length_append,List.length_singleton]
    omega
  · rw [← hsum,← hbytes]
    exact hfit
  · rw [apply_message hack hnew]
    simp only [Index.value,hacked,hpend,hrval,hrec]
  · intro i hi g hg
    rcases List.mem_append.mp hi with hi | hi
    · exact hrknown g (.inr (hw.consistent i hi g hg))
    · rw [List.mem_singleton.mp hi] at hg
      exact hrknown g (.inl hg)

theorem recordFrame_eq (s : Stored env limits) :
    recordFrame env s.record=Frames.frame checksum s.body := rfl

theorem append_live (hrecord : limits.maxRecordBytes≤wireLimit) {L : Layout (Stored env limits)} (hw : Live w L)
    {stored : WalRecord} {bytes : ℕ} (hseq : r.seq≤u64Max)
    (h : Admitted env limits segmentMax w r id parent stored receipt bytes) {rotate : Bool}
    (hrotate : rotate=decide (w.segBytes+(recordFrame env stored).length≥segmentMax)) : ∃ s : Stored env limits,
    s.item=⟨some r,parent,receipt⟩ ∧ s.record=stored ∧ (∀ i, id=some i → receipt=some (receiptOf env r i)) ∧
    (id=none → receipt=none) ∧
    (appendPlan env limits w r parent receipt bytes (recordFrame env stored) rotate).effects =
    (Change.write s rotate).program Stored.body checksum L ∧
    (appendPlan env limits w r parent receipt bytes (recordFrame env stored) rotate).result = .ok (r.seq,true) ∧
    Live (appendPlan env limits w r parent receipt bytes (recordFrame env stored) rotate).wal
    ((Change.write s rotate).after L) ∧
    (appendPlan env limits w r parent receipt bytes (recordFrame env stored) rotate).wal.value =
    replay (items L.log++[s.item]) := by
  obtain ⟨inner,hwrap,hcausal⟩:=h.wraps
  obtain ⟨s,rfl,hitem,hid1,hid2⟩:=message_stored hrecord h.valid hseq hwrap hcausal h.fits
  have hsound:=s.sound
  rw [hitem] at hsound
  obtain ⟨receipts',hreceipts',hrep⟩:=append_represents hw.represents h hsound
  have hsize : (data Stored.body checksum (L.active++[s])).length =
      (data Stored.body checksum L.active).length+(recordFrame env s.record).length := by
    rw [data_append,data_singleton,List.length_append,recordFrame_eq]
  have hdisk:=h.disk
  have hsegs:=hw.segments_le
  have hsegment:=h.segment
  have hidle:=hw.segId_le
  refine ⟨s,hitem,rfl,hid1,hid2,?_⟩
  unfold appendPlan
  rw [hreceipts']
  dsimp only
  cases rotate with
  | false =>
    have hitems : items (Change.after L (.write s false)).log=items L.log++[s.item] := by
      simp [Change.after,Layout.log,items]
    refine ⟨?_,rfl,?_,?_⟩
    · rw [if_neg (by simp)]
      simp [Change.program,hw.segId,recordFrame_eq]
    · rw [if_neg (by simp)]
      refine ⟨?_,hw.segId,?_,?_,hw.segments,hw.healthy,hdisk,hsegs,hidle⟩
      · rw [hitems,hitem]
        exact hrep
      · simp only [WalInner.wrote,Change.after]
        rw [hsize,hw.segBytes]
      · simp only [WalInner.wrote,Change.after]
        rw [size_log,hsize,hw.diskBytes,size_log,Nat.add_assoc]
    · rw [if_neg (by simp),hitem]
      exact hrep.value
  | true =>
    have hfull:=hsegment (of_decide_eq_true hrotate.symm)
    have hitems : items (Change.after L (.write s true)).log=items L.log++[s.item] := by
      simp [Change.after,Layout.log,items]
    refine ⟨?_,rfl,?_,?_⟩
    · rw [if_pos rfl]
      simp [Change.program,hw.segId,recordFrame_eq]
    · rw [if_pos rfl]
      refine ⟨?_,?_,rfl,?_,?_,hw.healthy,hdisk,?_,?_⟩
      · rw [hitems,hitem]
        exact hrep
      · simp only [Change.after,Layout.segId,List.length_append,List.length_singleton]
        rw [hw.segId,Layout.segId,Nat.add_assoc]
      · simp only [WalInner.wrote,Change.after]
        rw [size_log,size_append,size_singleton,data_nil,hsize,hw.diskBytes,size_log]
        simp [Nat.add_assoc]
      · simp only [Change.after,List.length_append,List.length_singleton]
        rw [hw.segments]
      · dsimp only
        omega
      · dsimp only
        omega
    · rw [if_pos rfl,hitem]
      exact hrep.value

end env
end Parrot.Wal
