import Parrot.Lib.Files
import Parrot.Wal.Recovery
import Parrot.Wal.Tail

/-! # The counters of the log (`durable.rs:163-300,328-576`)

Five budgets are kept beside what they count: the pending records, the watermarks, the receipts,
the bytes of the segments and their number. -/

namespace Parrot.Wal
open List (not_mem_nil map_cons sum_cons length_cons length_append mem_cons_self range' foldl_append map_map)
open Machine
open Bincode (Bytes)
open CrashFs (Disk Effect File Listing AllApply Beside touch)

section env
variable (env : WalEnv) (limits : WalLimits)

structure ReceiptIndex.Counted (index : ReceiptIndex) : Prop where
  bytes : index.bytes=index.memories
  checkpoint : index.checkpointBytes=index.encoded env
  count_le : index.len≤limits.maxSubmissionReceipts
  bytes_le : index.bytes≤limits.maxSubmissionReceiptBytes
  fits : ∀ r∈index.iter, (env.encodeRecord (r.record env)).length≤limits.maxRecordBytes

structure Acks.Counted (st : Acks) : Prop where
  watermark : st.watermarkBytes=(st.acked.keys.map (watermarkMemory env)).sum
  watermark_le : st.watermarkBytes≤limits.maxWatermarkBytes
  streams_le : st.acked.keys.length≤limits.maxStreams
  receipts : st.receipts.Counted env limits

structure Pending.Counted (st : Pending) : Prop where
  bytes : st.bytes=(st.pending.map fun p => recordMemory env p.record).sum
  bytes_le : st.bytes≤limits.maxPendingBytes
  count_le : st.pending.length≤limits.maxPendingRecords

structure Index.Counted (x : Index) : Prop where
  acks : x.acks.Counted env limits
  pending : Pending.Counted env limits ⟨x.pending,x.pendingBytes⟩

variable {env limits}

theorem ReceiptIndex.empty_counted : ReceiptIndex.Counted env limits .empty :=
  ⟨rfl,rfl,Nat.zero_le _,Nat.zero_le _,fun _ hr => absurd hr not_mem_nil⟩

theorem ReceiptIndex.Counted.insert {index index' : ReceiptIndex} {receipt : Receipt} (h : index.Counted env limits)
    (hinsert : index.insert env limits receipt=.ok index') : index'.Counted env limits := by
  rcases insert_ok hinsert with ⟨-,rfl⟩ | ⟨hroom,rfl⟩
  · exact h
  · have hiter:=@iter_extend env _ _ hroom.new
    constructor
    · rw [memories,hiter,map_cons,sum_cons,Nat.add_comm]
      exact congrArg (·+receipt.memory) h.bytes
    · rw [encoded,hiter,map_cons,sum_cons,Nat.add_comm]
      exact congrArg (·+((env.encodeRecord (receipt.record env)).length+8)) h.checkpoint
    · have hlen : (index.extend env receipt).len=index.len+1 := by
        have hiter':=congrArg List.length hiter
        simpa [iter,len,AList.keys,List.keys] using hiter'
      rw [hlen]
      exact hroom.count
    · exact hroom.bytes
    · intro r hr
      rw [hiter] at hr
      rcases List.mem_cons.mp hr with rfl | hr
      · exact hroom.fits
      · exact h.fits r hr

theorem ReceiptIndex.Counted.receipt {index index' : ReceiptIndex} {receipt : Option Receipt}
    (h : index.Counted env limits) (hinsert : insertReceipt env limits index receipt=.ok index') :
    index'.Counted env limits := by
  cases receipt with
  | none =>
    cases hinsert
    exact h
  | some receipt => exact h.insert hinsert

theorem reserveWatermark_ok {previous n : ℕ} {s : Stream} (h : reserveWatermark env limits previous s=.ok n) :
    n=previous+watermarkMemory env s ∧ n≤limits.maxWatermarkBytes := by
  unfold reserveWatermark at h
  obtain ⟨hle,h⟩:=Except.of_ite_right h
  cases h
  exact ⟨rfl,hle⟩

theorem reservePending_ok {r : WalRecord} {count bytes n : ℕ} (h : reservePending env limits r count bytes=.ok n) :
    count<limits.maxPendingRecords ∧ n=bytes+recordMemory env r ∧ n≤limits.maxPendingBytes := by
  unfold reservePending at h
  obtain ⟨hcount,h⟩:=Except.of_ite_left h
  obtain ⟨hle,h⟩:=Except.of_ite_right h
  cases h
  exact ⟨by omega,rfl,hle⟩

theorem Acks.Counted.insert {st : Acks} (h : st.Counted env limits) {s : Stream} {n bytes : ℕ}
    {receipts : ReceiptIndex} (hreceipts : receipts.Counted env limits)
    (hstream : (st.acked.lookup s).isSome=true ∧ bytes=st.watermarkBytes ∨ st.acked.lookup s=none ∧
    st.acked.keys.length≠limits.maxStreams ∧ reserveWatermark env limits st.watermarkBytes s=.ok bytes) :
    Acks.Counted env limits ⟨st.acked.insert s n,bytes,receipts⟩ := by
  have hsum:=h.watermark
  have hstreams:=h.streams_le
  rcases hstream with ⟨hsome,rfl⟩ | ⟨hnone,hroom,hreserve⟩
  · have hperm:=keys_insert_perm (AList.lookup_isSome.mp hsome) n
    refine ⟨?_,h.watermark_le,?_,hreceipts⟩
    · rw [hsum]
      exact (hperm.map _).sum_eq.symm
    · dsimp only
      rw [hperm.length_eq]
      exact hstreams
  · have hkeys:=keys_insert_new (AList.lookup_eq_none.mp hnone) n
    obtain ⟨hbytes,hle⟩:=reserveWatermark_ok hreserve
    refine ⟨?_,hle,?_,hreceipts⟩
    · dsimp only
      rw [hkeys,map_cons,sum_cons,hbytes,hsum,Nat.add_comm]
    · dsimp only
      rw [hkeys,length_cons]
      omega

theorem Pending.Counted.snoc {st : Pending} (h : st.Counted env limits) {p : PendingRecord} {bytes : ℕ}
    (hreserve : reservePending env limits p.record st.pending.length st.bytes=.ok bytes) :
    Pending.Counted env limits ⟨st.pending++[p],bytes⟩ := by
  obtain ⟨hcount,hbytes,hle⟩:=reservePending_ok hreserve
  refine ⟨?_,hle,?_⟩
  · have hsum:=h.bytes
    simp only [List.map_append,List.sum_append,List.map_singleton,List.sum_singleton]
    omega
  · rw [length_append,List.length_singleton]
    exact hcount

theorem visit_counted {st st' : Acks} {i : Item} (h : st.Counted env limits)
    (hv : st.visit env limits i=.ok st') : st'.Counted env limits := by
  obtain ⟨hr,hcase⟩:=visit_business hv
  have hreceipts:=h.receipts.receipt hr
  obtain ⟨acked,bytes,receipts⟩:=st'
  rcases hcase with ⟨-,hacked,hbytes⟩ | ⟨r,-,⟨n,hn,hacked,hbytes⟩ | ⟨hnone,hroom,hreserve,hacked⟩⟩
  · dsimp only at hacked hbytes
    rw [hacked,hbytes]
    exact ⟨h.watermark,h.watermark_le,h.streams_le,hreceipts⟩
  · dsimp only at hacked hbytes
    rw [hacked]
    exact h.insert hreceipts (.inl ⟨by rw [hn]; rfl,hbytes⟩)
  · dsimp only at hacked
    rw [hacked]
    exact h.insert hreceipts (.inr ⟨hnone,hroom,hreserve⟩)

theorem pending_counted {acked : AList fun _ : Stream => ℕ} {st st' : Pending} {i : Item}
    (h : st.Counted env limits) (hv : st.visit env limits acked i=.ok st') : st'.Counted env limits := by
  unfold Pending.visit at hv
  split at hv
  · cases hv
    exact h
  · split at hv
    · obtain ⟨bytes,hbytes,hv⟩:=bind_eq_ok.mp hv
      cases hv
      exact h.snoc hbytes
    · cases hv
      exact h

variable {σ : Type} {visit : σ → WalRecord → Except String σ} {P : σ → Prop}

theorem scan_keeps (hvisit : ∀ st r st', visit st r=.ok st' → P st → P st') {tail : Bool} {fuel position good : ℕ}
    {bytes : Bytes} {st st' : σ} (h : scan env limits tail visit fuel position bytes st=.ok (st',good)) (hst : P st) :
    P st' ∧ good≤position+bytes.length := by
  induction fuel generalizing position bytes st with
  | zero =>
    cases h
    exact ⟨hst,Nat.le_add_right ..⟩
  | succ fuel ih =>
    unfold scan at h
    cases hhead : Frames.head checksum limits.maxRecordBytes bytes with
    | done =>
      rw [hhead] at h
      cases h
      exact ⟨hst,Nat.le_add_right ..⟩
    | torn =>
      rw [hhead] at h
      dsimp only at h
      obtain ⟨-,h⟩:=Except.of_ite_right h
      cases h
      exact ⟨hst,Nat.le_add_right ..⟩
    | badLength size =>
      rw [hhead] at h
      contradiction
    | badCheck =>
      rw [hhead] at h
      dsimp only at h
      obtain ⟨-,h⟩:=Except.of_ite_left h
      contradiction
    | frame body rest =>
      rw [hhead] at h
      dsimp only at h
      have hlen:=Frames.head_frame_length hhead
      cases hdecode : env.decodeRecord body with
      | error e =>
        rw [hdecode] at h
        contradiction
      | ok record =>
        rw [hdecode] at h
        obtain ⟨_,-,h⟩:=bind_eq_ok.mp h
        obtain ⟨st1,hv,h⟩:=bind_eq_ok.mp h
        obtain ⟨hst',hgood⟩:=ih h (hvisit st record st1 hv hst)
        exact ⟨hst',by omega⟩

def Tail.Of (t : Tail) (files : List (ℕ × Bytes)) : Prop :=
  ∃ x∈files, x.1=t.sid ∧ x.2.length=t.length ∧ t.good≤t.length

variable {files : List (ℕ × Bytes)} {last : Option ℕ}

theorem scanAll_keeps (hvisit : ∀ st r st', visit st r=.ok st' → P st → P st') {st st' : σ} {tail tail' : Option Tail}
    (h : scanAll env limits visit last files st tail=.ok (st',tail')) (hst : P st) :
    P st' ∧ ∀ t, tail'=some t → tail=some t ∨ t.Of files := by
  induction files generalizing st tail with
  | nil =>
    cases h
    exact ⟨hst,fun t ht => .inl ht⟩
  | cons x files ih =>
    obtain ⟨sid,bytes⟩:=x
    obtain ⟨⟨st1,good⟩,hscan,h⟩:=bind_eq_ok.mp h
    unfold scanSegment at hscan
    obtain ⟨-,hscan⟩:=Except.of_ite_left hscan
    obtain ⟨hst1,hgood⟩:=scan_keeps hvisit hscan hst
    obtain ⟨hst',htail⟩:=ih h hst1
    refine ⟨hst',?_⟩
    intro t ht
    rcases htail t ht with hnow | ⟨x,hx,hof⟩
    · split at hnow
      · cases hnow
        refine .inr ⟨(sid,bytes),mem_cons_self,rfl,rfl,?_⟩
        dsimp only
        omega
      · exact .inl hnow
    · exact .inr ⟨x,List.mem_cons_of_mem _ hx,hof⟩

theorem item_keeps {visit : σ → Item → Except String σ} (hvisit : ∀ st i st', visit st i=.ok st' → P st → P st') :
    ∀ st r st', visitItem env visit st r=.ok st' → P st → P st' := by
  intro st r st' h hst
  obtain ⟨i,-,h⟩:=bind_eq_ok.mp h
  exact hvisit st i st' h hst

variable {segmentMax : ℕ} {w : WalInner}

theorem Index.Counted.append {x : Index} (h : x.Counted env limits) {r : WalRecord} {parent : Option TraceParent}
    {receipt : Option Receipt} {receipts : ReceiptIndex} {bytes : ℕ}
    (hinsert : insertReceipt env limits x.receipts receipt=.ok receipts)
    (hreserve : reservePending env limits r x.pending.length x.pendingBytes=.ok bytes) :
    Index.Counted env limits {x with
      receipts := receipts
      pending := x.pending++[⟨r,parent⟩]
      pendingBytes := bytes} where
  acks := ⟨h.acks.watermark,h.acks.watermark_le,h.acks.streams_le,h.acks.receipts.receipt hinsert⟩
  pending := @Pending.Counted.snoc env limits _ h.pending ⟨r,parent⟩ bytes hreserve

variable {acks : Order (Stream × ℕ)} {endpoint sender : String}

theorem Index.Counted.acknowledged (h : w.toIndex.Counted env limits) {seq watermarkBytes checkpointBytes : ℕ}
    (hraises : Raises env limits acks w endpoint sender seq watermarkBytes checkpointBytes) {w' : WalInner}
    (hsame : w'.toIndex=w.toIndex) :
    (WalInner.acknowledged env w' (endpoint,sender) seq watermarkBytes).toIndex.Counted env limits := by
  have hindex : (WalInner.acknowledged env w' (endpoint,sender) seq watermarkBytes).toIndex =
      (WalInner.acknowledged env w (endpoint,sender) seq watermarkBytes).toIndex := by
    simp only [WalInner.acknowledged,hsame]
  rw [hindex]
  constructor
  · refine h.acks.insert h.acks.receipts ?_
    cases hl : w.acked.lookup (endpoint,sender) with
    | some n => exact .inl ⟨by rw [Index.acks,hl]; rfl,hraises.known (by rw [hl]; rfl)⟩
    | none => exact .inr ⟨hl,hraises.streams hl,hraises.new hl⟩
  · refine ⟨rfl,?_,?_⟩
    · refine (sum_filter_le ..).trans ?_
      have hbytes:=h.pending.bytes
      have hle:=h.pending.bytes_le
      dsimp only at hbytes hle
      rw [← hbytes]
      exact hle
    · exact (List.length_filter_le _ _).trans h.pending.count_le

variable {d d' : Disk ℕ} {f : File} {rest : Listing ℕ} {base : ℕ}

structure Books (limits : WalLimits) (d : Disk ℕ) (w : WalInner) (f : File) (rest : Listing ℕ) (base : ℕ) : Prop where
  distinct : d.Distinct
  beside : Beside d.files w.segId f rest
  numbers : (rest.map Prod.fst).Perm (range' base rest.length)
  segId : w.segId=base+rest.length
  segBytes : w.segBytes=f.data.length
  diskBytes : w.diskBytes=f.data.length+SegmentLog.bytes rest
  segments : w.segments=rest.length+1
  disk_le : w.diskBytes≤limits.maxDiskBytes
  segments_le : w.segments≤limits.maxSegments
  segId_le : w.segId≤u64Max

def SameFiles (w w' : WalInner) : Prop :=
  w'.segId=w.segId ∧ w'.segBytes=w.segBytes ∧ w'.diskBytes=w.diskBytes ∧ w'.segments=w.segments

section
variable (h : Books limits d w f rest base)
include h

theorem Books.same {w' : WalInner} (hsame : SameFiles w w') : Books limits d w' f rest base := by
  obtain ⟨hid,hseg,hdisk,hsegs⟩:=hsame
  refine ⟨h.distinct,?_,h.numbers,?_,?_,?_,?_,?_,?_,?_⟩
  · rw [hid]
    exact h.beside
  · rw [hid]
    exact h.segId
  · rw [hseg]
    exact h.segBytes
  · rw [hdisk]
    exact h.diskBytes
  · rw [hsegs]
    exact h.segments
  · rw [hdisk]
    exact h.disk_le
  · rw [hsegs]
    exact h.segments_le
  · rw [hid]
    exact h.segId_le

theorem Books.names : (d.files.map Prod.fst).Perm (range' base (rest.length+1)) := by
  have hperm:=h.beside.perm.map Prod.fst
  rw [map_cons] at hperm
  rw [List.range'_1_concat,← h.segId]
  exact hperm.trans ((h.numbers.cons _).trans (List.perm_append_singleton ..).symm)

theorem Books.write {b : Bytes} (hdisk : w.diskBytes+b.length≤limits.maxDiskBytes) :
    ∃ d', Disk.Completed [.write w.segId b] d d' ∧
      Books limits d' (w.wrote b) {f with data:=f.data++b} rest base := by
  have happly : AllApply [Effect.write w.segId b] d.files := ⟨h.beside.mem,trivial⟩
  obtain ⟨d',hrun,hd',hfiles⟩:=Disk.completed_files h.distinct happly
  have hseg:=h.segBytes
  have hbytes:=h.diskBytes
  refine ⟨d',hrun,hd',?_,h.numbers,h.segId,?_,?_,h.segments,hdisk,h.segments_le,h.segId_le⟩
  · rw [hfiles]
    exact h.beside.touch fun f => {f with data:=f.data++b}
  · change w.segBytes+b.length=(f.data++b).length
    rw [length_append,hseg]
  · change w.diskBytes+b.length=(f.data++b).length+_
    rw [length_append,hbytes]
    omega

theorem Books.sync : ∃ d', Disk.Completed [.sync w.segId] d d' ∧
    Books limits d' w {f with synced:=f.data} rest base := by
  have happly : AllApply [Effect.sync w.segId] d.files := ⟨h.beside.mem,trivial⟩
  obtain ⟨d',hrun,hd',hfiles⟩:=Disk.completed_files h.distinct happly
  refine ⟨d',hrun,hd',?_,h.numbers,h.segId,h.segBytes,h.diskBytes,h.segments,h.disk_le,h.segments_le,h.segId_le⟩
  rw [hfiles]
  exact h.beside.touch fun f => {f with synced:=f.data}

theorem Books.other : ∀ x∈d.files, x.1≠w.segId+1 := by
  intro x hx heq
  have hmem:=h.names.mem_iff.mp (List.mem_map_of_mem hx)
  have hid:=h.segId
  rw [List.mem_range'_1] at hmem
  omega

theorem Books.next {w' : WalInner} (hid : w'.segId=w.segId+1)
    (hseg : w'.segBytes=0) (hdisk : w'.diskBytes=w.diskBytes) (hsegs : w'.segments=w.segments+1)
    (hroom : w.segments≠limits.maxSegments) (hlast : w.segId≠u64Max) :
    ∃ d', Disk.Completed [.create (w.segId+1),.syncDir] d d' ∧ Books limits d' w' ⟨[],[]⟩ d.files base := by
  have happly : AllApply [Effect.create (w.segId+1),.syncDir] d.files := ⟨h.other,trivial,trivial⟩
  obtain ⟨d',hrun,hd',hfiles⟩:=Disk.completed_files h.distinct happly
  have hnames:=h.names
  have hlen : d.files.length=rest.length+1 := h.beside.perm.length_eq
  have hbytes : SegmentLog.bytes d.files=f.data.length+SegmentLog.bytes rest := by
    unfold SegmentLog.bytes
    rw [(h.beside.perm.map _).sum_eq]
    rfl
  have h1:=h.segId
  have h2:=h.diskBytes
  have h3:=h.segments
  have h4:=h.segments_le
  have h5:=h.segId_le
  have h6:=h.disk_le
  refine ⟨d',hrun,hd',?_,?_,by omega,hseg,?_,by omega,by omega,by omega,by omega⟩
  · rw [hfiles,hid]
    exact CrashFs.beside_create h.other
  · rw [hlen]
    exact hnames
  · rw [hdisk,hbytes,h2]
    exact (Nat.zero_add _).symm

end

structure Kept (env : WalEnv) (limits : WalLimits) (d : Disk ℕ) (w : WalInner) : Prop where
  healthy : w.failed=false
  counted : w.toIndex.Counted env limits
  books : ∃ f rest base, Books limits d w f rest base

theorem append_kept (h : Kept env limits d w) {r : WalRecord} {id : Option String} {parent : Option TraceParent}
    {plan : Plan (ℕ × Bool)} (hplan : appendSubmissionWithParent env limits segmentMax w r id parent=.ok plan) :
    (∃ x, plan.result=.ok x) ∧ ∃ d', Disk.Completed plan.effects d d' ∧ Kept env limits d' plan.wal := by
  rcases append_cases hplan with ⟨seq,rfl⟩ | ⟨stored,receipt,bytes,hadm,rfl⟩
  · exact ⟨⟨_,rfl⟩,d,rfl,h⟩
  · obtain ⟨f,rest,base,hbooks⟩:=h.books
    have hinsert : ∃ receipts', insertReceipt env limits w.receipts receipt=.ok receipts' := by
      cases receipt with
      | none => exact ⟨_,rfl⟩
      | some g => exact ReceiptIndex.insert_of_check hadm.receipt
    obtain ⟨receipts',hreceipts⟩:=hinsert
    have hcounted:=@Index.Counted.append env limits w.toIndex h.counted r parent receipt receipts' bytes hreceipts hadm.room
    obtain ⟨d1,hrun1,hbooks1⟩:=hbooks.write hadm.disk
    unfold appendPlan
    rw [hreceipts]
    dsimp only
    split
    · rename_i hrotate
      obtain ⟨hlast,hroom⟩:=hadm.segment (of_decide_eq_true hrotate)
      obtain ⟨d2,hrun2,hbooks2⟩:=hbooks1.sync
      obtain ⟨d3,hrun3,hbooks3⟩:=@Books.next limits _ d2 _ rest base hbooks2
        {w.wrote (recordFrame env stored) with
          receipts := receipts'
          pending := w.pending++[⟨r,parent⟩]
          pendingBytes := bytes
          segId := w.segId+1
          segBytes := 0
          segments := w.segments+1} rfl rfl rfl rfl hroom hlast
      refine ⟨⟨_,rfl⟩,d3,?_,h.healthy,hcounted,_,_,_,hbooks3⟩
      refine (@Disk.completed_append _ _ [.write w.segId (recordFrame env stored)] _ d d3).mpr ⟨d1,hrun1,?_⟩
      exact (@Disk.completed_append _ _ [.sync w.segId] _ d1 d3).mpr ⟨d2,hrun2,hrun3⟩
    · exact ⟨⟨_,rfl⟩,d1,hrun1,h.healthy,hcounted,_,rest,base,hbooks1.same ⟨rfl,rfl,rfl,rfl⟩⟩

variable {plan : Plan Unit}

theorem sync_kept (h : Kept env limits d w) (hplan : w.sync=.ok plan) :
    plan.result=.ok () ∧ ∃ d', Disk.Completed plan.effects d d' ∧ Kept env limits d' plan.wal := by
  obtain ⟨f,rest,base,hbooks⟩:=h.books
  unfold WalInner.sync at hplan
  obtain ⟨-,-,hplan⟩:=bind_eq_ok.mp hplan
  obtain rfl:=(Except.ok.inj hplan).symm
  obtain ⟨d',hrun,hbooks'⟩:=hbooks.sync
  exact ⟨rfl,d',hrun,h.healthy,h.counted,_,_,_,hbooks'⟩

theorem listSegments_perm {names names' : List ℕ} (h : names.Perm names') (max : ℕ) :
    listSegments names max=listSegments names' max := by
  have hsort : names.insertionSort (·≤·)=names'.insertionSort (·≤·) := by
    refine List.Perm.eq_of_pairwise' (List.pairwise_insertionSort ..) (List.pairwise_insertionSort ..) ?_
    exact (List.perm_insertionSort ..).trans (h.trans (List.perm_insertionSort ..).symm)
  unfold listSegments
  rw [h.length_eq,hsort]

theorem flatten_length (rs : List WalRecord) : (rs.map (recordFrame env)).flatten.length =
    (rs.map fun r => (env.encodeRecord r).length+8).sum := by
  induction rs with
  | nil => rfl
  | cons r rs ih =>
    simp only [map_cons,List.flatten_cons,length_append,sum_cons,ih,recordFrame_length]

theorem Books.checkpoint (h : Books limits d w f rest base) (chunks : List Bytes) :
    ∃ d', Disk.Completed ((.create (w.segId+1)::chunks.map (.write (w.segId+1)))++[.sync (w.segId+1),.syncDir]++
        ((range' base (rest.length+1)).map .unlink++[.syncDir])) d d' ∧ d'.Distinct ∧
      Beside d'.files (w.segId+1) ⟨chunks.flatten,chunks.flatten⟩ [] := by
  have hbeside:=CrashFs.beside_create h.other
  obtain ⟨hwrites,hwritten⟩:=hbeside.writes chunks
  have hsynced:=hwritten.touch fun f => {f with synced:=f.data}
  have hnames : ∀ m∈range' base (rest.length+1), ∃ x∈d.files, x.1=m := by
    intro m hm
    exact List.mem_map.mp (h.names.mem_iff.mpr hm)
  obtain ⟨hunlinks,hremoved⟩:=hsynced.unlinks List.nodup_range' hnames
  have hnone : d.files.filter (fun x => decide (x.1∉range' base (rest.length+1)))=[] := by
    rw [List.filter_eq_nil_iff]
    intro x hx
    simpa using h.names.mem_iff.mp (List.mem_map_of_mem hx)
  rw [hnone] at hremoved
  have hcreate : AllApply (.create (w.segId+1)::chunks.map (.write (w.segId+1))) d.files := ⟨h.other,hwrites⟩
  have hfirst : AllApply ((.create (w.segId+1)::chunks.map (.write (w.segId+1)))++
      [.sync (w.segId+1),.syncDir]) d.files := CrashFs.allApply_append hcreate ⟨hwritten.mem,trivial,trivial⟩
  have hlast : AllApply ((range' base (rest.length+1)).map Effect.unlink++[.syncDir])
      (((Effect.create (w.segId+1)::chunks.map (Effect.write (w.segId+1)))++
        [Effect.sync (w.segId+1),Effect.syncDir]).foldl Effect.onFiles d.files) := by
    rw [foldl_append]
    exact CrashFs.allApply_append hunlinks ⟨trivial,trivial⟩
  obtain ⟨d',hrun,hd',hfiles⟩:=Disk.completed_files h.distinct (CrashFs.allApply_append hfirst hlast)
  refine ⟨d',hrun,hd',?_⟩
  rw [hfiles,foldl_append,foldl_append,foldl_append]
  exact hremoved

theorem checkpoint_kept (h : Kept env limits d w) {receipts : Order Receipt} {seq watermarkBytes checkpointBytes : ℕ}
    (hraises : Raises env limits acks w endpoint sender seq watermarkBytes checkpointBytes)
    (hclears : w.clears (endpoint,sender) seq=true)
    (hplan : plan=checkpointPlan env limits (d.dir.map Prod.fst) receipts w (endpoint,sender) seq watermarkBytes
      ((recordFrame env (ackRecord endpoint sender seq)).length+checkpointBytes)
      (recordFrame env (ackRecord endpoint sender seq)) (otherAcks acks w (endpoint,sender))) :
    plan.result=.ok () ∧ ∃ d', Disk.Completed plan.effects d d' ∧ Kept env limits d' plan.wal := by
  obtain ⟨f,rest,base,hbooks⟩:=h.books
  obtain ⟨hsize,hothers⟩:=sizes_ok (hraises.checkpoint hclears)
  obtain ⟨hlast,hroom⟩:=hraises.segment hclears
  have hid:=hbooks.segId
  have hle:=hbooks.segId_le
  have hcount:=hbooks.segments
  have hcount_le:=hbooks.segments_le
  have hdisk:=hraises.disk
  have hfits : ∀ r∈otherAcks acks w (endpoint,sender)++(receipts.arrange w.receipts.iter).map (·.record env),
      (env.encodeRecord r).length≤limits.maxRecordBytes := by
    intro r hr
    rcases List.mem_append.mp hr with hr | hr
    · exact hothers r hr
    · obtain ⟨g,hg,rfl⟩:=List.mem_map.mp hr
      exact h.counted.acks.receipts.fits g ((receipts.perm _).mem_iff.mp hg)
  have hnext : w.segId+1=base+(rest.length+1) := by omega
  have hlist:=@listing_next base (rest.length+1) limits.maxSegments (by omega) (by omega)
  rw [← hnext] at hlist
  have hperm : (d.dir.map Prod.fst++[w.segId+1]).Perm (range' base (rest.length+1)++[w.segId+1]) := by
    rw [← Disk.files_names]
    exact hbooks.names.append_right _
  rw [checkpointPlan,encodeUntil_all hfits] at hplan
  dsimp only at hplan
  rw [listSegments_perm hperm,hlist.1] at hplan
  dsimp only at hplan
  rw [hlist.2] at hplan
  subst hplan
  have hiter : ((receipts.arrange w.receipts.iter).map fun r => (env.encodeRecord (r.record env)).length+8).sum =
      w.receipts.checkpointBytes := by
    have hsum:=h.counted.acks.receipts.checkpoint
    rw [ReceiptIndex.encoded] at hsum
    exact (((receipts.perm _).map _).sum_eq).trans hsum.symm
  have hlen : (recordFrame env (ackRecord endpoint sender seq)).length+checkpointBytes =
      (recordFrame env (ackRecord endpoint sender seq)::(otherAcks acks w (endpoint,sender)++
        (receipts.arrange w.receipts.iter).map (·.record env)).map (recordFrame env)).flatten.length := by
    rw [List.flatten_cons,length_append,flatten_length,List.map_append,List.sum_append,map_map,hsize]
    change _=_+(_+((receipts.arrange w.receipts.iter).map fun r => (env.encodeRecord (r.record env)).length+8).sum)
    rw [hiter]
    omega
  obtain ⟨d',hrun,hd',hbeside⟩:=hbooks.checkpoint (recordFrame env (ackRecord endpoint sender seq)::
    (otherAcks acks w (endpoint,sender)++(receipts.arrange w.receipts.iter).map (·.record env)).map (recordFrame env))
  refine ⟨rfl,d',hrun,h.healthy,h.counted.acknowledged hraises rfl,_,[],w.segId+1,hd',hbeside,?_,?_,?_,?_,?_,?_,?_,?_⟩
  · exact List.Perm.refl _
  · rfl
  · exact hlen
  · exact hlen
  · rfl
  · change (recordFrame env (ackRecord endpoint sender seq)).length+checkpointBytes≤limits.maxDiskBytes
    omega
  · change 1≤limits.maxSegments
    omega
  · change w.segId+1≤u64Max
    omega

theorem ack_kept (h : Kept env limits d w) {receipts : Order Receipt} {seq : ℕ}
    (hplan : Wal.ack env limits (d.dir.map Prod.fst) acks receipts w endpoint sender seq=.ok plan) :
    plan.result=.ok () ∧ ∃ d', Disk.Completed plan.effects d d' ∧ Kept env limits d' plan.wal := by
  rcases ack_cases hplan with rfl | ⟨wb,cb,hraises,⟨hclears,rfl⟩ | ⟨hclears,hplan⟩⟩
  · exact ⟨rfl,d,rfl,h⟩
  · obtain ⟨f,rest,base,hbooks⟩:=h.books
    have hdisk:=hraises.disk
    obtain ⟨d',hrun,hbooks'⟩:=@Books.write limits w d f rest base hbooks
      (recordFrame env (ackRecord endpoint sender seq)) (by omega)
    exact ⟨rfl,d',hrun,h.healthy,h.counted.acknowledged hraises rfl,_,rest,base,hbooks'.same ⟨rfl,rfl,rfl,rfl⟩⟩
  · exact checkpoint_kept h hraises hclears hplan

theorem chain_range {ids : List ℕ} (h : ids.IsChain fun a b => checkedAdd a 1=some b) :
    ∃ base, ids=range' base ids.length := by
  induction ids with
  | nil => exact ⟨0,rfl⟩
  | cons a ids ih =>
    cases ids with
    | nil => exact ⟨a,rfl⟩
    | cons b ids =>
      obtain ⟨hab,hrest⟩:=List.isChain_cons_cons.mp h
      obtain ⟨base,hbase⟩:=ih hrest
      have hb : base=a+1 := by
        have hcons:=hbase
        rw [length_cons,List.range'_succ] at hcons
        exact (List.cons.inj hcons).1.symm.trans (checkedAdd_eq_some.mp hab).1
      refine ⟨a,?_⟩
      rw [length_cons,List.range'_succ,← hb]
      exact congrArg (a::·) hbase

theorem listSegments_range_of {names ids : List ℕ} {max : ℕ} (h : listSegments names max=.ok ids) :
    (∃ base, ids=range' base ids.length) ∧ ids.length ≤ max := by
  have hids:=listSegments_ok h
  unfold listSegments at h
  obtain ⟨hcount,h⟩:=Except.of_ite_left h
  dsimp only at h
  obtain ⟨hchain,h⟩:=Except.of_ite_right h
  cases h
  refine ⟨chain_range hchain,?_⟩
  rw [List.length_insertionSort]
  omega

theorem readSegments_ok {ids : List ℕ} (h : readSegments d ids=.ok files) :
    files.map Prod.fst=ids ∧ ∀ x∈files, d.read x.1=some x.2 := by
  unfold readSegments at h
  induction ids generalizing files with
  | nil =>
    cases h
    exact ⟨rfl,fun x hx => absurd hx not_mem_nil⟩
  | cons sid ids ih =>
    rw [List.mapM_cons] at h
    obtain ⟨x,hx,h⟩:=bind_eq_ok.mp h
    obtain ⟨more,hmore,h⟩:=bind_eq_ok.mp h
    cases h
    obtain ⟨hnames,hread⟩:=ih hmore
    cases hr : d.read sid with
    | none =>
      rw [hr] at hx
      contradiction
    | some bytes =>
      rw [hr] at hx
      cases hx
      refine ⟨by rw [map_cons,hnames],?_⟩
      intro y hy
      rcases List.mem_cons.mp hy with rfl | hy
      · exact hr
      · exact hread y hy

theorem sumSizes_ok {total n : ℕ} (h : sumSizes limits files total=.ok n) (htotal : total≤limits.maxDiskBytes) :
    n=total+(files.map fun x => x.2.length).sum ∧ n≤limits.maxDiskBytes := by
  induction files generalizing total with
  | nil =>
    cases h
    exact ⟨rfl,htotal⟩
  | cons x files ih =>
    unfold sumSizes at h
    obtain ⟨hle,h⟩:=Except.of_ite_right h
    obtain ⟨hn,hmax⟩:=ih h hle
    rw [map_cons,sum_cons]
    exact ⟨by omega,hmax⟩

theorem sizes_files (hd : d.Distinct) (hread : ∀ x∈files, d.read x.1=some x.2)
    (hnames : (files.map Prod.fst).Perm (d.files.map Prod.fst)) :
    (files.map fun x => x.2.length).sum=SegmentLog.bytes d.files := by
  have hleft : files.map (fun x => x.2.length) =
      (files.map Prod.fst).map fun m => ((d.read m).map List.length).getD 0 := by
    rw [map_map]
    refine List.map_congr_left ?_
    intro x hx
    simp [hread x hx]
  have hright : d.files.map (fun x => x.2.data.length) =
      (d.files.map Prod.fst).map fun m => ((d.read m).map List.length).getD 0 := by
    rw [map_map]
    refine List.map_congr_left ?_
    intro x hx
    simp [hd.read hx]
  unfold SegmentLog.bytes
  rw [hleft,hright]
  exact (hnames.map _).sum_eq

theorem beside_last {l : Listing ℕ} {base : ℕ} (h : (l.map Prod.fst).Perm (range' base l.length)) {n : ℕ}
    (hn : (range' base l.length).getLast? = some n) : ∃ f rest, Beside l n f rest ∧
    (rest.map Prod.fst).Perm (range' base rest.length) ∧ n=base+rest.length := by
  have hpos : l.length≠0 := by
    intro hzero
    rw [hzero] at hn
    contradiction
  obtain ⟨k,hk⟩:=Nat.exists_eq_succ_of_ne_zero hpos
  rw [Nat.succ_eq_add_one] at hk
  rw [hk,List.range'_1_concat] at h hn
  have hlast : n=base+k := by simpa using hn.symm
  have hmem : n∈l.map Prod.fst := h.mem_iff.mpr (by simp [hlast])
  obtain ⟨⟨m,f⟩,hx,rfl⟩:=List.mem_map.mp hmem
  obtain ⟨pre,post,rfl⟩:=List.append_of_mem hx
  have hperm : (pre++(m,f)::post).Perm ((m,f)::(pre++post)) := List.perm_middle
  have hlen : (pre++post).length=k := by
    rw [length_append]
    rw [length_append,length_cons] at hk
    omega
  have hrest : ((pre++post).map Prod.fst).Perm (range' base k) := by
    have hcons:=(hperm.map Prod.fst).symm.trans h
    rw [← hlast] at hcons
    exact (hcons.trans (List.perm_append_singleton ..)).cons_inv
  refine ⟨f,pre++post,⟨hperm,?_⟩,by rw [hlen]; exact hrest,by rw [hlen]; exact hlast⟩
  intro x hx heq
  have hin:=hrest.mem_iff.mp (List.mem_map_of_mem hx)
  rw [List.mem_range'_1,heq] at hin
  dsimp only at hlast hin
  omega

def Tail.Ends (d : Disk ℕ) (last : Option ℕ) (t : Tail) : Prop :=
  some t.sid=last ∧ t.good≤t.length ∧ (d.read t.sid).map List.length=some t.length

theorem open_first (hd : d.Distinct) (hfiles : d.files=[]) (hsegs : 1≤limits.maxSegments) (hid : w.segId=1)
    (hseg : w.segBytes=0) (hdisk : w.diskBytes=0) (hsegments : w.segments=1) : ∃ d',
    Disk.Completed [.create w.segId,.syncDir] d d' ∧ Books limits d' w ⟨[],[]⟩ [] 1 := by
  have happly : AllApply [.create w.segId,.syncDir] d.files := by
    rw [hfiles]
    exact ⟨fun x hx => absurd hx not_mem_nil,trivial,trivial⟩
  obtain ⟨d',hrun,hd',heq⟩:=Disk.completed_files hd happly
  rw [hfiles] at heq
  refine ⟨d',hrun,hd',?_,List.Perm.refl _,hid,hseg,hdisk,hsegments,by omega,by omega,?_⟩
  · rw [heq]
    exact @CrashFs.beside_create ℕ w.segId [] fun x hx => absurd hx not_mem_nil
  · rw [hid]
    decide

variable {tail : Option Tail}

theorem open_last (hd : d.Distinct) (hbeside : Beside d.files w.segId f rest)
    (hnumbers : (rest.map Prod.fst).Perm (range' base rest.length))
    (htail : ∀ t, tail=some t → t.Ends d (some w.segId)) (hid : w.segId=base+rest.length)
    (hseg : w.segBytes=(tail.map Tail.good).getD f.data.length)
    (hdisk : w.diskBytes=f.data.length+SegmentLog.bytes rest-(tail.map fun t => t.length-t.good).getD 0)
    (hsegments : w.segments=rest.length+1) (hdisk_le : f.data.length+SegmentLog.bytes rest≤limits.maxDiskBytes)
    (hsegs : rest.length+1≤limits.maxSegments) (hlast : w.segId≤u64Max) : ∃ d' f',
    Disk.Completed ((tail.map fun t => [Effect.truncate t.sid t.good,Effect.sync t.sid]).getD []++ [.syncDir]) d d' ∧
    Books limits d' w f' rest base := by
  have hread:=hd.read (hbeside.perm.mem_iff.mpr mem_cons_self)
  dsimp only at hread
  cases tail with
  | none =>
    have happly : AllApply [.syncDir] d.files := ⟨trivial,trivial⟩
    obtain ⟨d',hrun,hd',heq⟩:=Disk.completed_files hd happly
    refine ⟨d',f,hrun,hd',?_,hnumbers,hid,hseg,hdisk,hsegments,?_,by omega,hlast⟩
    · rw [heq]
      exact hbeside
    · rw [hdisk]
      exact (Nat.sub_le ..).trans hdisk_le
  | some t =>
    obtain ⟨hsid,hgood,hlen⟩:=htail t rfl
    have hsid:=Option.some.inj hsid
    rw [hsid,hread] at hlen
    have hlen : f.data.length=t.length := Option.some.inj hlen
    have hcut:=hbeside.touch fun f => {f with data:=f.data.take t.good}
    have hsynced:=hcut.touch fun f => {f with synced:=f.data}
    have happly : AllApply [.truncate w.segId t.good,.sync w.segId,.syncDir] d.files :=
      ⟨hbeside.mem,hcut.mem,trivial,trivial⟩
    obtain ⟨d',hrun,hd',heq⟩:=Disk.completed_files hd happly
    have htake : (f.data.take t.good).length=t.good := by
      rw [List.length_take]
      omega
    simp only [Option.map_some,Option.getD_some] at hseg hdisk
    refine ⟨d',_,?_,hd',by rw [heq]; exact hsynced,hnumbers,hid,?_,?_,hsegments,?_,by omega,hlast⟩
    · rw [← hsid] at hrun
      exact hrun
    · dsimp only
      rw [htake]
      exact hseg
    · dsimp only
      rw [htake]
      omega
    · omega

theorem acks_counted {acks : Acks}
    (h : scanAll env limits (visitItem env (Acks.visit env limits)) last files ⟨∅,0,.empty⟩ none=.ok (acks,tail)) :
    acks.Counted env limits ∧ ∀ t, tail=some t → t.Of files := by
  have hvisit : ∀ st r st', visitItem env (Acks.visit env limits) st r=.ok st' → st.Counted env limits →
      st'.Counted env limits := item_keeps fun st i st' hv hst => visit_counted hst hv
  have hempty : Acks.Counted env limits ⟨∅,0,.empty⟩ := ⟨rfl,Nat.zero_le _,Nat.zero_le _,ReceiptIndex.empty_counted⟩
  obtain ⟨hcounted,htails⟩:=scanAll_keeps hvisit h hempty
  refine ⟨hcounted,?_⟩
  intro t ht
  rcases htails t ht with hnone | hof
  · contradiction
  · exact hof

theorem pass_counted {acked : AList fun _ : Stream => ℕ} {pending : Pending}
    (h : scanAll env limits (visitItem env (Pending.visit env limits acked)) last files ⟨[],0⟩ none =
    .ok (pending,tail)) : pending.Counted env limits := by
  have hvisit : ∀ st r st', visitItem env (Pending.visit env limits acked) st r=.ok st' → st.Counted env limits →
      st'.Counted env limits := item_keeps fun st i st' hv hst => pending_counted hst hv
  exact (scanAll_keeps hvisit h ⟨rfl,Nat.zero_le _,Nat.zero_le _⟩).1

theorem open_kept (hd : d.Distinct) (h : openWithLimits env limits segmentMax d=.ok plan) :
    plan.result=.ok () ∧ ∃ d', Disk.Completed plan.effects d d' ∧ Kept env limits d' plan.wal := by
  unfold openWithLimits at h
  obtain ⟨_,hvalid,h⟩:=bind_eq_ok.mp h
  obtain ⟨ids,hids,h⟩:=bind_eq_ok.mp h
  obtain ⟨files,hfiles,h⟩:=bind_eq_ok.mp h
  obtain ⟨diskBytes,hsizes,h⟩:=bind_eq_ok.mp h
  dsimp only at h
  split at h
  · contradiction
  · rename_i next hnext
    obtain ⟨⟨acks,tail⟩,hacks,h⟩:=bind_eq_ok.mp h
    obtain ⟨⟨pending,_⟩,hpending,h⟩:=bind_eq_ok.mp h
    obtain rfl:=(Except.ok.inj h).symm
    refine ⟨rfl,?_⟩
    obtain ⟨-,-,-,hsegs,-⟩:=validate_limits hvalid
    obtain ⟨⟨base,hrange⟩,hcount⟩:=listSegments_range_of hids
    obtain ⟨hnames,hread⟩:=readSegments_ok hfiles
    obtain ⟨hsum,hsum_le⟩:=sumSizes_ok hsizes (Nat.zero_le _)
    obtain ⟨hacks_counted,htails⟩:=acks_counted hacks
    have hcounted : Index.Counted env limits
        ⟨acks.acked,acks.watermarkBytes,pending.pending,pending.bytes,acks.receipts⟩ :=
      ⟨hacks_counted,pass_counted hpending⟩
    have hperm : (d.files.map Prod.fst).Perm ids := by
      rw [Disk.files_names,listSegments_ok hids]
      exact (List.perm_insertionSort ..).symm
    have hlen : ids.length=d.files.length := by
      rw [← hperm.length_eq,List.length_map]
    have hbytes:=sizes_files hd hread (by rw [hnames]; exact hperm.symm)
    have hends : ∀ t, tail=some t → t.Ends d ids.getLast? := by
      rintro t rfl
      obtain ⟨x,hx,hsid,hsize,hgood⟩:=htails t rfl
      refine ⟨?_,hgood,by rw [← hsid,hread x hx,Option.map_some,hsize]⟩
      rcases scanAll_tail hacks with hnone | hsome
      · contradiction
      · exact hsome
    cases hlast : ids.getLast? with
    | none =>
      obtain rfl:=List.getLast?_eq_none_iff.mp hlast
      have hempty : d.files=[] := List.map_eq_nil_iff.mp hperm.eq_nil
      have hnone : tail=none := by
        cases tail with
        | none => rfl
        | some t => exact absurd (hends t rfl).1 (Option.some_ne_none _)
      have hread1 : d.read 1=none := by
        have hdir : d.dir=[] := List.map_eq_nil_iff.mp hempty
        simp [Disk.read,Disk.file,hdir]
      subst hnone
      have hzero : diskBytes=0 := by
        rw [hsum,hbytes,hempty]
        rfl
      obtain ⟨d',hrun,hbooks⟩:=open_first (w := ⟨⟨acks.acked,acks.watermarkBytes,pending.pending,pending.bytes,
        acks.receipts⟩,1,((d.read 1).map List.length).getD 0,diskBytes,1,false⟩) hd hempty hsegs rfl
        (by rw [hread1]; rfl) hzero rfl
      exact ⟨d',hrun,rfl,hcounted,_,_,_,hbooks⟩
    | some n =>
      rw [hlast] at hends hnext
      rw [hrange,hlen] at hperm
      have hgetLast:=hlast
      rw [hrange,hlen] at hgetLast
      obtain ⟨f,rest,hbeside,hnumbers,hn⟩:=beside_last hperm hgetLast
      have hrest : ids.length=rest.length+1 := by
        rw [hlen,hbeside.perm.length_eq,length_cons]
      have hsizes_rest : SegmentLog.bytes d.files=f.data.length+SegmentLog.bytes rest := (hbeside.perm.map _).sum_eq
      have hreadn:=hd.read (hbeside.perm.mem_iff.mpr mem_cons_self)
      dsimp only at hreadn
      have hne : ids.isEmpty=false := by
        cases ids with
        | nil => contradiction
        | cons m ids => rfl
      have hdisk : f.data.length+SegmentLog.bytes rest≤limits.maxDiskBytes := by omega
      obtain ⟨d',f',hrun,hbooks⟩:=open_last (w := ⟨⟨acks.acked,acks.watermarkBytes,pending.pending,pending.bytes,
        acks.receipts⟩,n,(tail.map Tail.good).getD (((d.read n).map List.length).getD 0),
        diskBytes-(tail.map fun t => t.length-t.good).getD 0,max ids.length 1,false⟩) hd hbeside
        hnumbers hends hn (by rw [hreadn]; rfl) (by dsimp only; omega) (by dsimp only; omega) hdisk
        (by omega)
        ((Nat.le_succ n).trans (checkedAdd_eq_some.mp hnext).2)
      refine ⟨d',?_,rfl,hcounted,f',rest,base,hbooks⟩
      rw [hne]
      exact hrun

variable (env limits segmentMax)

def WalOp.reply (d : Disk ℕ) (w : WalInner) : WalOp → Except String Unit
  | .append r id parent => do
    let plan ← appendSubmissionWithParent env limits segmentMax w r id parent
    let _ ← plan.result
    return ()
  | .ack endpoint sender seq acks receipts => do
    let plan ← Wal.ack env limits (d.dir.map Prod.fst) acks receipts w endpoint sender seq
    plan.result
  | .sync => do
    let plan ← w.sync
    plan.result

def Called (s s' : Disk ℕ × WalInner) : Prop :=
  ∃ op : WalOp, Disk.Completed (op.plan env limits segmentMax s.1 s.2).1 s.1 s'.1 ∧
    s'.2=(op.plan env limits segmentMax s.1 s.2).2

/-- The counters are those of the records and the files, and within the limits. -/
structure Accounted (d : Disk ℕ) (w : WalInner) : Prop where
  pending : w.pendingBytes=(w.pending.map fun p => recordMemory env p.record).sum
  watermarks : w.watermarkBytes=(w.acked.keys.map (watermarkMemory env)).sum
  receipts : w.receipts.bytes=w.receipts.memories
  checkpoint : w.receipts.checkpointBytes=w.receipts.encoded env
  disk : w.diskBytes=(d.files.map fun x => x.2.data.length).sum
  segments : w.segments=d.files.length
  active : (d.read w.segId).map List.length=some w.segBytes
  pending_le : w.pendingBytes≤limits.maxPendingBytes ∧ w.pending.length≤limits.maxPendingRecords
  watermarks_le : w.watermarkBytes≤limits.maxWatermarkBytes ∧ w.acked.keys.length≤limits.maxStreams
  receipts_le : w.receipts.bytes≤limits.maxSubmissionReceiptBytes ∧ w.receipts.len≤limits.maxSubmissionReceipts
  disk_le : w.diskBytes≤limits.maxDiskBytes
  segments_le : w.segments≤limits.maxSegments

variable {env limits segmentMax}

theorem Kept.accounted (h : Kept env limits d w) : Accounted env limits d w := by
  obtain ⟨f,rest,base,hbooks⟩:=h.books
  have hacks:=h.counted.acks
  have hpending:=h.counted.pending
  constructor
  · exact hpending.bytes
  · exact hacks.watermark
  · exact hacks.receipts.bytes
  · exact hacks.receipts.checkpoint
  · rw [hbooks.diskBytes]
    exact (hbooks.beside.perm.map fun x => x.2.data.length).sum_eq.symm
  · rw [hbooks.segments,hbooks.beside.perm.length_eq,length_cons]
  · rw [hbooks.distinct.read (hbooks.beside.perm.mem_iff.mpr mem_cons_self),hbooks.segBytes]
    rfl
  · exact ⟨hpending.bytes_le,hpending.count_le⟩
  · exact ⟨hacks.watermark_le,hacks.streams_le⟩
  · exact ⟨hacks.receipts.bytes_le,hacks.receipts.count_le⟩
  · exact hbooks.disk_le
  · exact hbooks.segments_le

theorem call_kept (h : Kept env limits d w) (op : WalOp) : (∀ e, op.reply env limits segmentMax d w=.error e →
    op.plan env limits segmentMax d w=([],w)) ∧ ∃ d', Disk.Completed (op.plan env limits segmentMax d w).1 d d' ∧
    Kept env limits d' (op.plan env limits segmentMax d w).2 := by
  cases op with
  | append r id parent =>
    simp only [WalOp.plan,WalOp.reply]
    cases hp : appendSubmissionWithParent env limits segmentMax w r id parent with
    | error e => exact ⟨fun _ _ => rfl,d,rfl,h⟩
    | ok plan =>
      obtain ⟨⟨x,hx⟩,hkept⟩:=append_kept h hp
      refine ⟨?_,hkept⟩
      intro e he
      change (plan.result >>= fun _ => .ok ())=_ at he
      rw [hx] at he
      contradiction
  | ack endpoint sender seq acks receipts =>
    simp only [WalOp.plan,WalOp.reply]
    cases hp : Wal.ack env limits (d.dir.map Prod.fst) acks receipts w endpoint sender seq with
    | error e => exact ⟨fun _ _ => rfl,d,rfl,h⟩
    | ok plan =>
      obtain ⟨hx,hkept⟩:=ack_kept h hp
      refine ⟨?_,hkept⟩
      intro e he
      change plan.result=_ at he
      rw [hx] at he
      contradiction
  | sync =>
    simp only [WalOp.plan,WalOp.reply]
    cases hp : w.sync with
    | error e => exact ⟨fun _ _ => rfl,d,rfl,h⟩
    | ok plan =>
      obtain ⟨hx,hkept⟩:=sync_kept h hp
      refine ⟨?_,hkept⟩
      intro e he
      change plan.result=_ at he
      rw [hx] at he
      contradiction

theorem completed_unique {effects : List (Effect ℕ)} {d1 d2 : Disk ℕ} (h1 : Disk.Completed effects d d1)
    (h2 : Disk.Completed effects d d2) : d1=d2 := Option.some.inj (h1.symm.trans h2)

theorem calls_kept {s s' : Disk ℕ × WalInner} (h : Kept env limits s.1 s.2)
    (hcalls : Relation.ReflTransGen (Called env limits segmentMax) s s') : Kept env limits s'.1 s'.2 := by
  induction hcalls with
  | refl => exact h
  | tail _ hcall ih =>
    obtain ⟨op,hrun,hw⟩:=hcall
    obtain ⟨-,d',hrun',hkept⟩:=@call_kept env limits segmentMax _ _ ih op
    rw [hw,completed_unique hrun hrun']
    exact hkept

/-- In every sequence of calls on an open log the counters are those of the records and
the files, and a call that answers an error has done nothing. -/
theorem accounting {plan : Plan Unit} (hd : d.Distinct) (hopen : openWithLimits env limits segmentMax d=.ok plan)
    (hrun : Disk.Completed plan.effects d d') {s : Disk ℕ × WalInner}
    (hcalls : Relation.ReflTransGen (Called env limits segmentMax) (d',plan.wal) s) (op : WalOp) :
    Accounted env limits s.1 s.2 ∧
    (∀ e, op.reply env limits segmentMax s.1 s.2=.error e → op.plan env limits segmentMax s.1 s.2=([],s.2)) ∧ ∃ d'',
    Disk.Completed (op.plan env limits segmentMax s.1 s.2).1 s.1 d'' ∧
    Accounted env limits d'' (op.plan env limits segmentMax s.1 s.2).2 := by
  obtain ⟨-,d1,hrun1,hkept⟩:=open_kept hd hopen
  rw [← completed_unique hrun hrun1] at hkept
  have hs:=@calls_kept env limits segmentMax (d',plan.wal) s hkept hcalls
  obtain ⟨hrefused,d'',hrun',hkept'⟩:=@call_kept env limits segmentMax _ _ hs op
  exact ⟨hs.accounted,hrefused,d'',hrun',hkept'.accounted⟩

end env

theorem accounting_small : Accounted WalEnv.standard smallLimits smallSys.disk smallWal ∧ (∀ e,
    smallAppend.reply WalEnv.standard smallLimits 4096 smallSys.disk smallWal=.error e → smallPlan=([],smallWal)) ∧
    ∃ d', Disk.Completed smallPlan.1 smallSys.disk d' ∧ Accounted WalEnv.standard smallLimits d' smallPlan.2 :=
  accounting Disk.empty_distinct (open_fresh smallLimits_valid ⟨Disk.empty_named,Disk.empty_history⟩) rfl .refl
    smallAppend

end Parrot.Wal
