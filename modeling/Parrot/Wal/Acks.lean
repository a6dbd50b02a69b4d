import Parrot.Wal.Operations

/-! # Acknowledgements

An acknowledgement that leaves something pending is one more record. -/

namespace Parrot.Wal
open List (map_cons sum_cons mem_cons_self mem_cons_of_mem mem_map_of_mem map_map map_append range')
open Machine
open Bincode (Bytes)
open CrashFs (Effect)
open SegmentLog

section env
variable {env : WalEnv} {limits : WalLimits} {segmentMax : ℕ}

structure Raises (env : WalEnv) (limits : WalLimits) (acks : Order (Stream × ℕ)) (w : WalInner)
    (endpoint sender : String) (seq watermarkBytes checkpointBytes : ℕ) : Prop where
  valid : validateRecord (ackRecord endpoint sender seq) true=.ok ()
  above : ∀ n, w.acked.lookup (endpoint,sender)=some n → n<seq
  streams : w.acked.lookup (endpoint,sender)=none → w.acked.keys.length≠limits.maxStreams
  known : (w.acked.lookup (endpoint,sender)).isSome → watermarkBytes=w.watermarkBytes
  new : w.acked.lookup (endpoint,sender)=none →
    reserveWatermark env limits w.watermarkBytes (endpoint,sender)=.ok watermarkBytes
  fits : (env.encodeRecord (ackRecord endpoint sender seq)).length≤limits.maxRecordBytes
  checkpoint : w.clears (endpoint,sender) seq=true →
    checkpointSize env limits acks w (endpoint,sender)=.ok checkpointBytes
  none : w.clears (endpoint,sender) seq=false → checkpointBytes=0
  disk : w.diskBytes+((recordFrame env (ackRecord endpoint sender seq)).length+checkpointBytes) ≤
    limits.maxDiskBytes
  segment : w.clears (endpoint,sender) seq=true → w.segId≠u64Max ∧ w.segments≠limits.maxSegments

variable {names : List ℕ} {acks : Order (Stream × ℕ)} {receipts : Order Receipt} {w : WalInner}
  {endpoint sender : String} {seq watermarkBytes checkpointBytes : ℕ}

theorem checkpointAdd_ok {a b n : ℕ} (h : checkpointAdd a b=.ok n) : n=a+b := by
  unfold checkpointAdd checkedAdd at h
  split at h
  · rename_i m hm
    obtain ⟨-,hm⟩:=Option.ite_none_right_eq_some.mp hm
    rw [← Except.ok.inj h,← Option.some.inj hm]
  · contradiction

theorem ack_cases {plan : Plan Unit}
    (h : ack env limits names acks receipts w endpoint sender seq=.ok plan) :
    plan=⟨[],w,.ok ()⟩ ∨ ∃ watermarkBytes checkpointBytes,
      Raises env limits acks w endpoint sender seq watermarkBytes checkpointBytes ∧
      (w.clears (endpoint,sender) seq=false ∧
        plan=⟨[.write w.segId (recordFrame env (ackRecord endpoint sender seq))],
          WalInner.acknowledged env (w.wrote (recordFrame env (ackRecord endpoint sender seq)))
            (endpoint,sender) seq watermarkBytes,.ok ()⟩ ∨
      w.clears (endpoint,sender) seq=true ∧
        plan=checkpointPlan env limits names receipts w (endpoint,sender) seq watermarkBytes
          ((recordFrame env (ackRecord endpoint sender seq)).length+checkpointBytes)
          (recordFrame env (ackRecord endpoint sender seq)) (otherAcks acks w (endpoint,sender))) := by
  unfold ack at h
  obtain ⟨-,-,h⟩:=bind_eq_ok.mp h
  obtain ⟨_,hvalid,h⟩:=bind_eq_ok.mp h
  dsimp only at h
  split at h
  · exact .inl (Except.ok.inj h).symm
  · rename_i habove
    obtain ⟨hstreams,h⟩:=Except.of_ite_left h
    obtain ⟨watermarkBytes,hw,h⟩:=bind_eq_ok.mp h
    obtain ⟨frame,hframe,h⟩:=bind_eq_ok.mp h
    obtain ⟨rfl,hfits⟩:=encodeFrame_ok hframe
    obtain ⟨checkpointBytes,hcp,h⟩:=bind_eq_ok.mp h
    obtain ⟨size,hsize,h⟩:=bind_eq_ok.mp h
    obtain ⟨_,hdisk,h⟩:=bind_eq_ok.mp h
    obtain rfl:=checkpointAdd_ok hsize
    have hraises : ∀ hseg : w.clears (endpoint,sender) seq=true → w.segId≠u64Max ∧ w.segments≠limits.maxSegments,
        Raises env limits acks w endpoint sender seq watermarkBytes checkpointBytes := by
      intro hseg
      constructor
      · exact hvalid
      · intro n hn
        rw [hn] at habove
        simpa using habove
      · intro hnone heq
        exact hstreams ⟨by rw [hnone]; rfl,heq⟩
      · intro hsome
        rw [watermarkAfter,if_pos hsome] at hw
        exact (Except.ok.inj hw).symm
      · intro hnone
        rw [watermarkAfter,if_neg (by simp [hnone])] at hw
        exact hw
      · exact hfits
      · intro hc
        rw [checkpointAfter,if_pos hc] at hcp
        exact hcp
      · intro hc
        rw [checkpointAfter,if_neg (by simp [hc])] at hcp
        exact (Except.ok.inj hcp).symm
      · exact ensureDisk_ok hdisk
      · exact hseg
    obtain ⟨hseg,h⟩:=Except.of_ite_left h
    push Not at hseg
    refine .inr ⟨watermarkBytes,checkpointBytes,hraises hseg,?_⟩
    split at h
    · exact .inr ⟨by assumption,(Except.ok.inj h).symm⟩
    · rename_i hclears
      exact .inl ⟨by simpa using hclears,(Except.ok.inj h).symm⟩

variable {its : List Item}

theorem represents_collected {x : Index} (h : Represents env limits x its) :
    Collected env limits its x.acks where
  ok := h.ok.acks
  acked := congrArg Value.acked h.value
  receipts := congrArg Value.receipts h.value
  consistent := h.consistent

theorem ack_mark (endpoint sender : String) (seq : ℕ) : (ackItem endpoint sender seq).mark=some
    (ackRecord endpoint sender seq) ∧ (ackItem endpoint sender seq).message=none := by
  simp [ackItem,Item.mark,Item.message,Option.filter,ackRecord]

theorem ack_visit (h : Raises env limits acks w endpoint sender seq watermarkBytes checkpointBytes) : w.acks.visit env
    limits (ackItem endpoint sender seq) = .ok ⟨w.acked.insert (endpoint,sender) seq,watermarkBytes,w.receipts⟩ := by
  have hstream : (ackRecord endpoint sender seq).stream=(endpoint,sender) := rfl
  unfold Acks.visit ackItem
  simp only [insertReceipt,bind,Except.bind]
  rw [if_pos (show (ackRecord endpoint sender seq).typeKey="#ack" from rfl),hstream]
  cases hl : w.acked.lookup (endpoint,sender) with
  | some n =>
    have hmax : max n seq=seq := Nat.max_eq_right (h.above n hl).le
    have hbytes:=h.known (by rw [hl]; rfl)
    simp only [Index.acks,hl,hbytes,pure,Except.pure]
    congr 3
  | none =>
    simp only [Index.acks,hl,if_neg (h.streams hl),h.new hl,pure,Except.pure]
    rfl

theorem ack_value {x : Index} (hx : Represents env limits x its)
    (habove : ∀ n, x.acked.lookup (endpoint,sender)=some n → n<seq) :
    replay (its++[ackItem endpoint sender seq]) =
      ⟨Function.update (fun s => x.acked.lookup s) (endpoint,sender) (some seq),
        x.pending.filter fun p => !(p.record.stream==(endpoint,sender)&&decide (p.record.seq ≤ seq)),
        fun key => x.receipts.entries.lookup key⟩ := by
  have hacked : (fun s => x.acked.lookup s)=(replay its).acked := congrArg Value.acked hx.value
  have hpend : x.pending=(replay its).pending := congrArg Value.pending hx.value
  have hrec : (fun key => x.receipts.entries.lookup key)=(replay its).receipts := congrArg Value.receipts hx.value
  obtain ⟨hmark,hmessage⟩:=ack_mark endpoint sender seq
  have hraise : raise (replay its).acked (some (ackRecord endpoint sender seq)) =
      Function.update (fun s => x.acked.lookup s) (endpoint,sender) (some seq) := by
    have hstream : (ackRecord endpoint sender seq).stream=(endpoint,sender) := rfl
    have hseq : (ackRecord endpoint sender seq).seq=seq := rfl
    simp only [raise,← hacked,hstream,hseq]
    congr 2
    cases hl : x.acked.lookup (endpoint,sender) with
    | none => simp
    | some n => simp [Nat.max_eq_right (habove n hl).le]
  rw [replay_snoc]
  simp only [Value.apply,hmark,hmessage,hraise,Option.toList_none,List.append_nil]
  rw [hrec,hpend]
  congr 1
  refine List.filter_congr ?_
  intro p hp
  congr 1
  have hold:=replay_uncovered hp
  rw [← hacked] at hold
  unfold covered at hold ⊢
  by_cases hs : p.record.stream=(endpoint,sender)
  · rw [hs,Function.update_self]
    simp
  · rw [Function.update_of_ne hs,hold]
    simp [hs]

theorem sum_filter_le {β : Type} (l : List β) (q : β → Bool) (f : β → ℕ) :
    ((l.filter q).map f).sum≤(l.map f).sum := by
  induction l with
  | nil => exact le_rfl
  | cons x l ih =>
    rw [List.filter_cons]
    split
    · simpa using ih
    · rw [map_cons,sum_cons]
      omega

theorem ack_represents (hw : Represents env limits w.toIndex its) (hseq : seq≤u64Max)
    (h : Raises env limits acks w endpoint sender seq watermarkBytes checkpointBytes) {w' : WalInner}
    (hw' : w'.toIndex=w.toIndex) :
    Represents env limits (WalInner.acknowledged env w' (endpoint,sender) seq watermarkBytes).toIndex
    (its++[ackItem endpoint sender seq]) := by
  have hsound : (ackItem endpoint sender seq).Sound := (ackStored endpoint sender seq h.valid hseq h.fits).sound
  have hnext:=collected_visit hsound (represents_collected hw) (ack_visit h)
  have hvalue:=ack_value hw h.above
  have hindex : (WalInner.acknowledged env w' (endpoint,sender) seq watermarkBytes).toIndex =
      (WalInner.acknowledged env w (endpoint,sender) seq watermarkBytes).toIndex := by
    simp only [WalInner.acknowledged,hw']
  rw [hindex]
  refine ⟨⟨hnext.ok,⟨?_,?_⟩,rfl⟩,?_,hnext.consistent⟩
  · exact (List.length_filter_le _ _).trans hw.ok.pending.1
  · exact (sum_filter_le ..).trans hw.ok.pending.2
  · rw [hvalue]
    simp only [Index.value,WalInner.acknowledged,lookup_insert_fun]

variable {L : Layout (Stored env limits)}

theorem ack_live (hw : Live w L) (hseq : seq≤u64Max)
    (h : Raises env limits acks w endpoint sender seq watermarkBytes checkpointBytes)
    (hclears : w.clears (endpoint,sender) seq=false) :
    ∃ s : Stored env limits, s.item=ackItem endpoint sender seq ∧ s.record=ackRecord endpoint sender seq ∧
      [Effect.write w.segId (recordFrame env (ackRecord endpoint sender seq))] =
        (Change.write s false).program Stored.body checksum L ∧
      Live (WalInner.acknowledged env (w.wrote (recordFrame env (ackRecord endpoint sender seq)))
        (endpoint,sender) seq watermarkBytes) ((Change.write s false).after L) ∧
      (WalInner.acknowledged env (w.wrote (recordFrame env (ackRecord endpoint sender seq)))
        (endpoint,sender) seq watermarkBytes).value=replay (items L.log++[s.item]) := by
  have hs : ∃ s : Stored env limits, s.record=ackRecord endpoint sender seq ∧ s.item=ackItem endpoint sender seq :=
    ⟨ackStored endpoint sender seq h.valid hseq h.fits,rfl,rfl⟩
  obtain ⟨s,hsr,hsi⟩:=hs
  have hrep : Represents env limits (WalInner.acknowledged env
      (w.wrote (recordFrame env (ackRecord endpoint sender seq))) (endpoint,sender) seq
        watermarkBytes).toIndex (items L.log++[s.item]) := by
    rw [hsi]
    exact ack_represents hw.represents hseq h rfl
  have hitems : items (Change.after L (.write s false)).log=items L.log++[s.item] := by
    simp [Change.after,Layout.log,items]
  have hframe : recordFrame env (ackRecord endpoint sender seq)=Frames.frame checksum s.body := by
    rw [← hsr]
    rfl
  have hsize : (data Stored.body checksum (L.active++[s])).length=(data Stored.body checksum L.active).length+
        (recordFrame env (ackRecord endpoint sender seq)).length := by
    rw [data_append,data_singleton,List.length_append,hframe]
  have hdisk:=h.disk
  have hnone:=h.none hclears
  refine ⟨s,hsi,hsr,?_,?_,hrep.value⟩
  · simp [Change.program,hw.segId,hframe]
  · refine ⟨?_,hw.segId,?_,?_,hw.segments,hw.healthy,?_,hw.segments_le,hw.segId_le⟩
    · rw [hitems]
      exact hrep
    · simp only [WalInner.acknowledged,WalInner.wrote,Change.after]
      rw [hsize,hw.segBytes]
    · simp only [WalInner.acknowledged,WalInner.wrote,Change.after]
      rw [size_log,hsize,hw.diskBytes,size_log,Nat.add_assoc]
    · simp only [WalInner.acknowledged,WalInner.wrote]
      omega

theorem sizes_ok {rs : List WalRecord} {start total : ℕ} (h : rs.foldlM (fun total r => do
      checkpointAdd total (← encodedSize env limits r)) start=.ok total) :
    total=start+(rs.map fun r => (env.encodeRecord r).length+8).sum ∧
      ∀ r∈rs, (env.encodeRecord r).length≤limits.maxRecordBytes := by
  induction rs generalizing start with
  | nil => exact ⟨by simpa using (Except.ok.inj h).symm,by simp⟩
  | cons r rs ih =>
    rw [List.foldlM_cons] at h
    obtain ⟨next,hnext,hrest⟩:=bind_eq_ok.mp h
    obtain ⟨size,hsize,hadd⟩:=bind_eq_ok.mp hnext
    obtain ⟨hfits,rfl⟩:=ReceiptIndex.encodedSize_ok hsize
    obtain rfl:=checkpointAdd_ok hadd
    obtain ⟨rfl,hall⟩:=ih hrest
    refine ⟨by rw [map_cons,sum_cons]; omega,?_⟩
    intro r' hr'
    rcases List.mem_cons.mp hr' with rfl | hr'
    · exact hfits
    · exact hall r' hr'

theorem encodeUntil_all {rs : List WalRecord} (h : ∀ r∈rs, (env.encodeRecord r).length≤limits.maxRecordBytes) :
    encodeUntil env limits rs=(rs.map (recordFrame env),none) := by
  induction rs with
  | nil => rfl
  | cons r rs ih =>
    rw [encodeUntil,encodeFrame_eq (h r (mem_cons_self ..)),ih fun r' hr' => h r' (mem_cons_of_mem _ hr')]
    rfl

theorem exists_stored {β : Type} {xs : List β} {rec : β → WalRecord} {item : β → Item}
    (h : ∀ x∈xs, ∃ s : Stored env limits, s.record=rec x ∧ s.item=item x) : ∃ ss : List (Stored env limits),
    ss.map Stored.record=xs.map rec ∧ ss.map Stored.item=xs.map item := by
  induction xs with
  | nil => exact ⟨[],rfl,rfl⟩
  | cons x xs ih =>
    obtain ⟨s,hr,hi⟩:=h x (mem_cons_self ..)
    obtain ⟨ss,hrs,his⟩:=ih fun y hy => h y (mem_cons_of_mem _ hy)
    exact ⟨s::ss,by simp [hr,hrs],by simp [hi,his]⟩

structure IsCheckpoint (L : Layout (Stored env limits)) (w' : WalInner) (rs : List (Stored env limits)) :
    Prop where
  old : ∀ i∈items L.log, Under w'.value i
  new : ∀ s∈rs, Under w'.value s.item ∧ s.item.message=none
  marks : ∀ s n, w'.value.acked s=some n → ∃ x∈rs, ∃ r, x.item.mark=some r ∧ r.stream=s ∧ r.seq=n
  receipts : ∀ key r, w'.value.receipts key=some r → ∃ x∈rs, x.item.receipt=some r ∧ r.key=key
  head : ∃ x rest, rs=x::rest ∧ replay (items L.log++[x.item])=w'.value
  pending : w'.pending=[]

theorem IsCheckpoint.replay_eq {w' : WalInner} {rs : List (Stored env limits)} (h : IsCheckpoint L w' rs)
    {pre : List Item} (hpre : ∀ i∈pre, Under w'.value i) : replay (pre++rs.map Stored.item)=w'.value := by
  have hval : w'.value=⟨w'.value.acked,[],w'.value.receipts⟩ := by
    rw [← h.pending]
    rfl
  rw [hval]
  refine replay_complete ?_ ?_ ?_
  · intro i hi
    rcases List.mem_append.mp hi with hi | hi
    · exact hpre i hi
    · obtain ⟨y,hy,rfl⟩:=List.mem_map.mp hi
      exact (h.new y hy).1
  · intro s n hn
    obtain ⟨y,hy,r,hr⟩:=h.marks s n hn
    exact ⟨y.item,List.mem_append_right _ (mem_map_of_mem hy),r,hr⟩
  · intro key r hr
    obtain ⟨y,hy,hyr⟩:=h.receipts key r hr
    exact ⟨y.item,List.mem_append_right _ (mem_map_of_mem hy),hyr⟩

theorem data_length_eq (rs : List (Stored env limits)) : (data Stored.body checksum rs).length =
    ((rs.map Stored.record).map fun r => (env.encodeRecord r).length+8).sum := by
  induction rs with
  | nil => rfl
  | cons s rs ih =>
    rw [data_cons,List.length_append,Frames.frame_length,ih,map_cons,map_cons,sum_cons,Stored.body,Nat.add_comm 8]

theorem recordFrame_length (r : WalRecord) : (recordFrame env r).length=(env.encodeRecord r).length+8 := by
  rw [recordFrame,Frames.frame_length,Nat.add_comm]

theorem mem_otherAcks {e : Stream × ℕ} : e∈(acks.arrange (w.acked.entries.map fun e => (e.1,e.2))).filter
    (fun e => e.1 != (endpoint,sender)) ↔ w.acked.lookup e.1=some e.2 ∧ e.1≠(endpoint,sender) := by
  rw [List.mem_filter,(acks.perm _).mem_iff,List.mem_map]
  have hmem : (∃ a∈w.acked.entries, ((a.1,a.2) : Stream × ℕ)=e) ↔ w.acked.lookup e.1=some e.2 := by
    constructor
    · rintro ⟨a,ha,rfl⟩
      exact AList.mem_lookup_iff.mpr ha
    · intro h
      exact ⟨⟨e.1,e.2⟩,AList.mem_lookup_iff.mp h,rfl⟩
  rw [hmem]
  simp

theorem iter_data (hok : w.receipts.Ok env limits) (receipts : Order Receipt) :
    (((receipts.arrange w.receipts.iter).map (·.record env)).map
      fun r => (env.encodeRecord r).length+8).sum=w.receipts.checkpointBytes := by
  rw [hok.checkpoint,ReceiptIndex.encoded,map_map]
  exact ((receipts.perm _).map _).sum_eq

theorem checkpoint_stored (hrecord : limits.maxRecordBytes≤wireLimit) (hw : Represents env limits w.toIndex its)
    (hseq : seq≤u64Max) (h : Raises env limits acks w endpoint sender seq watermarkBytes checkpointBytes)
    (hclears : w.clears (endpoint,sender) seq=true) (receipts : Order Receipt) : ∃ x rest : List (Stored env limits),
    ∃ s : Stored env limits, s.record=ackRecord endpoint sender seq ∧ s.item=ackItem endpoint sender seq ∧
    x.map Stored.record=otherAcks acks w (endpoint,sender) ∧ x.map
    Stored.item=((acks.arrange (w.acked.entries.map fun e => (e.1,e.2))).filter fun e => e.1 != (endpoint,sender)).map
    (fun e => ackItem e.1.1 e.1.2 e.2) ∧ rest.map Stored.record=(receipts.arrange w.receipts.iter).map
    (·.record env) ∧ rest.map Stored.item=(receipts.arrange w.receipts.iter).map receiptItem ∧
    (data Stored.body checksum (s::(x++rest))).length =
    (recordFrame env (ackRecord endpoint sender seq)).length+checkpointBytes := by
  obtain ⟨hsum,hfits⟩:=sizes_ok (h.checkpoint hclears)
  have hacks:=hw.ok.acks
  have hothers : ∀ e∈(acks.arrange (w.acked.entries.map fun e => (e.1,e.2))).filter
      (fun e => e.1 != (endpoint,sender)), ∃ s : Stored env limits,
      s.record=ackRecord e.1.1 e.1.2 e.2 ∧ s.item=ackItem e.1.1 e.1.2 e.2 := by
    intro e he
    have hl:=(mem_otherAcks.mp he).1
    have hvalid : validateRecord (ackRecord e.1.1 e.1.2 e.2) true=.ok () :=
      validate_ack.mpr ⟨hacks.seq_pos _ _ hl,hacks.endpoint _ _ hl,hacks.sender _ _ hl⟩
    exact ⟨ackStored e.1.1 e.1.2 e.2 hvalid (hacks.seq_le _ _ hl)
      (hfits _ (List.mem_map.mpr ⟨e,he,rfl⟩)),rfl,rfl⟩
  have hreceipts : ∀ r∈receipts.arrange w.receipts.iter, ∃ s : Stored env limits,
      s.record=r.record env ∧ s.item=receiptItem r := by
    intro r hr
    rw [(receipts.perm _).mem_iff] at hr
    obtain ⟨key,hl⟩:=ReceiptIndex.mem_iter.mp hr
    exact ⟨receiptStored hrecord r (hacks.receipts.genuine key r hl) (hacks.receipts.fits key r hl),rfl,rfl⟩
  obtain ⟨x,hxr,hxi⟩:=exists_stored hothers
  obtain ⟨rest,hrr,hri⟩:=exists_stored hreceipts
  obtain ⟨s,hsr,hsi⟩ : ∃ s : Stored env limits, s.record=ackRecord endpoint sender seq ∧
      s.item=ackItem endpoint sender seq := ⟨ackStored endpoint sender seq h.valid hseq h.fits,rfl,rfl⟩
  refine ⟨x,rest,s,hsr,hsi,hxr,hxi,hrr,hri,?_⟩
  have hreceiptBytes : ((rest.map Stored.record).map fun r => (env.encodeRecord r).length+8).sum =
      w.receipts.checkpointBytes := by
    rw [hrr]
    exact iter_data hacks.receipts receipts
  have hothersBytes : ((x.map Stored.record).map fun r => (env.encodeRecord r).length+8).sum =
      ((otherAcks acks w (endpoint,sender)).map fun r => (env.encodeRecord r).length+8).sum := by
    rw [hxr]
    rfl
  rw [data_length_eq,map_cons,map_cons,sum_cons,map_append,map_append,
    List.sum_append,hreceiptBytes,hothersBytes,hsum,recordFrame_length,hsr]
  omega

theorem receipt_item (r : Receipt) : (receiptItem r).mark=none ∧ (receiptItem r).message=none :=
  ⟨rfl,rfl⟩

theorem listing_next {base n max : ℕ} (hn : n+1 ≤ max) (hid : base+n≤u64Max) : listSegments (range' base n++[base+n])
    max=.ok (range' base (n+1)) ∧ (range' base (n+1)).filter (· < base+n)=range' base n := by
  have hconcat : range' base (n+1)=range' base n++[base+n] := by
    rw [List.range'_concat,Nat.one_mul]
  constructor
  · rw [← hconcat]
    exact listSegments_range hn (by omega)
  · rw [hconcat,List.filter_append,List.filter_eq_self.mpr]
    · simp
    · intro a ha
      simpa using (List.mem_range'_1.mp ha).2

theorem is_checkpoint
    (hw : Represents env limits w.toIndex (items L.log))
    (h : Raises env limits acks w endpoint sender seq watermarkBytes checkpointBytes)
    (hclears : w.clears (endpoint,sender) seq=true) {s : Stored env limits}
    {x rest : List (Stored env limits)} (hsi : s.item=ackItem endpoint sender seq)
    (hxi : x.map Stored.item=((acks.arrange (w.acked.entries.map fun e => (e.1,e.2))).filter
      fun e => e.1 != (endpoint,sender)).map (fun e => ackItem e.1.1 e.1.2 e.2))
    (hri : rest.map Stored.item=(receipts.arrange w.receipts.iter).map receiptItem) {w' : WalInner}
    (hvalue : w'.value=replay (items L.log++[ackItem endpoint sender seq])) :
    IsCheckpoint L w' (s::(x++rest)) := by
  have hackval:=ack_value hw h.above
  have hacked : w'.value.acked=Function.update (fun s => w.acked.lookup s) (endpoint,sender) (some seq) := by
    rw [hvalue,hackval]
  have hrecs : w'.value.receipts=fun key => w.receipts.entries.lookup key := by
    rw [hvalue,hackval]
  have hpending : w'.pending=[] := by
    have hp : w'.pending=(replay (items L.log++[ackItem endpoint sender seq])).pending :=
      congrArg Value.pending hvalue
    rw [hp,hackval,List.filter_eq_nil_iff]
    intro p hp
    have hall:=List.all_eq_true.mp hclears p hp
    rw [hall]
    decide
  have hkey : ∀ s', s'≠(endpoint,sender) → w'.value.acked s'=w.acked.lookup s' := by
    intro s' hs'
    rw [hacked,Function.update_of_ne hs']
  have hself : w'.value.acked (endpoint,sender)=some seq := by rw [hacked,Function.update_self]
  have hother : ∀ y∈x, ∃ s' n, y.item=ackItem s'.1 s'.2 n ∧ w'.value.acked s'=some n := by
    intro y hy
    have hmem : y.item∈x.map Stored.item := mem_map_of_mem hy
    rw [hxi] at hmem
    obtain ⟨e,he,heq⟩:=List.mem_map.mp hmem
    obtain ⟨hl,hne⟩:=mem_otherAcks.mp he
    exact ⟨e.1,e.2,heq.symm,by rw [hkey _ hne,hl]⟩
  have hreceipt : ∀ y∈rest, ∃ r, y.item=receiptItem r ∧ w'.value.receipts r.key=some r := by
    intro y hy
    have hmem : y.item∈rest.map Stored.item := mem_map_of_mem hy
    rw [hri] at hmem
    obtain ⟨r,hr,heq⟩:=List.mem_map.mp hmem
    rw [(receipts.perm _).mem_iff] at hr
    obtain ⟨key,hl⟩:=ReceiptIndex.mem_iter.mp hr
    have hk:=hw.ok.acks.receipts.keyed key r hl
    exact ⟨r,heq.symm,by rw [hrecs,hk]; exact hl⟩
  constructor
  · intro i hi
    have hold : (fun s => w.acked.lookup s)=(replay (items L.log)).acked := congrArg Value.acked hw.value
    have hrold : (fun key => w.receipts.entries.lookup key)=(replay (items L.log)).receipts :=
      congrArg Value.receipts hw.value
    have hval : w'.value=⟨w'.value.acked,[],(replay (items L.log)).receipts⟩ := by
      rw [← hrold,← hrecs,← hpending]
      rfl
    rw [hval]
    refine under_replay hi ?_ ?_ ?_
    · intro r hr
      rw [← hrold]
      exact hw.consistent i hi r hr
    · intro s' n hn
      rw [← hold] at hn
      by_cases hs' : s'=(endpoint,sender)
      · subst hs'
        exact ⟨seq,hself,(h.above n hn).le⟩
      · exact ⟨n,by rw [hkey s' hs']; exact hn,le_rfl⟩
    · intro p hp
      have hpend : w.pending=(replay (items L.log)).pending := congrArg Value.pending hw.value
      rw [← hpend] at hp
      have hall:=List.all_eq_true.mp hclears p hp
      simp only [Bool.and_eq_true,beq_iff_eq,decide_eq_true_eq] at hall
      unfold covered
      rw [hall.1,hself]
      simpa using hall.2
  · intro y hy
    have hunder : ∀ s' n, w'.value.acked s'=some n → Under w'.value (ackItem s'.1 s'.2 n) ∧
        (ackItem s'.1 s'.2 n).message=none := by
      intro s' n hn
      obtain ⟨hm,hmsg⟩:=ack_mark s'.1 s'.2 n
      refine ⟨⟨?_,?_,?_⟩,hmsg⟩
      · intro r hr
        rw [hm] at hr
        cases hr
        exact ⟨n,hn,le_rfl⟩
      · intro p hp
        rw [hmsg] at hp
        contradiction
      · intro r hr
        contradiction
    rcases List.mem_cons.mp hy with rfl | hy
    · rw [hsi]
      exact hunder (endpoint,sender) seq hself
    · rcases List.mem_append.mp hy with hy | hy
      · obtain ⟨s',n,heq,hn⟩:=hother y hy
        rw [heq]
        exact hunder s' n hn
      · obtain ⟨r,heq,hr⟩:=hreceipt y hy
        rw [heq]
        refine ⟨⟨?_,?_,?_⟩,rfl⟩
        · intro r' hr'
          rw [(receipt_item r).1] at hr'
          contradiction
        · intro p hp
          rw [(receipt_item r).2] at hp
          contradiction
        · intro r' hr'
          cases hr'
          exact hr
  · intro s' n hn
    by_cases hs' : s'=(endpoint,sender)
    · subst hs'
      rw [hself] at hn
      cases hn
      exact ⟨s,mem_cons_self ..,_,by rw [hsi]; exact (ack_mark ..).1,rfl,rfl⟩
    · rw [hkey s' hs'] at hn
      have hmem:=mem_map_of_mem (f := fun e : Stream × ℕ => ackItem e.1.1 e.1.2 e.2)
        (@mem_otherAcks acks w endpoint sender (s',n) |>.mpr ⟨hn,hs'⟩)
      rw [← hxi] at hmem
      obtain ⟨y,hy,heq⟩:=List.mem_map.mp hmem
      exact ⟨y,mem_cons_of_mem _ (List.mem_append_left _ hy),_,by rw [heq]; exact (ack_mark ..).1,rfl,rfl⟩
  · intro key r hr
    rw [hrecs] at hr
    have hk:=hw.ok.acks.receipts.keyed key r hr
    have hmem : r∈receipts.arrange w.receipts.iter := by
      rw [(receipts.perm _).mem_iff]
      exact ReceiptIndex.mem_iter.mpr ⟨key,hr⟩
    have hmem':=mem_map_of_mem (f := receiptItem) hmem
    rw [← hri] at hmem'
    obtain ⟨y,hy,heq⟩:=List.mem_map.mp hmem'
    exact ⟨y,mem_cons_of_mem _ (List.mem_append_right _ hy),by rw [heq]; rfl,hk⟩
  · exact ⟨s,x++rest,rfl,by rw [hsi]; exact hvalue.symm⟩
  · exact hpending

theorem checkpointPlan_eq (hw : Live w L)
    (hsegs : L.sealed.length+1+1≤limits.maxSegments) (hid : w.segId+1≤u64Max)
    (hnames : names=range' L.base (L.sealed.length+1)) {s : Stored env limits}
    {x rest : List (Stored env limits)} (hsr : s.record=ackRecord endpoint sender seq)
    (hxr : x.map Stored.record=otherAcks acks w (endpoint,sender))
    (hrr : rest.map Stored.record=(receipts.arrange w.receipts.iter).map (·.record env)) (size : ℕ) :
    checkpointPlan env limits names receipts w (endpoint,sender) seq watermarkBytes size
      (recordFrame env (ackRecord endpoint sender seq)) (otherAcks acks w (endpoint,sender)) =
    ⟨(Change.checkpoint (s::(x++rest))).program Stored.body checksum L,WalInner.acknowledged env {w with
        segId := w.segId+1,segBytes := size,diskBytes := size,segments := 1}
        (endpoint,sender) seq watermarkBytes,.ok ()⟩ := by
  have hfits : ∀ r∈otherAcks acks w (endpoint,sender)++(receipts.arrange w.receipts.iter).map (·.record env),
      (env.encodeRecord r).length≤limits.maxRecordBytes := by
    intro r hr
    rw [← hxr,← hrr,← map_append] at hr
    obtain ⟨s,-,rfl⟩:=List.mem_map.mp hr
    exact s.fits
  have hnext : w.segId+1=L.base+(L.sealed.length+1) := by
    rw [hw.segId,Layout.segId,Nat.add_assoc]
  have hlist:=@listing_next L.base (L.sealed.length+1) limits.maxSegments hsegs (by omega)
  rw [← hnext] at hlist
  have hframes : (recordFrame env (ackRecord endpoint sender seq)::
      (otherAcks acks w (endpoint,sender)++
        (receipts.arrange w.receipts.iter).map (·.record env)).map (recordFrame env)).map
        (Effect.write (w.segId+1)) =
      (s::(x++rest)).map fun r => Effect.write (L.segId+1) (Frames.frame checksum r.body) := by
    rw [← hxr,← hrr,← map_append,map_map,map_cons,map_cons,map_map,← hsr,hw.segId]
    rfl
  rw [checkpointPlan,encodeUntil_all hfits]
  dsimp only
  rw [hnames,hlist.1]
  dsimp only
  rw [hlist.2,hframes]
  simp only [Change.program,hw.segId,List.cons_append,List.append_assoc,List.nil_append]

theorem ack_clear (hlimits : limits.validate segmentMax=.ok ())
    (hw : Live w L) (hseq : seq≤u64Max)
    (h : Raises env limits acks w endpoint sender seq watermarkBytes checkpointBytes)
    (hclears : w.clears (endpoint,sender) seq=true)
    (hnames : names=range' L.base (L.sealed.length+1)) {plan : Plan Unit}
    (hplan : plan=checkpointPlan env limits names receipts w (endpoint,sender) seq watermarkBytes
      ((recordFrame env (ackRecord endpoint sender seq)).length+checkpointBytes)
      (recordFrame env (ackRecord endpoint sender seq)) (otherAcks acks w (endpoint,sender))) :
    ∃ rs, plan.effects=(Change.checkpoint rs).program Stored.body checksum L ∧ plan.result=.ok () ∧
      Live plan.wal ((Change.checkpoint rs).after L) ∧ IsCheckpoint L plan.wal rs ∧
      plan.wal.value=replay (items L.log++[ackItem endpoint sender seq]) ∧
      w.diskBytes+(data Stored.body checksum rs).length≤limits.maxDiskBytes ∧
      w.segments+1≤limits.maxSegments := by
  obtain ⟨hrecord,-,-,hsegpos,-⟩:=validate_limits hlimits
  obtain ⟨x,rest,s,hsr,hsi,hxr,hxi,hrr,hri,hbytes⟩ :=
    checkpoint_stored hrecord hw.represents hseq h hclears receipts
  obtain ⟨hsegId,hsegs⟩:=h.segment hclears
  have hle:=hw.segId_le
  have hle':=hw.segments_le
  have hsegments:=hw.segments
  rw [checkpointPlan_eq hw (by omega) (by omega) hnames hsr hxr hrr] at hplan
  have hrep : Represents env limits plan.wal.toIndex (items L.log++[ackItem endpoint sender seq]) := by
    rw [hplan]
    exact ack_represents hw.represents hseq h rfl
  have hcheck:=is_checkpoint hw.represents h hclears hsi hxi hri hrep.value
  have hitems : items (Change.after L (.checkpoint (s::(x++rest)))).log=[]++(s::(x++rest)).map Stored.item := by
    simp [Change.after,Layout.log,items]
  refine ⟨s::(x++rest),by rw [hplan],by rw [hplan],?_,hcheck,hrep.value,by rw [hbytes]; exact h.disk,by omega⟩
  refine ⟨⟨hrep.ok,?_,?_⟩,?_,?_,?_,?_,?_,?_,?_,?_⟩
  · rw [hitems,hcheck.replay_eq (by simp)]
  · rw [hitems]
    intro i hi r hr
    obtain ⟨y,hy,rfl⟩:=List.mem_map.mp hi
    exact (hcheck.new y hy).1.receipt r hr
  · rw [hplan]
    change w.segId+1=L.segId+1+0
    rw [hw.segId]
  · rw [hplan]
    exact hbytes.symm
  · rw [hplan]
    change _=size Stored.body checksum ([]++[s::(x++rest)])
    rw [List.nil_append,size_singleton]
    exact hbytes.symm
  · rw [hplan]
    rfl
  · rw [hplan]
    exact hw.healthy
  · have hdisk:=h.disk
    rw [hplan]
    change (recordFrame env (ackRecord endpoint sender seq)).length+checkpointBytes≤_
    omega
  · rw [hplan]
    exact hsegpos
  · rw [hplan]
    change w.segId+1≤u64Max
    omega

end env
end Parrot.Wal
