import Parrot.Lib.SegmentRun
import Parrot.Wal.Replay
import Parrot.Wal.Standard

/-! # Segments of records

`open` reads the disk back: what the scanners collect from the files of a log is
what recovery computes from its records, and the repair removes what is torn. -/

namespace Parrot.Wal
open List (nil_append length_append map_cons map_nil append_nil range' range'_succ map_map)
open Machine
open Bincode (Bytes)
open CrashFs (Disk Effect File)
open SegmentLog

structure Stored (env : WalEnv) (limits : WalLimits) where
  record : WalRecord
  item : Item
  fits : (env.encodeRecord record).length≤limits.maxRecordBytes
  seq_le : record.seq≤u64Max
  valid : validateRecord record true=.ok ()
  means : readItem env record=.ok item
  sound : item.Sound

section env
variable {env : WalEnv} {limits : WalLimits} {segmentMax : ℕ}

def Stored.body (s : Stored env limits) : Bytes := env.encodeRecord s.record

def items (log : List (List (Stored env limits))) : List Item := log.flatten.map Stored.item

theorem items_sound {log : List (List (Stored env limits))} {i : Item} (h : i∈items log) : i.Sound := by
  obtain ⟨s,-,rfl⟩:=List.mem_map.mp h
  exact s.sound

theorem validate_limits (h : limits.validate segmentMax=.ok ()) : limits.maxRecordBytes≤wireLimit ∧
    limits.maxDiskBytes ≤ isizeMax ∧ 0<segmentMax ∧ 0<limits.maxSegments ∧ 0<limits.maxStreams := by
  unfold WalLimits.validate at h
  split at h
  · contradiction
  · rename_i hbad
    push Not at hbad
    omega

/-- What `encode_record` takes and the scanner checks. -/
def Storable (env : WalEnv) (limits : WalLimits) (r : WalRecord) : Prop :=
  (env.encodeRecord r).length≤limits.maxRecordBytes ∧ r.seq≤u64Max ∧ validateRecord r true=.ok ()

theorem Storable.valid {r : WalRecord} (hrecord : limits.maxRecordBytes≤wireLimit) (h : Storable env limits r) :
    Frames.Valid checksum limits.maxRecordBytes (env.encodeRecord r) := by
  constructor
  · exact env.record_pos _
  · exact h.1
  · refine (h.1.trans hrecord).trans_lt ?_
    decide
  · exact checksum_lt _

theorem stored_valid (hrecord : limits.maxRecordBytes≤wireLimit) (s : Stored env limits) :
    Frames.Valid checksum limits.maxRecordBytes s.body :=
  Storable.valid (r := s.record) hrecord ⟨s.fits,s.seq_le,s.valid⟩

section scan
variable {σ : Type} {visit : σ → Item → Except String σ}

theorem scan_records (hrecord : limits.maxRecordBytes≤wireLimit) {tail : Bool} {t : Bytes}
    (ht : Frames.Torn checksum limits.maxRecordBytes t) {visit : σ → WalRecord → Except String σ}
    {rs : List WalRecord} (hrs : ∀ r∈rs, Storable env limits r) {fuel : ℕ}
    (hfuel : (Frames.frames checksum (rs.map env.encodeRecord)++t).length≤fuel) (position : ℕ) (st : σ) :
    scan env limits tail visit fuel position (Frames.frames checksum (rs.map env.encodeRecord)++t) st =
      rs.foldlM visit st >>= fun st =>
        let good:=position+(Frames.frames checksum (rs.map env.encodeRecord)).length
        if t=[] ∨ tail=true then .ok (st,good) else .error s!"wal corruption in sealed segment at {good}" := by
  induction rs generalizing fuel position st with
  | nil =>
    cases fuel with
    | zero =>
      rw [length_append] at hfuel
      have hnil : t=[] := List.length_eq_zero_iff.mp (by omega)
      rw [hnil]
      rfl
    | succ fuel =>
      rw [map_nil,Frames.frames_nil,nil_append]
      unfold scan
      by_cases hnil : t=[]
      · subst hnil
        rfl
      · rw [Frames.head_torn ht hnil]
        cases tail <;> simp [hnil,bind,Except.bind,pure,Except.pure]
  | cons r rs ih =>
    have hlen : (Frames.frames checksum ((r::rs).map env.encodeRecord)).length =
        8+(env.encodeRecord r).length+(Frames.frames checksum (rs.map env.encodeRecord)).length := by
      rw [map_cons,Frames.frames_cons,length_append,Frames.frame_length]
    obtain ⟨hr,hrs⟩:=List.forall_mem_cons.mp hrs
    cases fuel with
    | zero =>
      rw [length_append,hlen] at hfuel
      omega
    | succ fuel =>
      have hrest : (Frames.frames checksum (rs.map env.encodeRecord)++t).length≤fuel := by
        rw [length_append,hlen] at hfuel
        rw [length_append]
        omega
      rw [map_cons,Frames.frames_cons,List.append_assoc]
      unfold scan
      rw [Frames.head_frame (hr.valid hrecord)]
      dsimp only
      rw [env.decode_record r hr.2.1 (hr.1.trans hrecord)]
      simp only [hr.2.2,bind,Except.bind,List.foldlM_cons]
      cases hv : visit st r with
      | error e => rfl
      | ok st' =>
        dsimp only
        rw [ih hrs hrest]
        simp only [bind,Except.bind,length_append,Frames.frame_length,Nat.add_assoc]

theorem fold_items (seg : List (Stored env limits)) (st : σ) :
    (seg.map Stored.record).foldlM (visitItem env visit) st=(seg.map Stored.item).foldlM visit st := by
  induction seg generalizing st with
  | nil => rfl
  | cons s seg ih =>
    simp only [map_cons,List.foldlM_cons,visitItem,s.means,bind,Except.bind]
    cases hv : visit st s.item with
    | error e => rfl
    | ok st' => exact ih st'

theorem scan_data (hrecord : limits.maxRecordBytes≤wireLimit) {tail : Bool} {t : Bytes}
    (ht : Frames.Torn checksum limits.maxRecordBytes t) (htail : t=[] ∨ tail=true) (seg : List (Stored env limits))
    {fuel : ℕ} (hfuel : (data Stored.body checksum seg++t).length≤fuel) (position : ℕ) (st : σ) :
    scan env limits tail (visitItem env visit) fuel position (data Stored.body checksum seg++t) st =
    (seg.map Stored.item).foldlM visit st >>= fun st => .ok (st,position+(data Stored.body checksum seg).length) := by
  have hdata : data Stored.body checksum seg=Frames.frames checksum ((seg.map Stored.record).map env.encodeRecord) := by
    rw [map_map]
    rfl
  have hrs : ∀ r∈seg.map Stored.record, Storable env limits r := by
    intro r hr
    obtain ⟨s,-,rfl⟩:=List.mem_map.mp hr
    exact ⟨s.fits,s.seq_le,s.valid⟩
  rw [hdata] at hfuel ⊢
  rw [scan_records hrecord ht hrs hfuel,fold_items]
  simp only [if_pos htail]

theorem scanSegment_data (hrecord : limits.maxRecordBytes≤wireLimit) {tail : Bool} {t : Bytes}
    (ht : Frames.Torn checksum limits.maxRecordBytes t) (htail : t=[] ∨ tail=true) {seg : List (Stored env limits)}
    (hsize : (data Stored.body checksum seg++t).length≤limits.maxDiskBytes) (st : σ) :
    scanSegment env limits tail (visitItem env visit) (data Stored.body checksum seg++t) st =
    (seg.map Stored.item).foldlM visit st >>= fun st => .ok (st,(data Stored.body checksum seg).length) := by
  unfold scanSegment
  rw [if_neg (by omega),scan_data hrecord ht htail seg (le_rfl),Nat.zero_add]

def contents (L : Layout (Stored env limits)) (t : Bytes) : List (ℕ × Bytes) :=
  (under Stored.body checksum L.base L.sealed
    ⟨data Stored.body checksum (L.active.take L.synced)++t,data Stored.body checksum L.active++t⟩).map
    fun x => (x.1,x.2.data)

theorem contents_cons (base : ℕ) (seg : List (Stored env limits)) (segs : List (List (Stored env limits)))
    (active : List (Stored env limits)) (synced : ℕ) (t : Bytes) : contents ⟨base,seg::segs,active,synced⟩ t =
    (base,data Stored.body checksum seg)::contents ⟨base+1,segs,active,synced⟩ t := by
  simp only [contents,under,sealedFiles,List.cons_append,map_cons,List.length_cons,
    settled,Nat.add_assoc,Nat.add_comm 1]

theorem scanAll_contents (hrecord : limits.maxRecordBytes≤wireLimit) {t : Bytes}
    (ht : Frames.Torn checksum limits.maxRecordBytes t) (L : Layout (Stored env limits))
    (hsize : size Stored.body checksum L.log+t.length≤limits.maxDiskBytes) (st : σ) :
    scanAll env limits (visitItem env visit) (some L.segId) (contents L t) st none =
      (items L.log).foldlM visit st >>= fun st => .ok (st,
        if t=[] then none else some ⟨L.segId,(data Stored.body checksum L.active).length,
          (data Stored.body checksum L.active++t).length⟩) := by
  obtain ⟨base,segs,active,synced⟩:=L
  simp only [Layout.segId,Layout.log] at hsize ⊢
  induction segs generalizing base st with
  | nil =>
    rw [nil_append,size_singleton] at hsize
    simp only [contents,under,sealedFiles,nil_append,map_cons,map_nil,scanAll,
      List.length_nil,Nat.add_zero,items,List.flatten_cons,List.flatten_nil,append_nil]
    rw [scanSegment_data hrecord ht (.inr (by simp)) (by rw [length_append]; exact hsize)]
    cases hf : (active.map Stored.item).foldlM visit st with
    | error e => rfl
    | ok st' =>
      simp only [bind,Except.bind]
      by_cases hnil : t=[]
      · simp [hnil]
      · have hpos:=List.length_pos_iff.mpr hnil
        rw [if_pos (by rw [length_append]; omega),if_neg hnil]
  | cons seg segs ih =>
    have hsplit : size Stored.body checksum (seg::segs++[active]) =
        (data Stored.body checksum seg).length+size Stored.body checksum (segs++[active]) := by
      simp [size]
    rw [hsplit] at hsize
    have hlast : base+(seg::segs).length=base+1+segs.length := by
      rw [List.length_cons]
      omega
    rw [contents_cons,hlast]
    simp only [scanAll]
    have hseg : scanSegment env limits (some base==some (base+1+segs.length)) (visitItem env visit)
        (data Stored.body checksum seg++[]) st=_ :=
      scanSegment_data hrecord (.inl rfl) (.inl rfl) (by rw [append_nil]; omega) st
    rw [append_nil] at hseg
    rw [hseg]
    have hitems : items (seg::segs++[active])=seg.map Stored.item++items (segs++[active]) := by
      simp [items]
    rw [hitems,List.foldlM_append]
    cases hf : (seg.map Stored.item).foldlM visit st with
    | error e => rfl
    | ok st' =>
      simp only [bind,Except.bind]
      rw [if_neg (by simp)]
      exact ih st' (base+1) (by omega)

/-- The kinds of records that are written: business, keyed submission, receipt, marker, and a
record wrapped with its causal parent. -/
inductive Written (env : WalEnv) : WalRecord → Prop where
  | plain {r} : validateRecord r false=.ok () → Written env r
  | keyed {r id stored receipt} : submissionWrap env r id=.ok (stored,receipt) → Written env stored
  | receipt {r : Receipt} : r.seq≠0 → r.endpoint.isEmpty=false → r.sender.isEmpty=false → Written env (r.record env)
  | marker {endpoint sender seq} : seq≠0 → endpoint.isEmpty=false → sender.isEmpty=false →
      Written env (ackRecord endpoint sender seq)
  | causal {r parent stored} : Written env r → causalWrap r parent=.ok stored → Written env stored

theorem validate_keyed {r : WalRecord} {key : String} {payload : Bytes} (h : validateRecord r true=.ok ())
    (hkey : key.isEmpty=false) (hack : key ≠ "#ack") :
    validateRecord {r with typeKey:=key,payload:=payload} true=.ok () := by
  unfold validateRecord at h
  obtain ⟨hcond,-⟩:=Except.of_ite_left h
  unfold validateRecord
  rw [if_neg]
  simp_all

theorem Written.valid {r : WalRecord} (h : Written env r) : validateRecord r true=.ok () := by
  induction h with
  | @plain r hr => exact validate_stored hr (validate_business hr).2.2.2.1 (validate_business hr).2.2.2.2.2.2 r.payload
  | keyed hwrap =>
    obtain ⟨-,hr,-,rfl⟩:=submissionWrap_ok hwrap
    exact validate_stored hr (by decide) (by decide) _
  | receipt hseq he hs => simp [validateRecord,Receipt.record,hseq,he,hs,receiptKey]
  | marker hseq he hs => simp [validateRecord,ackRecord,hseq,he,hs]
  | causal hr hwrap ih =>
    obtain ⟨-,-,⟨-,rfl⟩ | ⟨payload,rfl⟩⟩:=causalWrap_fields hwrap
    · exact ih
    · exact validate_keyed ih (by decide) (by decide)

theorem encodeFrame_iff {r : WalRecord} {frame : Bytes} : encodeFrame env limits r=.ok frame ↔
    (env.encodeRecord r).length≤limits.maxRecordBytes ∧ frame=recordFrame env r := by
  unfold encodeFrame encodedSize
  split
  · refine ⟨fun h => by contradiction,fun h => ?_⟩
    omega
  · rename_i hfit
    refine ⟨fun h => ?_,fun h => by rw [h.2]; rfl⟩
    cases h
    exact ⟨by omega,rfl⟩

theorem scan_cut (hlimits : limits.validate segmentMax=.ok ()) {rs : List WalRecord} {written : List Bytes}
    (hrs : ∀ r∈rs, Written env r ∧ r.seq≤u64Max)
    (hframes : List.Forall₂ (fun r frame => encodeFrame env limits r=.ok frame) rs written) {n : ℕ}
    (hdisk : (written.flatten.take n).length≤limits.maxDiskBytes) {visit : σ → WalRecord → Except String σ} (st : σ) :
    (∃ k ≤ rs.length, (∀ m ≤ rs.length, (written.take m).flatten.length≤n ↔ m≤k) ∧
      scanSegment env limits true visit (written.flatten.take n) st =
        (rs.take k).foldlM visit st >>= (fun st => .ok (st,(written.take k).flatten.length)) ∧
      if (written.flatten.take n).length=(written.take k).flatten.length then
        scanSegment env limits false visit (written.flatten.take n) st =
          (rs.take k).foldlM visit st >>= fun st => .ok (st,(written.take k).flatten.length)
      else ∀ x, scanSegment env limits false visit (written.flatten.take n) st≠.ok x) ∧
    (∀ {r stored parent}, causalWrap r (some parent)=.ok stored → causalRead stored=.ok (r,some parent)) ∧
    ∀ {r id stored receipt}, submissionWrap env r id=.ok (stored,receipt) → stored.payload.length≤wireLimit →
      submissionRead env stored=.ok (some r,some receipt) := by
  refine ⟨?_,fun h => causalRead_wrap ?_ h,submissionRead_wrap⟩
  · have hrecord:=(validate_limits hlimits).1
    obtain ⟨hwritten,hfits⟩ : written=(rs.map env.encodeRecord).map (Frames.frame checksum) ∧
        ∀ r∈rs, (env.encodeRecord r).length≤limits.maxRecordBytes := by
      clear hrs hdisk
      induction hframes with
      | nil => exact ⟨rfl,fun r hr => by contradiction⟩
      | cons h _ ih =>
        obtain ⟨hfit,rfl⟩:=encodeFrame_iff.mp h
        rw [map_cons,map_cons,← ih.1]
        exact ⟨rfl,List.forall_mem_cons.mpr ⟨hfit,ih.2⟩⟩
    have hstorable (r : WalRecord) (hr : r∈rs) : Storable env limits r :=
      ⟨hfits r hr,(hrs r hr).2,(hrs r hr).1.valid⟩
    have hbodies : ∀ b∈rs.map env.encodeRecord, Frames.Valid checksum limits.maxRecordBytes b := by
      intro b hb
      obtain ⟨r,hr,rfl⟩:=List.mem_map.mp hb
      exact (hstorable r hr).valid hrecord
    obtain ⟨k,t,hk,ht,hcut,hmax⟩:=Frames.take_frames (rs.map env.encodeRecord) hbodies n
    have htake (m : ℕ) : (written.take m).flatten=Frames.frames checksum ((rs.take m).map env.encodeRecord) := by
      rw [hwritten,Frames.frames,List.map_take,List.map_take]
    have hcut' : written.flatten.take n=Frames.frames checksum ((rs.take k).map env.encodeRecord)++t := by
      rw [hwritten,List.map_take]
      exact hcut
    have hscan (tail : Bool) : scanSegment env limits tail visit (written.flatten.take n) st =
        scan env limits tail visit (written.flatten.take n).length 0 (written.flatten.take n) st :=
      if_neg (Nat.not_lt.mpr hdisk)
    have hkept (r : WalRecord) (hr : r∈rs.take k) : Storable env limits r := hstorable r (List.mem_of_mem_take hr)
    rw [List.length_map] at hk
    refine ⟨k,hk,fun m hm => ⟨fun hlen => ?_,fun hmk => ?_⟩,?_,?_⟩
    · rw [htake,List.map_take] at hlen
      exact hmax m (by rwa [List.length_map]) hlen
    · have hlen:=congrArg List.length hcut
      rw [length_append,List.length_take,← List.map_take] at hlen
      have hmono:=@Frames.frames_take_mono checksum (rs.map env.encodeRecord) _ _ hmk
      rw [← List.map_take,← List.map_take] at hmono
      rw [htake]
      omega
    · rw [hscan,hcut',htake,scan_records hrecord ht hkept (le_rfl)]
      simp only [or_true,if_true,Nat.zero_add]
    · rw [hscan,hcut',htake,scan_records hrecord ht hkept (le_rfl),length_append]
      split
      · rename_i hlen
        have hnil : t=[] := List.length_eq_zero_iff.mp (by omega)
        simp only [hnil,true_or,if_true,Nat.zero_add]
      · rename_i hlen
        have hne : t≠[] := by
          rintro rfl
          exact hlen rfl
        intro x hx
        obtain ⟨st',-,hx⟩:=bind_eq_ok.mp hx
        simp [hne] at hx
  · unfold causalWrap at h
    obtain ⟨_,hinner,-⟩:=bind_eq_ok.mp h
    obtain ⟨hcond,-⟩:=Except.of_ite_left hinner
    push Not at hcond
    exact Bool.eq_false_iff.mpr hcond.2.1

def narrow (disk : ℕ) : WalLimits := ⟨64,disk,1,1,1,1,1,1,1⟩

def lone : WalRecord := ackRecord "node" "out" 1

def collect (st : List WalRecord) (r : WalRecord) : Except String (List WalRecord) := .ok (st++[r])

theorem scan_cut_lone : ∃ k≤1, scanSegment WalEnv.standard (narrow 99) true collect
    ([recordFrame WalEnv.standard lone].flatten.take 9) [] =
      ([lone].take k).foldlM collect [] >>= fun st => .ok (st,([recordFrame WalEnv.standard lone].take k).flatten.length) := by
  have hwritten : ∀ r∈[lone], Written WalEnv.standard r ∧ r.seq≤u64Max := by
    simpa using ⟨.marker (by decide) (by decide) (by decide),by decide⟩
  obtain ⟨⟨k,hk,-,hscan,-⟩,-⟩:=@scan_cut _ (narrow 99) 1 _ (by rfl) _ _ hwritten
    (.cons (encodeFrame_iff.mpr ⟨by decide,rfl⟩) .nil) 9 ((List.length_take_le ..).trans (by decide)) collect []
  exact ⟨k,hk,hscan⟩

theorem acceptance_over {a a' : Acceptance} (hover : wireLimit<a.payload.length) :
    WalEnv.standard.decodeAcceptance (WalEnv.standard.encodeAcceptance a)≠.ok a' := fun h => by
  have hread : ¬(acceptanceCodec.encode a).length>wireLimit := (Except.of_ite_left h).1
  have hcontent:=acceptance_content_le a
  omega

/-- A file over the disk budget is refused, and so is an acceptance over the wire limit. -/
theorem scan_cut_budget :
    ((narrow 1).validate 1=.ok () ∧ Written WalEnv.standard lone ∧
      encodeFrame WalEnv.standard (narrow 1) lone=.ok (recordFrame WalEnv.standard lone) ∧
      ∀ tail, scanSegment WalEnv.standard (narrow 1) tail collect (recordFrame WalEnv.standard lone) [] =
        .error "wal disk byte budget exceeded") ∧
    ∃ r id stored receipt, submissionWrap WalEnv.standard r id=.ok (stored,receipt) ∧
      submissionRead WalEnv.standard stored≠.ok (some r,some receipt) := by
  refine ⟨⟨by rfl,.marker (by decide) (by decide) (by decide),encodeFrame_iff.mpr ⟨by decide,rfl⟩,fun _ => if_pos ?_⟩,
    ⟨"node","out",1,"/user/a","key",List.replicate (wireLimit+1) 0⟩,"id",_,_,rfl,fun h => ?_⟩
  · rw [recordFrame,Frames.frame_length]
    exact Nat.lt_add_right _ (by decide)
  · obtain ⟨a,ha,-⟩:=bind_eq_ok.mp ((if_pos rfl).symm.trans h)
    exact acceptance_over (by rw [List.length_replicate]; exact Nat.lt_succ_self _) ha

end scan

theorem listSegments_range {base n max : ℕ} (hn : n ≤ max) (hid : base+n≤u64Max+1) :
    listSegments (range' base n) max=.ok (range' base n) := by
  have hsort : (range' base n).insertionSort (·≤·)=range' base n := by
    refine List.Pairwise.insertionSort_eq ?_
    exact (List.pairwise_lt_range' (s := base) (n := n)).imp Nat.le_of_lt
  have hchain : (range' base n).IsChain fun a b => checkedAdd a 1=some b := by
    clear hsort hn
    induction n generalizing base with
    | zero => exact List.IsChain.nil
    | succ n ih =>
      cases n with
      | zero => exact List.IsChain.singleton _
      | succ n =>
        rw [range'_succ,range'_succ]
        refine List.IsChain.cons_cons ?_ ?_
        · exact checkedAdd_eq_some.mpr ⟨rfl,by omega⟩
        · rw [← range'_succ]
          exact ih (by omega)
  unfold listSegments
  rw [if_neg (by rw [List.length_range']; omega)]
  dsimp only
  rw [hsort,if_pos hchain]

theorem sumSizes_total {files : List (ℕ × Bytes)} {total : ℕ}
    (h : total+(files.map fun x => x.2.length).sum≤limits.maxDiskBytes) :
    sumSizes limits files total=.ok (total+(files.map fun x => x.2.length).sum) := by
  induction files generalizing total with
  | nil => rfl
  | cons x files ih =>
    simp only [map_cons,List.sum_cons] at h ⊢
    unfold sumSizes
    rw [if_pos (by omega),ih (by omega),Nat.add_assoc]

theorem contents_sizes (L : Layout (Stored env limits)) (t : Bytes) :
    ((contents L t).map fun x => x.2.length).sum=size Stored.body checksum L.log+t.length := by
  have hbytes:=@bytes_under (Stored env limits) Stored.body checksum L.base L.sealed
    ⟨data Stored.body checksum (L.active.take L.synced)++t,data Stored.body checksum L.active++t⟩
  rw [bytes] at hbytes
  rw [contents,map_map,size_log,Nat.add_assoc,← length_append]
  exact hbytes

variable {d : Disk ℕ} {L : Layout (Stored env limits)} {t : Bytes}

section
variable (h : Rests Stored.body checksum d L t)
include h

theorem rests_names : d.dir.map Prod.fst=range' L.base (L.sealed.length+1) := by
  have hcur:=Disk.dir_eq_current d
  rw [h.history] at hcur
  have hnames:=congrArg (List.map Prod.fst) hcur
  rw [map_map] at hnames
  exact hnames.symm.trans (under_names ..)

theorem rests_read {x : ℕ × Bytes} (hx : x∈contents L t) : d.read x.1=some x.2 := by
  obtain ⟨y,hy,rfl⟩:=List.mem_map.mp hx
  refine Disk.read_current h.named ?_
  rw [h.history]
  exact hy

theorem readSegments_contents : readSegments d (range' L.base (L.sealed.length+1))=.ok (contents L t) := by
  have hnames : range' L.base (L.sealed.length+1)=(contents L t).map Prod.fst := by
    rw [contents,map_map]
    exact (under_names ..).symm
  have hread : ∀ files : List (ℕ × Bytes), (∀ x∈files, d.read x.1=some x.2) →
      readSegments d (files.map Prod.fst)=.ok files := by
    intro files hfiles
    induction files with
    | nil => rfl
    | cons x files ih =>
      have hx:=hfiles x (List.mem_cons_self ..)
      have hrest:=ih fun y hy => hfiles y (List.mem_cons_of_mem _ hy)
      unfold readSegments at hrest ⊢
      rw [map_cons,List.mapM_cons,hx,hrest]
      rfl
  rw [hnames]
  exact hread _ fun x hx => rests_read h hx

end

def opened (x : Index) (L : Layout (Stored env limits)) : WalInner where
  toIndex := x
  segId := L.segId
  segBytes := (data Stored.body checksum L.active).length
  diskBytes := size Stored.body checksum L.log
  segments := L.sealed.length+1
  failed := false

section
variable (hlimits : limits.validate segmentMax=.ok ())
include hlimits

theorem open_rests (h : Rests Stored.body checksum d L t) (ht : Frames.Torn checksum limits.maxRecordBytes t)
    (hsize : size Stored.body checksum L.log+t.length≤limits.maxDiskBytes)
    (hsegs : L.sealed.length+1≤limits.maxSegments) (hid : L.segId<u64Max) {x : Index}
    (hrec : recover env limits (items L.log)=.ok x) : openWithLimits env limits segmentMax d =
    .ok ⟨repair Stored.body checksum L t,opened x L,.ok ()⟩ := by
  obtain ⟨hrecord,-⟩:=validate_limits hlimits
  have hid' : L.base+L.sealed.length<u64Max := hid
  have hlast : (range' L.base (L.sealed.length+1)).getLast? = some L.segId := by
    rw [List.range'_concat,List.getLast?_append]
    simp [Layout.segId]
  have hempty : (range' L.base (L.sealed.length+1)).isEmpty=false := by
    rw [range'_succ]
    rfl
  have hread : d.read L.segId=some (data Stored.body checksum L.active++t) := by
    refine rests_read h (x := (L.segId,_)) ?_
    exact List.mem_map.mpr ⟨_,List.mem_append_right _ (List.mem_singleton_self _),rfl⟩
  have hadd : checkedAdd L.segId 1=some (L.segId+1) := if_pos (by omega)
  unfold recover at hrec
  cases ha : (items L.log).foldlM (Acks.visit env limits) ⟨∅,0,.empty⟩ with
  | error e => simp [ha,bind,Except.bind] at hrec
  | ok acks =>
    simp only [ha,bind,Except.bind] at hrec
    cases hp : (items L.log).foldlM (Pending.visit env limits acks.acked) ⟨[],0⟩ with
    | error e => simp [hp] at hrec
    | ok pending =>
      simp only [hp] at hrec
      cases hrec
      unfold openWithLimits
      rw [hlimits,rests_names h,listSegments_range hsegs (by omega)]
      simp only [bind,Except.bind]
      rw [readSegments_contents h]
      simp only []
      rw [sumSizes_total (by rw [contents_sizes]; omega),contents_sizes,hlast]
      simp only [Option.getD_some]
      rw [hadd]
      simp only []
      rw [scanAll_contents hrecord ht L hsize,ha]
      simp only [bind,Except.bind]
      rw [scanAll_contents hrecord ht L hsize,hp]
      simp only [bind,Except.bind,pure,Except.pure,hempty,hread,opened,repair]
      by_cases hnil : t=[]
      · simp [hnil]
      · simp [hnil]

theorem open_exhausted (h : Rests Stored.body checksum d L t)
    (hsize : size Stored.body checksum L.log+t.length≤limits.maxDiskBytes)
    (hsegs : L.sealed.length+1≤limits.maxSegments) (hid : L.segId=u64Max) :
    openWithLimits env limits segmentMax d=.error "wal segment id exhausted" := by
  have hid' : L.base+L.sealed.length=u64Max := hid
  have hlast : (range' L.base (L.sealed.length+1)).getLast? = some L.segId := by
    rw [List.range'_concat,List.getLast?_append]
    simp [Layout.segId]
  have hadd : checkedAdd L.segId 1=none := if_neg (by omega)
  unfold openWithLimits
  rw [hlimits,rests_names h,listSegments_range hsegs (by omega)]
  simp only [bind,Except.bind]
  rw [readSegments_contents h]
  simp only []
  rw [sumSizes_total (by rw [contents_sizes]; omega),contents_sizes,hlast]
  simp only [Option.getD_some]
  rw [hadd]

theorem open_fresh (h : Fresh d) : openWithLimits env limits segmentMax
    d = .ok ⟨start,opened ⟨∅,0,[],0,.empty⟩ (first : Layout (Stored env limits)),.ok ()⟩ := by
  have hcur:=Disk.dir_eq_current d
  rw [h.2] at hcur
  have hdir : d.dir=[] := List.map_eq_nil_iff.mp hcur.symm
  have hread : d.read 1=none := by simp [Disk.read,Disk.file,hdir]
  have hsegs:=validate_limits hlimits
  have hlist : listSegments [] limits.maxSegments=.ok [] := @listSegments_range 1 0 _ (Nat.zero_le _) (by decide)
  unfold openWithLimits
  rw [hlimits,hdir]
  simp only [bind,Except.bind,map_nil,hlist,readSegments,List.mapM_nil,pure,Except.pure,sumSizes,
    List.getLast?_nil,Option.getD_none]
  rw [show checkedAdd 1 1=some 2 by decide]
  simp only [scanAll,hread]
  rfl

end

end env
end Parrot.Wal
