import Parrot.Wal.Acks

/-! # A log and its disk

What holds of the disk while a log is in use, after it was closed and after a
crash, and how operations, crashes and reopening lead from one to the other. -/

namespace Parrot.Wal
open List (length_append length_singleton take_length length_nil)
open Machine
open Bincode (Bytes)
open CrashFs (Disk Effect File)
open SegmentLog

inductive WalOp where
  | append (r : WalRecord) (id : Option String) (parent : Option TraceParent)
  | ack (endpoint sender : String) (seq : ℕ) (acks : Order (Stream × ℕ)) (receipts : Order Receipt)
  | sync

def WalOp.InRange : WalOp → Prop
  | .append r _ _ => r.seq≤u64Max
  | .ack _ _ seq _ _ => seq≤u64Max
  | .sync => True

def WalOp.Clears (w : WalInner) : WalOp → Prop
  | .ack endpoint sender seq _ _ => w.clears (endpoint,sender) seq=true
  | _ => False

section env
variable (env : WalEnv) (limits : WalLimits) (segmentMax : ℕ)

/-- The file operations of a call and the state after them; a refused call does
nothing. -/
def taken {α : Type} (w : WalInner) : Except String (Plan α) → List (Effect ℕ) × WalInner
  | .ok plan => (plan.effects,plan.wal)
  | .error _ => ([],w)

def WalOp.plan (d : Disk ℕ) (w : WalInner) : WalOp → List (Effect ℕ) × WalInner
  | .append r id parent => taken w (appendSubmissionWithParent env limits segmentMax w r id parent)
  | .ack endpoint sender seq acks receipts =>
    taken w (Wal.ack env limits (d.dir.map Prod.fst) acks receipts w endpoint sender seq)
  | .sync => taken w w.sync

/-- The active segment has bytes that no sync has covered. -/
def Unsynced (d : Disk ℕ) (w : WalInner) : Prop := ∃ f, d.file w.segId=some f ∧ f.synced≠f.data

/-- A crash that keeps the checkpoint of a clearing acknowledgement beside an active
segment that was not synced. -/
def Exposed (d : Disk ℕ) (w : WalInner) (op : WalOp) (crashed : Disk ℕ) : Prop :=
  op.Clears w ∧ Unsynced d w ∧ (crashed.read w.segId).isSome ∧ (crashed.read (w.segId+1)).isSome

structure Down (d : Disk ℕ) (L : Layout (Stored env limits)) (t : Bytes) : Prop where
  rests : Rests Stored.body checksum d L t
  torn : Frames.Torn checksum limits.maxRecordBytes t
  size_le : size Stored.body checksum L.log+t.length≤limits.maxDiskBytes
  segments_le : L.sealed.length+1≤limits.maxSegments
  segId_le : L.segId≤u64Max
  images : ∀ j, L.synced≤j → j≤L.active.length → ∃ x, recover env limits (items (L.sealed++[L.active.take j]))=.ok x

structure Up (d : Disk ℕ) (w : WalInner) (L : Layout (Stored env limits)) : Prop where
  live : Live w L
  rests : Rests Stored.body checksum d L []
  images : ∀ j, L.synced≤j → j≤L.active.length → ∃ x, recover env limits (items (L.sealed++[L.active.take j]))=.ok x

variable {env limits segmentMax} {d d' : Disk ℕ} {w : WalInner} {L : Layout (Stored env limits)}
  {t : Bytes}

theorem Up.down (h : Up env limits d w L) : Down env limits d L [] where
  rests := h.rests
  torn := .inl rfl
  size_le := by
    rw [← h.live.diskBytes]
    exact h.live.disk_le
  segments_le := by
    rw [← h.live.segments]
    exact h.live.segments_le
  segId_le := by
    rw [← h.live.segId]
    exact h.live.segId_le
  images := h.images

variable {x : Index}

theorem represents_recover {its : List Item} (hits : ∀ i∈its, i.Sound)
    (h : Represents env limits x its) : ∃ y, recover env limits its=.ok y := by
  have hacked : (fun s => x.acked.lookup s)=(replay its).acked := congrArg Value.acked h.value
  have hpend : x.pending=(replay its).pending := congrArg Value.pending h.value
  refine recover_within hits h.ok.acks ?_ h.consistent ?_
  · intro i hi r hr
    obtain ⟨n,hn,-⟩:=replay_marked hi hr
    rw [← hacked] at hn
    have hn' : x.acked.lookup r.stream=some n := hn
    change (x.acked.lookup r.stream).isSome=true
    rw [hn']
    rfl
  · rw [← hpend]
    exact h.ok.pending

theorem live_recover (h : Live w L) : ∃ y, recover env limits (items L.log)=.ok y :=
  represents_recover (fun _ hi => items_sound hi) h.represents

theorem under_recover {its : List Item} (hits : ∀ i∈its, i.Sound) (hx : x.Ok env limits)
    (hunder : ∀ i∈its, Under x.value i) (hpending : PendingFits env limits (replay its).pending) :
    ∃ y, recover env limits its=.ok y := by
  refine recover_within hits hx.acks ?_ (fun i hi => (hunder i hi).receipt) hpending
  intro i hi r hr
  obtain ⟨n,hn,-⟩:=(hunder i hi).mark r hr
  change (x.acked.lookup r.stream).isSome=true
  have hn' : x.acked.lookup r.stream=some n := hn
  rw [hn']
  rfl

theorem pending_sound (h : Up env limits d w L) {p : PendingRecord} (hp : p∈w.pending) : p.record.seq≠0 ∧
    p.record.seq≤u64Max ∧ p.record.endpoint.isEmpty=false ∧ p.record.sender.isEmpty=false := by
  have hpend : w.pending=(replay (items L.log)).pending := congrArg Value.pending h.live.represents.value
  rw [hpend,replay_pending] at hp
  obtain ⟨i,hi,hmessage⟩:=List.mem_filterMap.mp (List.mem_of_mem_filter hp)
  have hsound:=items_sound hi
  obtain ⟨r,hr,rfl⟩:=Option.map_eq_some_iff.mp hmessage
  have hbusiness : i.business=some r := (Option.filter_eq_some_iff.mp hr).1
  exact ⟨hsound.seq_pos r hbusiness,hsound.seq_le r hbusiness,hsound.endpoint r hbusiness,
    hsound.sender r hbusiness⟩

def Follows (w w' : WalInner) (L : Layout (Stored env limits)) (op : WalOp) :
    Change (Stored env limits) → Prop
  | .write s _ => w'.value=replay (items L.log++[s.item])
  | .checkpoint rs => IsCheckpoint L w' rs ∧ op.Clears w ∧
    w.diskBytes+(data Stored.body checksum rs).length≤limits.maxDiskBytes ∧
    w.segments+1≤limits.maxSegments
  | .sync => w'=w

theorem op_cases (hlimits : limits.validate segmentMax=.ok ()) (h : Up env limits d w L) (op : WalOp)
    (hop : op.InRange) : op.plan env limits segmentMax d w=([],w) ∨ ∃ c,
    (op.plan env limits segmentMax d w).1=c.program Stored.body checksum L ∧ Live
    (op.plan env limits segmentMax d w).2 (c.after L) ∧ Follows w (op.plan env limits segmentMax d w).2 L op c := by
  obtain ⟨hrecord,-⟩:=validate_limits hlimits
  cases op with
  | append r id parent =>
    simp only [WalOp.plan]
    cases hp : appendSubmissionWithParent env limits segmentMax w r id parent with
    | error e => exact .inl rfl
    | ok plan =>
      rcases append_cases hp with ⟨seq,rfl⟩ | ⟨stored,receipt,bytes,hadm,rfl⟩
      · exact .inl rfl
      · obtain ⟨s,-,-,-,-,heff,-,hlive,hvalue⟩:=append_live hrecord h.live hop hadm rfl
        exact .inr ⟨.write s _,heff,hlive,hvalue⟩
  | ack endpoint sender seq acks receipts =>
    simp only [WalOp.plan]
    cases hp : Wal.ack env limits (d.dir.map Prod.fst) acks receipts w endpoint sender seq with
    | error e => exact .inl rfl
    | ok plan =>
      rcases ack_cases hp with rfl | ⟨wb,cb,hraises,⟨hclears,rfl⟩ | ⟨hclears,hplan⟩⟩
      · exact .inl rfl
      · obtain ⟨s,-,-,heff,hlive,hvalue⟩:=ack_live h.live hop hraises hclears
        exact .inr ⟨.write s false,heff,hlive,hvalue⟩
      · obtain ⟨rs,heff,-,hlive,hcheck,-,hroom⟩ :=
          ack_clear hlimits h.live hop hraises hclears (rests_names h.rests) hplan
        exact .inr ⟨.checkpoint rs,heff,hlive,hcheck,hclears,hroom⟩
  | sync =>
    have hhealthy : w.healthy=.ok () := by
      unfold WalInner.healthy
      rw [h.live.healthy]
      rfl
    simp only [WalOp.plan,WalInner.sync,hhealthy]
    refine .inr ⟨.sync,?_,?_,rfl⟩
    · rw [Change.program,← h.live.segId]
      rfl
    · exact ⟨h.live.represents,h.live.segId,h.live.segBytes,h.live.diskBytes,h.live.segments,
        h.live.healthy,h.live.disk_le,h.live.segments_le,h.live.segId_le⟩

variable {c : Change (Stored env limits)}

theorem after_images (j : ℕ) (hj : (c.after L).synced≤j) (hj' : j≤(c.after L).active.length) :
    (c.after L).sealed++[(c.after L).active.take j]=(c.after L).log ∨
    ((c.after L).sealed=L.sealed ∧ (c.after L).active.take j=L.active.take j ∧ L.synced≤j ∧ j≤L.active.length) := by
  have hfull : (c.after L).active.length≤j → (c.after L).sealed++[(c.after L).active.take j]=(c.after L).log := by
    intro hle
    rw [List.take_of_length_le hle]
    rfl
  cases c with
  | write s rotate =>
    cases rotate with
    | true => exact .inl (hfull (by simp [Change.after]))
    | false =>
      simp only [Change.after,length_append,length_singleton] at hj hfull
      rcases Nat.lt_or_ge L.active.length j with hlt | hge
      · exact .inl (hfull hlt)
      · exact .inr ⟨rfl,List.take_append_of_le_length hge,hj,hge⟩
  | checkpoint | sync => exact .inl (hfull hj)

variable {w' : WalInner}

theorem op_completes (hlimits : limits.validate segmentMax=.ok ()) (h : Up env limits d w L) (hlive : Live w' (c.after L))
    (hrun : Disk.Completed (c.program Stored.body checksum L) d d') : Up env limits d' w' (c.after L) := by
  obtain ⟨hrecord,-⟩:=validate_limits hlimits
  refine ⟨hlive,program_completes (stored_valid hrecord) h.rests c hrun,?_⟩
  intro j hj hj'
  rcases after_images j hj hj' with heq | ⟨hsealed,hactive,hlow,hhigh⟩
  · rw [heq]
    exact live_recover hlive
  · rw [hsealed,hactive]
    exact h.images j hlow hhigh

variable {op : WalOp}

theorem call_up (hlimits : limits.validate segmentMax=.ok ()) (h : Up env limits d w L)
    (hop : op.InRange) (hrun : Disk.Completed (op.plan env limits segmentMax d w).1 d d') :
    ∃ L', Up env limits d' (op.plan env limits segmentMax d w).2 L' := by
  rcases op_cases hlimits h op hop with hnone | ⟨c,heff,hlive,-⟩
  · rw [hnone] at hrun ⊢
    cases hrun
    exact ⟨L,h⟩
  · rw [heff] at hrun
    exact ⟨_,op_completes hlimits h hlive hrun⟩

theorem unsynced_of_lt (h : Up env limits d w L) (hlt : L.synced<L.active.length) : Unsynced d w := by
  have hmem : (L.segId,(⟨data Stored.body checksum (L.active.take L.synced),
      data Stored.body checksum L.active⟩ : File))∈CrashFs.current d.history := by
    rw [h.rests.listing_eq]
    exact List.mem_append_right _ (List.mem_singleton_self _)
  obtain ⟨f,hf,hdata,hsynced⟩ : ∃ f, d.file L.segId=some f ∧ f.data=data Stored.body checksum L.active ∧
      f.synced=data Stored.body checksum (L.active.take L.synced) :=
    ⟨_,Disk.file_current h.rests.named hmem,rfl,rfl⟩
  refine ⟨f,by rw [h.live.segId]; exact hf,?_⟩
  -- the records beyond the synced ones take at least a byte
  intro heq
  rw [hdata,hsynced] at heq
  have hsplit : data Stored.body checksum L.active=data Stored.body checksum (L.active.take L.synced)++
      data Stored.body checksum (L.active.drop L.synced) := by
    rw [← data_append,List.take_append_drop]
  have hlen:=congrArg List.length (heq.trans hsplit)
  rw [length_append] at hlen
  obtain ⟨s,rest,hdrop⟩ : ∃ s rest, L.active.drop L.synced=s::rest := by
    cases hd : L.active.drop L.synced with
    | nil =>
      rw [List.drop_eq_nil_iff] at hd
      omega
    | cons s rest => exact ⟨s,rest,rfl⟩
  rw [hdrop,data_cons,length_append,Frames.frame_length] at hlen
  omega

structure Crashed (d : Disk ℕ) (L : Layout (Stored env limits)) (c : Change (Stored env limits))
    (L' : Layout (Stored env limits)) (t : Bytes) : Prop where
  down : Down env limits d L' t
  image : Image L c L'.base L'.sealed L'.active
  synced : L'.synced=L'.active.length

theorem image_recover (h : Up env limits d w L) (hlive : Live w' (c.after L)) (hfollows : Follows w w' L op c)
    {base : ℕ} {segs : List (List (Stored env limits))} {active : List (Stored env limits)}
    (himage : Image L c base segs active) : (∃ x, recover env limits (items (segs++[active]))=.ok x) ∧
    ((∃ j, L.synced≤j ∧ j≤L.active.length ∧ items (segs++[active])=items (L.sealed++[L.active.take j])) ∨
    replay (items (segs++[active]))=w'.value) := by
  have hlast : L.synced≤L.active.length ∧ L.active.length≤L.active.length := ⟨h.rests.synced_le,le_rfl⟩
  cases himage with
  | kept c j hj hj' => exact ⟨h.images j hj hj',.inl ⟨j,hj,hj',rfl⟩⟩
  | written s rotate =>
    have hitems : items (L.sealed++[L.active++[s]])=items L.log++[s.item] := by
      simp [Layout.log,items]
    have hitems' : items ((Change.write s rotate).after L).log=items L.log++[s.item] := by
      cases rotate <;> simp [Change.after,Layout.log,items]
    rw [hitems]
    refine ⟨?_,.inr hfollows.symm⟩
    rw [← hitems']
    exact live_recover hlive
  | rotated s =>
    have hitems : items (L.sealed++[L.active++[s]]++[[]])=items L.log++[s.item] := by
      simp [Layout.log,items]
    have hitems' : items ((Change.write s true).after L).log=items L.log++[s.item] := by
      simp [Change.after,Layout.log,items]
    rw [hitems]
    refine ⟨?_,.inr hfollows.symm⟩
    rw [← hitems']
    exact live_recover hlive
  | begun rs i hs =>
    obtain ⟨hcheck,-⟩:=hfollows
    obtain ⟨x,rest,rfl,hx⟩:=hcheck.head
    have hitems : items (L.sealed++[L.active]++[(x::rest).take i]) =
        items L.log++((x::rest).take i).map Stored.item := by
      simp [Layout.log,items]
    cases i with
    | zero =>
      have hzero : items (L.sealed++[L.active]++[(x::rest).take 0]) =
          items (L.sealed++[L.active.take L.active.length]) := by
        rw [take_length]
        simp [items]
      rw [hzero]
      exact ⟨h.images _ hlast.1 hlast.2,.inl ⟨_,hlast.1,hlast.2,rfl⟩⟩
    | succ i =>
      have hsplit : items L.log++((x::rest).take (i+1)).map Stored.item =
          (items L.log++[x.item])++(rest.take i).map Stored.item := by
        simp
      have hknown : ∀ it∈(rest.take i).map Stored.item, Under w'.value it ∧ it.message=none := by
        intro it hit
        obtain ⟨y,hy,rfl⟩:=List.mem_map.mp hit
        exact hcheck.new y (List.mem_cons_of_mem _ (List.mem_of_mem_take hy))
      have hreplay : replay (items L.log++((x::rest).take (i+1)).map Stored.item)=w'.value := by
        rw [hsplit,← hx]
        refine replay_known ?_ ?_
        · intro it hit
          rw [hx]
          exact (hknown it hit).1
        · intro it hit
          exact (hknown it hit).2
      rw [hitems]
      refine ⟨under_recover ?_ hlive.represents.ok ?_ ?_,.inr hreplay⟩
      · intro it hit
        rw [← hitems] at hit
        exact items_sound hit
      · intro it hit
        rcases List.mem_append.mp hit with hit | hit
        · exact hcheck.old it hit
        · obtain ⟨y,hy,rfl⟩:=List.mem_map.mp hit
          exact (hcheck.new y (List.mem_of_mem_take hy)).1
      · rw [hreplay]
        exact hlive.represents.ok.pending
  | collected rs k hk hs =>
    obtain ⟨hcheck,-⟩:=hfollows
    have hitems : items ((L.sealed++[L.active]).drop k++[active]) =
        items ((L.sealed++[L.active]).drop k)++active.map Stored.item := by
      simp [items]
    have hpre : ∀ it∈items ((L.sealed++[L.active]).drop k), Under w'.value it := by
      intro it hit
      obtain ⟨y,hy,rfl⟩:=List.mem_map.mp hit
      obtain ⟨seg,hseg,hyseg⟩:=List.mem_flatten.mp hy
      exact hcheck.old _ (List.mem_map_of_mem (List.mem_flatten.mpr
        ⟨seg,List.mem_of_mem_drop hseg,hyseg⟩))
    have hreplay:=hcheck.replay_eq hpre
    rw [hitems]
    refine ⟨under_recover ?_ hlive.represents.ok ?_ ?_,.inr hreplay⟩
    · intro it hit
      rw [← hitems] at hit
      exact items_sound hit
    · intro it hit
      rcases List.mem_append.mp hit with hit | hit
      · exact hpre it hit
      · obtain ⟨y,hy,rfl⟩:=List.mem_map.mp hit
        exact (hcheck.new y hy).1
    · rw [hreplay]
      exact hlive.represents.ok.pending
  | replaced rs =>
    exact ⟨live_recover hlive,.inr hlive.represents.value.symm⟩

theorem bytes_le (h : Up env limits d w L) (hlive : Live w' (c.after L)) (hfollows : Follows w w' L op c) :
    size Stored.body checksum L.log+c.bytes Stored.body checksum≤limits.maxDiskBytes := by
  have hle:=hlive.disk_le
  rw [hlive.diskBytes] at hle
  cases c with
  | write s rotate =>
    have hsize : size Stored.body checksum ((Change.write s rotate).after L).log =
        size Stored.body checksum L.log+(Frames.frame checksum s.body).length := by
      cases rotate <;> simp [Change.after,Layout.log,size,data_singleton,Nat.add_assoc]
    rw [hsize] at hle
    exact hle
  | checkpoint rs =>
    rw [← h.live.diskBytes]
    exact hfollows.2.2.1
  | sync =>
    rw [← h.live.diskBytes]
    exact h.live.disk_le

theorem image_bounds (h : Up env limits d w L) (hlive : Live w' (c.after L)) (hfollows : Follows w w' L op c)
    {base : ℕ} {segs : List (List (Stored env limits))} {active : List (Stored env limits)}
    (himage : Image L c base segs active) :
    segs.length+1≤limits.maxSegments ∧ base+segs.length≤u64Max ∧ base+segs.length≤w.segId+1 := by
  have hsegs:=h.live.segments_le
  have hsegs':=hlive.segments_le
  rw [hlive.segments] at hsegs'
  have hnum:=h.live.segments
  have hid:=h.live.segId_le
  have hid':=hlive.segId_le
  have hseg:=h.live.segId
  have hseg':=hlive.segId
  unfold Layout.segId at hseg hseg'
  cases himage with
  | kept | written => omega
  | rotated s =>
    simp only [Change.after,length_append,length_singleton] at hsegs' hseg' ⊢
    omega
  | begun rs i hs =>
    simp only [Change.after,length_nil,Layout.segId] at hseg'
    have:=hfollows.2.2.2
    simp only [length_append,length_singleton]
    omega
  | collected rs k hk hs =>
    simp only [Change.after,length_nil,Layout.segId] at hseg'
    have:=hfollows.2.2.2
    simp only [List.length_drop,length_append,length_singleton]
    omega
  | replaced rs =>
    simp only [Change.after,length_nil,Layout.segId] at hseg' hsegs' ⊢
    omega

theorem op_crash (hlimits : limits.validate segmentMax=.ok ()) (h : Up env limits d w L) (hlive : Live w' (c.after L))
    (hfollows : Follows w w' L op c) (hrun : Disk.Stopped (c.program Stored.body checksum L) d d') (kept : ℕ)
    (cut : ℕ → ℕ) : Exposed d w op (d'.crash kept cut) ∨ ∃ L' t, Crashed (d'.crash kept cut) L c L' t := by
  obtain ⟨hrecord,-⟩:=validate_limits hlimits
  rcases program_crash (stored_valid hrecord) h.rests c hrun kept cut with
    ⟨base,segs,active,t,himage,ht,hrests,hbytes⟩ | ⟨⟨rs,rfl⟩,hlt,⟨x,hx,hxid⟩,⟨y,hy,hyid⟩⟩
  · obtain ⟨hsegs,hid,-⟩:=image_bounds h hlive hfollows himage
    refine .inr ⟨⟨base,segs,active,active.length⟩,t,⟨hrests,ht,?_,hsegs,hid,?_⟩,himage,rfl⟩
    · exact hbytes.trans (bytes_le h hlive hfollows)
    · intro j hj hj'
      obtain rfl : j=active.length := Nat.le_antisymm hj' hj
      rw [take_length]
      exact (image_recover h hlive hfollows himage).1
  · have hnamed:=(Disk.crash_history (Disk.stopped_named h.rests.named
      (h.rests.listing_eq ▸ (program_left (stored_valid hrecord) h.rests.synced_le _).2.1) hrun) kept cut).1
    refine .inl ⟨hfollows.2.1,unsynced_of_lt h hlt,?_,?_⟩
    · rw [h.live.segId,← hxid,Disk.read_current hnamed hx]
      rfl
    · rw [h.live.segId,← hyid,Disk.read_current hnamed hy]
      rfl

theorem opened_live (h : Down env limits d L t)
    (hx : recover env limits (items L.log)=.ok x) : Live (opened x L) L where
  represents := recover_spec (fun _ hi => items_sound hi) hx
  segId := rfl
  segBytes := rfl
  diskBytes := rfl
  segments := rfl
  healthy := rfl
  disk_le := (Nat.le_add_right ..).trans h.size_le
  segments_le := h.segments_le
  segId_le := h.segId_le

theorem down_recover (h : Down env limits d L t) : ∃ x, recover env limits (items L.log)=.ok x := by
  have hx:=h.images L.active.length h.rests.synced_le (le_rfl)
  rwa [take_length] at hx

theorem open_down (hlimits : limits.validate segmentMax=.ok ()) (h : Down env limits d L t) (hid : L.segId<u64Max) :
    ∃ x, recover env limits (items L.log)=.ok x ∧ openWithLimits env limits segmentMax d =
    .ok ⟨repair Stored.body checksum L t,opened x L,.ok ()⟩ := by
  obtain ⟨x,hx⟩:=down_recover h
  exact ⟨x,hx,open_rests hlimits h.rests h.torn h.size_le h.segments_le hid hx⟩

theorem open_down_inv (hlimits : limits.validate segmentMax=.ok ()) (h : Down env limits d L t) {plan : Plan Unit}
    (hopen : openWithLimits env limits segmentMax d=.ok plan) : ∃ x, recover env limits (items L.log)=.ok x ∧
    plan=⟨repair Stored.body checksum L t,opened x L,.ok ()⟩ := by
  rcases h.segId_le.lt_or_eq with hlt | heq
  · obtain ⟨x,hx,hplan⟩:=open_down hlimits h hlt
    exact ⟨x,hx,Except.ok.inj (hopen.symm.trans hplan)⟩
  · rw [open_exhausted hlimits h.rests h.size_le h.segments_le heq] at hopen
    contradiction

theorem open_completes (h : Down env limits d L t)
    (hx : recover env limits (items L.log)=.ok x)
    (hrun : Disk.Completed (repair Stored.body checksum L t) d d') : Up env limits d' (opened x L) L where
  live := opened_live h hx
  rests := repair_completes h.torn h.rests hrun
  images := h.images

theorem open_crash (hlimits : limits.validate segmentMax=.ok ()) (h : Down env limits d L t)
    (hrun : Disk.Stopped (repair Stored.body checksum L t) d d') (kept : ℕ) (cut : ℕ → ℕ) :
    ∃ j t', L.synced≤j ∧ j≤L.active.length ∧ Down env limits (d'.crash kept cut)
      ⟨L.base,L.sealed,L.active.take j,(L.active.take j).length⟩ t' := by
  obtain ⟨hrecord,-⟩:=validate_limits hlimits
  obtain ⟨j,t',hj,hj',ht',hrests,hsize⟩:=repair_crash (stored_valid hrecord) h.torn h.rests hrun kept cut
  refine ⟨j,t',hj,hj',hrests,ht',hsize.trans h.size_le,h.segments_le,h.segId_le,?_⟩
  intro k hk hk'
  obtain rfl : k=(L.active.take j).length := Nat.le_antisymm hk' hk
  rw [take_length]
  exact h.images j hj hj'

def emptyIndex : Index := ⟨∅,0,[],0,.empty⟩

theorem first_down (hlimits : limits.validate segmentMax=.ok ())
    (h : Rests Stored.body checksum d (first : Layout (Stored env limits)) []) : Down env limits d first [] := by
  obtain ⟨-,-,-,hsegs,-⟩:=validate_limits hlimits
  refine ⟨h,.inl rfl,Nat.zero_le _,hsegs,?_,?_⟩
  · change 1≤u64Max
    decide
  · intro j hj hj'
    exact ⟨emptyIndex,by simp [first,items]; rfl⟩

theorem start_up (hlimits : limits.validate segmentMax=.ok ()) (h : Fresh d) (hrun : Disk.Completed start d d') :
    Up env limits d' (opened emptyIndex (first : Layout (Stored env limits))) first := by
  have hdown:=@first_down env limits segmentMax d' hlimits (start_completes h hrun)
  exact ⟨opened_live hdown rfl,hdown.rests,hdown.images⟩

end env
end Parrot.Wal
