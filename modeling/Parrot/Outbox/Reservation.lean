import Parrot.Outbox.Solvent
import Parrot.Wal.Recovery

/-! # The reservation of acknowledgements

Runs of an outbox log: admissions, group syncs, acknowledgements of the first pending record,
crashes anywhere and reopening. -/

namespace Parrot.Outbox
open Machine Wal
open Bincode (Bytes)
open CrashFs (Disk Effect)
open SegmentLog

inductive Op where
  | append (cmd : Command) (seq : ℕ)
  | ack (acks : Order (Stream × ℕ)) (receipts : Order Receipt)
  | sync

def Op.InRange : Op → Prop
  | .append _ seq => seq≤u64Max
  | _ => True

def Op.Clears (identity : Identity) (w : WalInner) : Op → Prop
  | .ack _ _ => ∃ p, w.pending.head? = some p ∧ w.clears identity.stream p.record.seq=true
  | _ => False

/-- A log and the state of its writer, if there is one. -/
structure Sys where
  disk : Disk ℕ
  wal : Option WalInner

def Sys.initial : Sys := ⟨Disk.empty,none⟩

/-- A crash inside an acknowledgement that clears the log, which keeps the new segment
beside an old one. -/
def Strands (identity : Identity) (w : WalInner) (op : Op) (crashed : Disk ℕ) : Prop :=
  op.Clears identity w ∧ (crashed.read w.segId).isSome ∧ (crashed.read (w.segId+1)).isSome

section env
variable (env : WalEnv) (limits : WalLimits) (segmentMax : ℕ) (identity : Identity)

def Op.plan (d : Disk ℕ) (w : WalInner) : Op → List (Effect ℕ) × WalInner
  | .append cmd seq => taken w (appendForGroup env limits segmentMax w identity cmd seq)
  | .ack acks receipts =>
    match w.pending.head? with
    | none => ([],w)
    | some p => taken w (Wal.ack env limits (d.dir.map Prod.fst) acks receipts w identity.receiver
        identity.sender p.record.seq)
  | .sync => taken w w.sync

/-- The disk after a crash that stops an operation. -/
def crashedDisk (d : Disk ℕ) (w : WalInner) (op : Op) (budget kept : ℕ) (cut : ℕ → ℕ) : Disk ℕ :=
  (d.exec budget (op.plan env limits segmentMax identity d w).1).1.crash kept cut

/- `Allowed` restricts the crashes of a run. -/
inductive Step (Allowed : WalInner → Op → Disk ℕ → Prop) : Sys → Sys → Prop where
  | start {s : Sys} {plan : Plan Unit} {budget left : ℕ} {d' : Disk ℕ} (hwal : s.wal=none)
    (hopen : openWithLimits env limits segmentMax s.disk=.ok plan)
    (hrun : s.disk.exec budget plan.effects=(d',some left)) : Step Allowed s ⟨d',some plan.wal⟩
  | call {s : Sys} {w : WalInner} {op : Op} {budget left : ℕ} {d' : Disk ℕ} (hwal : s.wal=some w)
    (hop : op.InRange)
    (hrun : s.disk.exec budget (op.plan env limits segmentMax identity s.disk w).1=(d',some left)) :
    Step Allowed s ⟨d',some (op.plan env limits segmentMax identity s.disk w).2⟩
  | close {s : Sys} : Step Allowed s ⟨s.disk,none⟩
  | crash {s : Sys} {w : WalInner} {op : Op} {budget kept : ℕ} {cut : ℕ → ℕ} (hwal : s.wal=some w)
    (hop : op.InRange)
    (hallowed : Allowed w op (crashedDisk env limits segmentMax identity s.disk w op budget kept cut)) :
    Step Allowed s ⟨crashedDisk env limits segmentMax identity s.disk w op budget kept cut,none⟩
  | crashOpening {s : Sys} {plan : Plan Unit} {budget kept : ℕ} {cut : ℕ → ℕ} (hwal : s.wal=none)
    (hopen : openWithLimits env limits segmentMax s.disk=.ok plan) :
    Step Allowed s ⟨(s.disk.exec budget plan.effects).1.crash kept cut,none⟩

abbrev Run (Allowed : WalInner → Op → Disk ℕ → Prop) (s : Sys) : Prop :=
  Relation.ReflTransGen (Step env limits segmentMax identity Allowed) Sys.initial s

/-- The outbox with the watermark and receipts of `w`, and nothing else. -/
def emptied (w : WalInner) : WalInner := {w with
  pending := []
  pendingBytes := 0
  segBytes := retained env w.toIndex
  diskBytes := retained env w.toIndex
  segments := 1}

/-- The first pending record can be acknowledged, and when none is left there is room
for whatever an empty outbox has room for. -/
structure Sustained (d : Disk ℕ) (w : WalInner) : Prop where
  acks : ∀ p, w.pending.head? = some p → ∀ (acks : Order (Stream × ℕ)) (receipts : Order Receipt),
    Wal.ack env limits (d.dir.map Prod.fst) acks receipts w identity.receiver identity.sender p.record.seq =
      .error "wal watermark byte budget exceeded" ∨
    ∃ plan, Wal.ack env limits (d.dir.map Prod.fst) acks receipts w identity.receiver identity.sender
      p.record.seq=.ok plan ∧ plan.result=.ok ()
  readmits : w.pending=[] → ∀ cmd seq plan,
    appendForGroup env limits segmentMax (emptied env w) identity cmd seq=.ok plan →
    appendForGroup env limits segmentMax w identity cmd seq=.ok plan

def Backed (base : ℕ) (segs : List (List (Stored env limits))) (active : List (Stored env limits)) : Prop :=
  ∃ x, Represents env limits x (items (segs++[active])) ∧ Solvent env limits identity x (segs.length+1)
    (base+segs.length) (size Stored.body checksum (segs++[active]))

def Guarded (L : Layout (Stored env limits)) : Prop :=
  ∀ j, L.synced≤j → j≤L.active.length → Backed env limits identity L.base L.sealed (L.active.take j)

def Inv (s : Sys) : Prop :=
  match s.wal with
  | some w => ∃ L, Up env limits s.disk w L ∧ Guarded env limits identity L
  | none => Fresh s.disk ∨ ∃ L t, Down env limits s.disk L t ∧ Guarded env limits identity L

variable {env limits segmentMax identity} {d d' : Disk ℕ} {w : WalInner} {L : Layout (Stored env limits)}
  {t : Bytes} {s s' : Sys}

theorem Guarded.full (h : Guarded env limits identity L) (hs : L.synced≤L.active.length) :
    Backed env limits identity L.base L.sealed L.active := by
  have hlast:=h L.active.length hs (le_rfl)
  rwa [List.take_length] at hlast

theorem guarded_settled {base : ℕ} {segs : List (List (Stored env limits))} {active : List (Stored env limits)}
    (h : Backed env limits identity base segs active) :
    Guarded env limits identity ⟨base,segs,active,active.length⟩ := by
  intro j hj hj'
  rw [List.take_of_length_le hj]
  exact h

theorem live_solvent (hup : Up env limits d w L) (h : Guarded env limits identity L) :
    Solvent env limits identity w.toIndex w.segments w.segId w.diskBytes := by
  obtain ⟨x,hx,hsolvent⟩:=h.full hup.rests.synced_le
  rw [hup.live.segments,hup.live.segId,hup.live.diskBytes]
  exact hsolvent.same hx hup.live.represents

theorem backed_of_live {w' : WalInner} {its : List Item} (hw' : Represents env limits w'.toIndex its)
    {base : ℕ} {segs : List (List (Stored env limits))} {active : List (Stored env limits)}
    (hitems : items (segs++[active])=its) {n : ℕ} (hn : size Stored.body checksum (segs++[active])=n)
    (h : Solvent env limits identity w'.toIndex (segs.length+1) (base+segs.length) n) :
    Backed env limits identity base segs active :=
  ⟨w'.toIndex,hitems ▸ hw',hn ▸ h⟩

def Pays (identity : Identity) (w' : WalInner) (L : Layout (Stored env limits)) :
    Change (Stored env limits) → Prop
  | .write s rotate => Solvent env limits identity w'.toIndex (L.sealed.length+1) L.segId
      (size Stored.body checksum L.log+(Frames.frame checksum s.body).length) ∧
    (rotate=true → Solvent env limits identity w'.toIndex (L.sealed.length+2) (L.segId+1)
      (size Stored.body checksum L.log+(Frames.frame checksum s.body).length))
  | .checkpoint rs => Solvent env limits identity w'.toIndex 1 (L.segId+1) (data Stored.body checksum rs).length
  | .sync => True

theorem appendPlan_index {r : WalRecord} {parent : Option TraceParent} {receipt : Option Receipt}
    {bytes : ℕ} {encoded : Bytes} {rotate : Bool} {receipts' : ReceiptIndex}
    (h : insertReceipt env limits w.receipts receipt=.ok receipts') :
    (appendPlan env limits w r parent receipt bytes encoded rotate).wal.toIndex={w.toIndex with
      receipts := receipts'
      pending := w.pending++[⟨r,parent⟩]
      pendingBytes := bytes} := by
  unfold appendPlan
  rw [h]
  cases rotate with
  | false => rfl
  | true => rfl

variable {receipts : Order Receipt}

theorem checkpointPlan_wal {names : List ℕ} {seq watermarkBytes n : ℕ}
    {stream : Stream} {marker : Bytes} {others : List WalRecord}
    (h : (checkpointPlan env limits names receipts w stream seq watermarkBytes n marker others).result=.ok ()) :
    (checkpointPlan env limits names receipts w stream seq watermarkBytes n marker others).wal =
      WalInner.acknowledged env {w with
        segId := w.segId+1,segBytes := n,diskBytes := n,segments := 1} stream seq watermarkBytes := by
  unfold checkpointPlan at h ⊢
  dsimp only at h ⊢
  split at h
  · contradiction
  · split at h
    · contradiction
    · rfl

section
variable (hlimits : limits.validate segmentMax=.ok ())
include hlimits

theorem append_pays (hup : Up env limits d w L)
    (hg : Guarded env limits identity L) {cmd : Command} {seq : ℕ} (hseq : seq≤u64Max)
    {stored : WalRecord} {receipt : Option Receipt} {bytes : ℕ}
    (hadm : Admitted env limits segmentMax w (identity.record cmd seq) cmd.requestId cmd.parent stored receipt
      bytes)
    (hres : Reserves env limits segmentMax w identity stored receipt) {rotate : Bool}
    (hrotate : rotate=decide (w.segBytes+(recordFrame env stored).length≥segmentMax)) :
    ∃ x : Stored env limits,
      (appendPlan env limits w (identity.record cmd seq) cmd.parent receipt bytes (recordFrame env stored)
        rotate).effects=(Change.write x rotate).program Stored.body checksum L ∧
      Live (appendPlan env limits w (identity.record cmd seq) cmd.parent receipt bytes (recordFrame env stored)
        rotate).wal ((Change.write x rotate).after L) ∧
      (appendPlan env limits w (identity.record cmd seq) cmd.parent receipt bytes (recordFrame env stored)
        rotate).wal.value=replay (items L.log++[x.item]) ∧
      Pays identity (appendPlan env limits w (identity.record cmd seq) cmd.parent receipt bytes
        (recordFrame env stored) rotate).wal L (.write x rotate) := by
  obtain ⟨hrecord,-⟩:=validate_limits hlimits
  obtain ⟨x,hitem,hstored,-,-,heff,-,hlive,hvalue⟩:=append_live hrecord hup.live hseq hadm hrotate
  have hsound:=x.sound
  rw [hitem] at hsound
  obtain ⟨receipts',hinsert,-⟩:=append_represents hup.live.represents hadm hsound
  have hsolvent:=live_solvent hup hg
  have hframe : (Frames.frame checksum x.body).length=(recordFrame env stored).length := by
    rw [← hstored]
    rfl
  have hsegs:=hup.live.segments
  have hid:=hup.live.segId
  refine ⟨x,heff,hlive,hvalue,?_,?_⟩
  · rw [appendPlan_index hinsert,hframe,← hup.live.diskBytes]
    exact append_solvent hsolvent rfl hinsert hres (by omega) (by omega)
  · intro htrue
    rw [htrue] at hrotate
    rw [appendPlan_index hinsert,hframe,← hup.live.diskBytes]
    exact append_solvent hsolvent rfl hinsert hres (by rw [← hrotate,hsegs]; exact le_rfl)
      (by rw [← hrotate,hid]; exact le_rfl)

theorem ack_pays (hup : Up env limits d w L)
    (hg : Guarded env limits identity L) {p : PendingRecord} (hp : w.pending.head? = some p)
    (hseq : p.record.seq≤u64Max) {acks : Order (Stream × ℕ)} {plan : Plan Unit}
    (hplan : Wal.ack env limits (d.dir.map Prod.fst) acks receipts w identity.receiver identity.sender
      p.record.seq=.ok plan) :
    plan=⟨[],w,.ok ()⟩ ∨ plan.result=.ok () ∧ ∃ c, plan.effects=c.program Stored.body checksum L ∧
      Live plan.wal (c.after L) ∧
      Follows w plan.wal L (.ack identity.receiver identity.sender p.record.seq acks receipts) c ∧
      Pays identity plan.wal L c := by
  have hsolvent:=live_solvent hup hg
  have hmem : p∈w.pending := List.mem_of_head? hp
  have hstream : p.record.stream=identity.stream := hsolvent.stream p hmem
  rcases ack_cases hplan with rfl | ⟨wb,cb,hraises,⟨hclears,rfl⟩ | ⟨hclears,hcheck⟩⟩
  · exact .inl rfl
  · obtain ⟨x,-,hstored,heff,hlive,hvalue⟩:=ack_live hup.live hseq hraises hclears
    have hframe : (Frames.frame checksum x.body).length =
        (recordFrame env (ackRecord identity.receiver identity.sender p.record.seq)).length := by
      rw [← hstored]
      rfl
    refine .inr ⟨rfl,.write x false,heff,hlive,hvalue,?_,fun hfalse => by contradiction⟩
    rw [hframe,← hup.live.diskBytes,← hup.live.segments,← hup.live.segId]
    exact ack_solvent hsolvent hseq ⟨p,hmem,hstream,le_rfl⟩ hclears
  · obtain ⟨rs,heff,hresult,hlive,hischeck,-,hroom⟩ :=
      ack_clear hlimits hup.live hseq hraises hclears (rests_names hup.rests) hcheck
    have hbytes : w.receipts.checkpointBytes=cb :=
      Except.ok.inj ((hsolvent.checkpointSize_eq acks).symm.trans (hraises.checkpoint hclears))
    have hwal:=hcheck ▸ checkpointPlan_wal (hcheck ▸ hresult)
    have hsize:=hlive.diskBytes
    rw [hwal] at hsize
    have hdata : (data Stored.body checksum rs).length =
        (recordFrame env (ackRecord identity.receiver identity.sender p.record.seq)).length+
          w.receipts.checkpointBytes := by
      rw [hbytes]
      simpa [Change.after,Layout.log,WalInner.acknowledged] using hsize.symm
    refine .inr ⟨hresult,.checkpoint rs,heff,hlive,⟨hischeck,hclears,hroom⟩,?_⟩
    change Solvent env limits identity plan.wal.toIndex 1 (L.segId+1) (data Stored.body checksum rs).length
    rw [hdata,hwal]
    exact clear_solvent hsolvent hclears rfl _

theorem op_cases (hup : Up env limits d w L)
    (hg : Guarded env limits identity L) (op : Op) (hop : op.InRange) : op.plan env limits segmentMax identity d
    w=([],w) ∨ ∃ c o, (op.plan env limits segmentMax identity d w).1=c.program Stored.body checksum L ∧
    Live (op.plan env limits segmentMax identity d w).2 (c.after L) ∧
    Follows w (op.plan env limits segmentMax identity d w).2 L o c ∧ (o.Clears w → op.Clears identity w) ∧
    Pays identity (op.plan env limits segmentMax identity d w).2 L c := by
  cases op with
  | append cmd seq =>
    simp only [Op.plan]
    cases hp : appendForGroup env limits segmentMax w identity cmd seq with
    | error e => exact .inl rfl
    | ok plan =>
      rcases appendForGroup_cases (segments_addressable hlimits) hp with
        ⟨n,rfl⟩ | ⟨happ,inner,stored,receipt,hwrap,hcausal,hres⟩
      · exact .inl rfl
      · rcases append_cases happ with ⟨n,rfl⟩ | ⟨stored',receipt',bytes,hadm,rfl⟩
        · exact .inl rfl
        · obtain ⟨inner',hwrap',hcausal'⟩:=hadm.wraps
          obtain ⟨rfl,rfl⟩:=Prod.mk.inj (Except.ok.inj (hwrap.symm.trans hwrap'))
          obtain rfl:=Except.ok.inj (hcausal.symm.trans hcausal')
          obtain ⟨x,heff,hlive,hvalue,hpays⟩:=append_pays hlimits hup hg hop hadm hres rfl
          exact .inr ⟨_,.sync,heff,hlive,hvalue,False.elim,hpays⟩
  | ack acks receipts =>
    simp only [Op.plan]
    cases hp : w.pending.head? with
    | none => exact .inl rfl
    | some p =>
      dsimp only
      cases hplan : Wal.ack env limits (d.dir.map Prod.fst) acks receipts w identity.receiver identity.sender
          p.record.seq with
      | error e => exact .inl rfl
      | ok plan =>
        have hseq:=(pending_sound hup (List.mem_of_head? hp)).2.1
        rcases ack_pays hlimits hup hg hp hseq hplan with rfl | ⟨-,c,heff,hlive,hfollows,hpays⟩
        · exact .inl rfl
        · exact .inr ⟨c,_,heff,hlive,hfollows,fun hclears => ⟨p,hp,hclears⟩,hpays⟩
  | sync =>
    have hhealthy : w.healthy=.ok () := by
      unfold WalInner.healthy
      rw [hup.live.healthy]
      rfl
    simp only [Op.plan,WalInner.sync,hhealthy]
    refine .inr ⟨.sync,.sync,?_,?_,rfl,False.elim,trivial⟩
    · rw [Change.program,← hup.live.segId]
      rfl
    · exact ⟨hup.live.represents,hup.live.segId,hup.live.segBytes,hup.live.diskBytes,hup.live.segments,
        hup.live.healthy,hup.live.disk_le,hup.live.segments_le,hup.live.segId_le⟩

end

section change
variable {w' : WalInner} {c : Change (Stored env limits)}

theorem items_written (x : Stored env limits) : items (L.sealed++[L.active++[x]])=items L.log++[x.item] := by
  simp [Layout.log,items]

theorem size_written (x : Stored env limits) : size Stored.body checksum (L.sealed++[L.active++[x]]) =
    size Stored.body checksum L.log+(Frames.frame checksum x.body).length := by
  simp [Layout.log,data_singleton,Nat.add_assoc]

theorem write_backed {x : Stored env limits} {rotate : Bool} (hlive : Live w' ((Change.write x rotate).after L))
    (hpays : Pays identity w' L (.write x rotate)) : Backed env limits identity L.base L.sealed (L.active++[x]) := by
  have hitems : items ((Change.write x rotate).after L).log=items L.log++[x.item] := by
    cases rotate <;> simp [Change.after,Layout.log,items]
  exact backed_of_live hlive.represents ((items_written x).trans hitems.symm) (size_written x) hpays.1

theorem rotate_backed {x : Stored env limits} (hlive : Live w' ((Change.write x true).after L))
    (hpays : Pays identity w' L (.write x true)) :
    Backed env limits identity L.base (L.sealed++[L.active++[x]]) [] := by
  have hsize : size Stored.body checksum (L.sealed++[L.active++[x]]++[[]]) =
      size Stored.body checksum L.log+(Frames.frame checksum x.body).length := by
    rw [size_append,size_written,size_singleton,data_nil]
    rfl
  refine backed_of_live hlive.represents rfl hsize ?_
  rw [List.length_append,List.length_singleton,← Nat.add_assoc]
  exact hpays.2 rfl

theorem checkpoint_backed {rs : List (Stored env limits)} (hlive : Live w' ((Change.checkpoint rs).after L))
    (hpays : Pays identity w' L (.checkpoint rs)) : Backed env limits identity (L.segId+1) [] rs :=
  backed_of_live hlive.represents rfl (by rw [List.nil_append,size_singleton]) hpays

theorem after_guarded (hup : Up env limits d w L) (hg : Guarded env limits identity L)
    (hlive : Live w' (c.after L)) (hpays : Pays identity w' L c) : Guarded env limits identity (c.after L) := by
  cases c with
  | write x rotate =>
    cases rotate with
    | false =>
      intro j hj hj'
      rcases Nat.lt_or_ge L.active.length j with hlt | hge
      · have hlen : (Change.after L (.write x false)).active.length≤j := by
          simp only [Change.after,List.length_append,List.length_singleton]
          exact hlt
        rw [List.take_of_length_le hlen]
        exact write_backed hlive hpays
      · have htake : (Change.after L (.write x false)).active.take j=L.active.take j :=
          List.take_append_of_le_length hge
        rw [htake]
        exact hg j hj hge
    | true => exact guarded_settled (rotate_backed hlive hpays)
  | checkpoint rs => exact guarded_settled (checkpoint_backed hlive hpays)
  | sync => exact guarded_settled (hg.full hup.rests.synced_le)

theorem image_backed (hg : Guarded env limits identity L) (hlive : Live w' (c.after L)) (hpays : Pays identity w' L c)
    {base : ℕ} {segs : List (List (Stored env limits))} {active : List (Stored env limits)}
    (himage : Image L c base segs active) : Backed env limits identity base segs active ∨ (∃ rs, c=.checkpoint rs) ∧
    base≤L.segId ∧ base+segs.length=L.segId+1 := by
  cases himage with
  | kept c j hj hj' => exact .inl (hg j hj hj')
  | written x rotate => exact .inl (write_backed hlive hpays)
  | rotated x => exact .inl (rotate_backed hlive hpays)
  | begun rs i hs =>
    refine .inr ⟨⟨_,rfl⟩,Nat.le_add_right ..,?_⟩
    simp [Layout.segId,Nat.add_assoc]
  | collected rs k hk hs =>
    refine .inr ⟨⟨_,rfl⟩,Nat.add_le_add_left hk _,?_⟩
    simp only [Layout.segId,List.length_drop,List.length_append,List.length_singleton]
    omega
  | replaced rs => exact .inl (checkpoint_backed hlive hpays)

end change

theorem rests_present (h : Rests Stored.body checksum d L t) {n : ℕ} (hlow : L.base≤n)
    (hhigh : n≤L.base+L.sealed.length) : (d.read n).isSome=true := by
  have hnames : (contents L t).map Prod.fst=List.range' L.base (L.sealed.length+1) := by
    rw [contents,List.map_map]
    exact under_names L.base L.sealed _
  have hmem : n∈(contents L t).map Prod.fst := by
    rw [hnames,List.mem_range'_1]
    omega
  obtain ⟨x,hx,rfl⟩:=List.mem_map.mp hmem
  rw [rests_read h hx]
  rfl

theorem crash_guarded (hlimits : limits.validate segmentMax=.ok ()) (hup : Up env limits d w L)
    (hg : Guarded env limits identity L) {op : Op} (hop : op.InRange) (budget kept : ℕ) (cut : ℕ → ℕ)
    (hsafe : ¬ Strands identity w op (crashedDisk env limits segmentMax identity d w op budget kept cut)) :
    ∃ L' t, Down env limits (crashedDisk env limits segmentMax identity d w op budget kept cut) L' t ∧
      Guarded env limits identity L' := by
  unfold crashedDisk at hsafe ⊢
  rcases op_cases hlimits hup hg op hop with hnone | ⟨c,o,heff,hlive,hfollows,hclears,hpays⟩
  · rw [hnone]
    obtain ⟨j,t,hj,hj',hdown⟩:=open_crash hlimits hup.down (Disk.stopped_refl _ d) kept cut
    exact ⟨_,t,hdown,guarded_settled (hg j hj hj')⟩
  · rw [heff] at hsafe ⊢
    rcases op_crash hlimits hup hlive hfollows (Disk.exec_stopped rfl) kept cut with hexposed | ⟨L',t,hcrash⟩
    · exact absurd ⟨hclears hexposed.1,hexposed.2.2⟩ hsafe
    · rcases image_backed hg hlive hpays hcrash.image with hbacked | ⟨⟨rs,rfl⟩,hlow,hhigh⟩
      · refine ⟨L',t,hcrash.down,?_⟩
        intro j hj hj'
        rw [hcrash.synced] at hj
        rw [List.take_of_length_le hj]
        exact hbacked
      · -- both segments are there: the crash was excluded
        refine absurd ⟨hclears hfollows.2.1,?_,?_⟩ hsafe
        · rw [hup.live.segId]
          exact rests_present hcrash.down.rests hlow (by omega)
        · rw [hup.live.segId]
          exact rests_present hcrash.down.rests (by omega) (by omega)

theorem first_guarded : Guarded env limits identity (first : Layout (Stored env limits)) := by
  apply guarded_settled
  refine ⟨emptyIndex,recover_spec (fun _ hi => items_sound hi) rfl,?_⟩
  constructor
  · intro s n hn
    simp [emptyIndex] at hn
  · intro p hp
    contradiction
  · exact fun _ => ⟨rfl,rfl⟩
  all_goals
    intro hne
    exact absurd rfl hne

theorem step_inv (hlimits : limits.validate segmentMax=.ok ()) (hinv : Inv env limits identity s)
    (hstep : Step env limits segmentMax identity (fun w op d' => ¬ Strands identity w op d') s s') :
    Inv env limits identity s' := by
  cases hstep with
  | @start plan budget left d' hwal hopen hrun =>
    unfold Inv at hinv
    rw [hwal] at hinv
    rcases hinv with hfresh | ⟨L,t,hdown,hg⟩
    · rw [open_fresh hlimits hfresh] at hopen
      cases hopen
      exact ⟨first,start_up hlimits hfresh (Disk.exec_completed hrun),first_guarded⟩
    · obtain ⟨x,hx,rfl⟩:=open_down_inv hlimits hdown hopen
      exact ⟨L,open_completes hdown hx (Disk.exec_completed hrun),hg⟩
  | @call w op budget left d' hwal hop hrun =>
    unfold Inv at hinv
    rw [hwal] at hinv
    obtain ⟨L,hup,hg⟩:=hinv
    rcases op_cases hlimits hup hg op hop with hnone | ⟨c,o,heff,hlive,-,-,hpays⟩
    · rw [hnone] at hrun ⊢
      obtain ⟨rfl,-⟩:=Prod.mk.inj hrun
      exact ⟨L,hup,hg⟩
    · rw [heff] at hrun
      exact ⟨c.after L,op_completes hlimits hup hlive (Disk.exec_completed hrun),after_guarded hup hg hlive hpays⟩
  | close =>
    unfold Inv at hinv ⊢
    cases hwal : s.wal with
    | none =>
      rw [hwal] at hinv
      exact hinv
    | some w =>
      rw [hwal] at hinv
      obtain ⟨L,hup,hg⟩:=hinv
      exact .inr ⟨L,[],hup.down,hg⟩
  | @crash w op budget kept cut hwal hop hallowed =>
    unfold Inv at hinv
    rw [hwal] at hinv
    obtain ⟨L,hup,hg⟩:=hinv
    exact .inr (crash_guarded hlimits hup hg hop budget kept cut hallowed)
  | @crashOpening plan budget kept cut hwal hopen =>
    unfold Inv at hinv
    rw [hwal] at hinv
    rcases hinv with hfresh | ⟨L,t,hdown,hg⟩
    · rw [open_fresh hlimits hfresh] at hopen
      cases hopen
      rcases start_crash hfresh (Disk.exec_stopped rfl) kept cut with hfresh' | hrests
      · exact .inl hfresh'
      · exact .inr ⟨first,[],first_down hlimits hrests,first_guarded⟩
    · obtain ⟨x,hx,rfl⟩:=open_down_inv hlimits hdown hopen
      obtain ⟨j,t',hj,hj',hdown'⟩:=open_crash hlimits hdown (Disk.exec_stopped rfl) kept cut
      exact .inr ⟨_,t',hdown',guarded_settled (hg j hj hj')⟩

theorem run_inv (hlimits : limits.validate segmentMax=.ok ())
    (hrun : Run env limits segmentMax identity (fun w op d' => ¬ Strands identity w op d') s) :
    Inv env limits identity s := by
  induction hrun with
  | refl => exact .inl ⟨Disk.empty_named,Disk.empty_history⟩
  | tail _ hstep ih => exact step_inv hlimits ih hstep

theorem ack_of_raises {names : List ℕ} {acks : Order (Stream × ℕ)} {endpoint sender : String}
    {seq watermarkBytes checkpointBytes : ℕ} (hw : w.failed=false) (hmax : limits.maxDiskBytes≤u64Max)
    (h : Raises env limits acks w endpoint sender seq watermarkBytes checkpointBytes) : ∃ plan,
    Wal.ack env limits names acks receipts w endpoint sender seq=.ok plan := by
  have hhealthy : w.healthy=.ok () := by
    unfold WalInner.healthy
    rw [hw]
    rfl
  have hdisk:=h.disk
  have hnew : ((w.acked.lookup (endpoint,sender)).any fun n => decide (seq≤n))=false := by
    cases hl : w.acked.lookup (endpoint,sender) with
    | none => rfl
    | some n => simpa using h.above n hl
  have hroom : ¬ ((w.acked.lookup (endpoint,sender)).isNone=true ∧
      w.acked.keys.length=limits.maxStreams) := by
    intro hfull
    exact h.streams (Option.isNone_iff_eq_none.mp hfull.1) hfull.2
  have hwatermark : watermarkAfter env limits w (endpoint,sender)=.ok watermarkBytes := by
    unfold watermarkAfter
    split
    · rename_i hsome
      rw [h.known hsome]
    · rename_i hnone
      exact h.new (by simpa using hnone)
  have hcheckpoint : checkpointAfter env limits acks w (endpoint,sender) (w.clears (endpoint,sender) seq) =
      .ok checkpointBytes := by
    unfold checkpointAfter
    split
    · rename_i hclears
      exact h.checkpoint hclears
    · rename_i hclears
      rw [h.none (by simpa using hclears)]
  have hadd : checkpointAdd (recordFrame env (ackRecord endpoint sender seq)).length checkpointBytes =
      .ok ((recordFrame env (ackRecord endpoint sender seq)).length+checkpointBytes) := by
    unfold checkpointAdd checkedAdd
    rw [if_pos (by omega)]
  have hensure : ensureDisk limits w
      ((recordFrame env (ackRecord endpoint sender seq)).length+checkpointBytes)=.ok () := if_pos hdisk
  have hsegment : ¬ (w.clears (endpoint,sender) seq=true ∧
      (w.segId=u64Max ∨ w.segments=limits.maxSegments)) := by
    intro hbad
    have hsafe:=h.segment hbad.1
    exact hbad.2.elim hsafe.1 hsafe.2
  simp only [Wal.ack,hhealthy,h.valid,bind,Except.bind,hnew,Bool.false_eq_true,if_false,if_neg hroom,hwatermark,
    encodeFrame_eq h.fits,hcheckpoint,hadd,hensure,if_neg hsegment]
  split
  · exact ⟨_,rfl⟩
  · exact ⟨_,rfl⟩

theorem Solvent.streams_room {segments segId n : ℕ}
    (h : Solvent env limits identity w.toIndex segments segId n) (hstreams : 0<limits.maxStreams)
    (hnone : w.acked.lookup identity.stream=none) : w.acked.keys.length≠limits.maxStreams := by
  rcases h.acked_entries with hempty | ⟨k,hone⟩
  · have hkeys : w.acked.keys=[] := by simp [AList.keys,hempty]
    rw [hkeys]
    exact hstreams.ne
  · have hlookup : w.acked.lookup identity.stream=some k :=
      AList.mem_lookup_iff.mpr (hone ▸ List.mem_singleton_self _)
    rw [hlookup] at hnone
    contradiction

theorem ack_accepted (hlimits : limits.validate segmentMax=.ok ()) (hup : Up env limits d w L)
    (hg : Guarded env limits identity L) {p : PendingRecord} (hp : w.pending.head? = some p)
    (names : List ℕ) (acks : Order (Stream × ℕ)) (receipts : Order Receipt) :
    Wal.ack env limits names acks receipts w identity.receiver identity.sender p.record.seq =
      .error "wal watermark byte budget exceeded" ∨
    ∃ plan, Wal.ack env limits names acks receipts w identity.receiver identity.sender p.record.seq = .ok plan := by
  have hsolvent:=live_solvent hup hg
  have hmem : p∈w.pending := List.mem_of_head? hp
  have hne : w.pending≠[] := List.ne_nil_of_mem hmem
  obtain ⟨hpos,hle,hend,hsend⟩:=pending_sound hup hmem
  obtain ⟨hreceiver,hsender⟩:=Prod.mk.inj (hsolvent.stream p hmem)
  obtain ⟨-,hisize,-,-,hstreams⟩:=validate_limits hlimits
  have hisizeMax : isizeMax≤u64Max := by decide
  have hhealthy : w.healthy=.ok () := by
    unfold WalInner.healthy
    rw [hup.live.healthy]
    rfl
  have hvalid : validateRecord (ackRecord identity.receiver identity.sender p.record.seq) true=.ok () := by
    rw [← hreceiver,← hsender]
    exact validate_ack.mpr ⟨hpos,hend,hsend⟩
  have hunacked : isAcked w.acked p.record=false := by
    have hpend : w.pending=(replay (items L.log)).pending := congrArg Value.pending hup.live.represents.value
    have huncovered:=replay_uncovered (hpend ▸ hmem)
    rw [← congrArg Value.acked hup.live.represents.value] at huncovered
    exact huncovered
  have habove : ∀ n, w.acked.lookup identity.stream=some n → n<p.record.seq := by
    intro n hn
    unfold isAcked at hunacked
    rw [hsolvent.stream p hmem,hn] at hunacked
    simpa using hunacked
  -- the reserve covers the marker and the checkpoint
  have hmarker:=@ackSize_le env identity p.record.seq hle
  have hdisk:=hsolvent.disk hne
  have hspare:=hsolvent.spare hne
  have hcount : identity.ackSize env≤w.pending.length*identity.ackSize env :=
    Nat.le_mul_of_pos_left _ (List.length_pos_of_ne_nil hne)
  have hraises : ∀ wb, ((w.acked.lookup identity.stream).isSome → wb=w.watermarkBytes) →
      (w.acked.lookup identity.stream=none →
        reserveWatermark env limits w.watermarkBytes identity.stream=.ok wb) →
      Raises env limits acks w identity.receiver identity.sender p.record.seq wb
        (if w.clears identity.stream p.record.seq then w.receipts.checkpointBytes else 0) := by
    intro wb hknown hnew
    constructor
    · exact hvalid
    · exact habove
    · exact hsolvent.streams_room hstreams
    · exact hknown
    · exact hnew
    · exact (env.ack_le _ _ _ hle).trans (hsolvent.marker hne)
    · intro hclears
      change w.clears identity.stream p.record.seq=true at hclears
      rw [if_pos hclears]
      exact hsolvent.checkpointSize_eq acks
    · intro hclears
      change w.clears identity.stream p.record.seq=false at hclears
      rw [if_neg (by simp [hclears])]
    · split
      · omega
      · omega
    · exact fun _ => ⟨hspare.2.ne,hspare.1.ne⟩
  cases hl : w.acked.lookup identity.stream with
  | some n =>
    refine .inr (ack_of_raises hup.live.healthy (by omega) (hraises w.watermarkBytes (fun _ => rfl) ?_))
    intro hnone
    rw [hl] at hnone
    contradiction
  | none =>
    cases hw : reserveWatermark env limits w.watermarkBytes identity.stream with
    | ok wb =>
      refine .inr (ack_of_raises hup.live.healthy (by omega) (hraises wb ?_ fun _ => hw))
      intro hsome
      rw [hl] at hsome
      contradiction
    | error e =>
      refine .inl ?_
      have he : e = "wal watermark byte budget exceeded" := by
        unfold reserveWatermark at hw
        split at hw
        · contradiction
        · exact (Except.error.inj hw).symm
      have hl' : w.acked.lookup (identity.receiver,identity.sender)=none := hl
      have hw' : reserveWatermark env limits w.watermarkBytes (identity.receiver,identity.sender)=.error e := hw
      have hroom : w.acked.keys.length≠limits.maxStreams := hsolvent.streams_room hstreams hl
      simp only [Wal.ack,hhealthy,hvalid,bind,Except.bind,hl',Option.any_none,Bool.false_eq_true,if_false,
        Option.isNone_none,true_and,if_neg hroom,watermarkAfter,Option.isSome_none,hw',he]

theorem emptied_eq (hup : Up env limits d w L) (hg : Guarded env limits identity L) (hnil : w.pending=[]) :
    emptied env w=w := by
  obtain ⟨hone,hsize⟩:=(live_solvent hup hg).idle hnil
  have hsegs:=hup.live.segments
  have hsealed : L.sealed=[] := List.length_eq_zero_iff.mp (by omega)
  have hsegBytes : w.segBytes=w.diskBytes := by
    rw [hup.live.segBytes,hup.live.diskBytes,Layout.log,hsealed,List.nil_append,size_singleton]
  have hbytes : w.pendingBytes=0 := by
    rw [hup.live.represents.ok.bytes,hnil]
    rfl
  unfold emptied
  rw [← hsize]
  obtain ⟨⟨acked,watermarkBytes,pending,pendingBytes,receipts⟩,segId,segBytes,diskBytes,segments,failed⟩:=w
  dsimp only at hnil hbytes hsegBytes hone ⊢
  rw [hnil,hbytes,hsegBytes,hone]

/- Every run whose crashes strand no segment keeps room for all acknowledgements. -/
theorem acks_stay_reserved (hlimits : limits.validate segmentMax=.ok ())
    (hrun : Run env limits segmentMax identity (fun w op d' => ¬ Strands identity w op d') s)
    (hwal : s.wal=some w) : Sustained env limits segmentMax identity s.disk w := by
  have hinv:=run_inv hlimits hrun
  unfold Inv at hinv
  rw [hwal] at hinv
  obtain ⟨L,hup,hg⟩:=hinv
  constructor
  · intro p hp acks receipts
    rcases ack_accepted hlimits hup hg hp (s.disk.dir.map Prod.fst) acks receipts with hrefused | ⟨plan,hplan⟩
    · exact .inl hrefused
    · refine .inr ⟨plan,hplan,?_⟩
      have hseq:=(pending_sound hup (List.mem_of_head? hp)).2.1
      rcases ack_pays hlimits hup hg hp hseq hplan with rfl | ⟨hresult,-⟩
      · rfl
      · exact hresult
  · intro hnil cmd seq plan hplan
    rwa [emptied_eq hup hg hnil] at hplan

end env

def narrowLimits : WalLimits := ⟨1024,65536,2,8,4096,4,4096,8,65536⟩

theorem narrowLimits_valid : narrowLimits.validate 4096=.ok () := by decide +kernel

def sampleIdentity : Identity := ⟨"node","/user/a","session"⟩
def sampleCommand : Command := ⟨none,none,"app::Order",[]⟩

def openedWal : WalInner := opened emptyIndex (first : Layout (Stored WalEnv.standard narrowLimits))
def openedSys : Sys := ⟨((Disk.empty : Disk ℕ).exec 2 start).1,some openedWal⟩

def acceptPlan : List (Effect ℕ) × WalInner :=
  (Op.append sampleCommand 1).plan WalEnv.standard narrowLimits 4096 sampleIdentity openedSys.disk openedWal

def acceptedSys : Sys := ⟨(openedSys.disk.exec 100 acceptPlan.1).1,some acceptPlan.2⟩

def syncPlan : List (Effect ℕ) × WalInner :=
  Op.sync.plan WalEnv.standard narrowLimits 4096 sampleIdentity acceptedSys.disk acceptPlan.2

def syncedSys : Sys := ⟨(acceptedSys.disk.exec 1 syncPlan.1).1,some syncPlan.2⟩

section runs
variable {Allowed : WalInner → Op → Disk ℕ → Prop}

theorem openedSys_run : Run WalEnv.standard narrowLimits 4096 sampleIdentity Allowed openedSys := by
  have hopen:=@open_fresh WalEnv.standard narrowLimits 4096 _ narrowLimits_valid
    (⟨Disk.empty_named,Disk.empty_history⟩ : Fresh (Disk.empty : Disk ℕ))
  have hrun : (Disk.empty : Disk ℕ).exec 2 start=(openedSys.disk,some 0) := rfl
  exact Relation.ReflTransGen.single
    (@Step.start WalEnv.standard narrowLimits 4096 sampleIdentity Allowed Sys.initial _ _ _ _ rfl hopen hrun)

theorem acceptedSys_run : Run WalEnv.standard narrowLimits 4096 sampleIdentity Allowed acceptedSys := by
  have hrun : openedSys.disk.exec 100 acceptPlan.1=(acceptedSys.disk,some 58) := Prod.ext rfl (by decide +kernel)
  exact openedSys_run.tail (.call rfl (show 1≤u64Max by decide) hrun)

theorem syncedSys_run : Run WalEnv.standard narrowLimits 4096 sampleIdentity Allowed syncedSys := by
  have hrun : acceptedSys.disk.exec 1 syncPlan.1=(syncedSys.disk,some 0) := Prod.ext rfl (by decide +kernel)
  exact acceptedSys_run.tail (.call rfl (show Op.sync.InRange from trivial) hrun)

end runs

theorem acks_stay_reserved_one :
    Sustained WalEnv.standard narrowLimits 4096 sampleIdentity acceptedSys.disk acceptPlan.2 :=
  acks_stay_reserved narrowLimits_valid acceptedSys_run rfl

/- The acknowledgement of the record is stopped when its checkpoint segment exists and is
empty. Reopened, the log has two segments, and the checkpoint needs a third. -/
def sampleAck : Op := .ack (.stored _) (.stored _)

def strandedDisk : Disk ℕ := crashedDisk WalEnv.standard narrowLimits 4096 sampleIdentity syncedSys.disk
  syncPlan.2 sampleAck 1 1 fun _ => 0

def reopenPlan : Plan Unit :=
  match openWithLimits WalEnv.standard narrowLimits 4096 strandedDisk with
  | .ok plan => plan
  | .error e => ⟨[],openedWal,.error e⟩

def reopenedSys : Sys := ⟨(strandedDisk.exec 1 reopenPlan.effects).1,some reopenPlan.wal⟩

def refusal {α : Type} : Except String α → Option String
  | .error e => some e
  | .ok _ => none

theorem reopenPlan_ok : openWithLimits WalEnv.standard narrowLimits 4096 strandedDisk=.ok reopenPlan := by
  have hsome : (openWithLimits WalEnv.standard narrowLimits 4096 strandedDisk).toBool=true := by
    decide +kernel
  unfold reopenPlan
  cases hp : openWithLimits WalEnv.standard narrowLimits 4096 strandedDisk with
  | error e =>
    rw [hp] at hsome
    contradiction
  | ok plan => rfl

theorem reopenedSys_run : Run WalEnv.standard narrowLimits 4096 sampleIdentity (fun _ _ _ => True) reopenedSys := by
  have hcrash : Run WalEnv.standard narrowLimits 4096 sampleIdentity (fun _ _ _ => True)
      ⟨strandedDisk,none⟩ :=
    syncedSys_run.tail (.crash rfl (show sampleAck.InRange from trivial) trivial)
  have hleft : (strandedDisk.exec 1 reopenPlan.effects).2=some 0 := by decide +kernel
  have hrun : strandedDisk.exec 1 reopenPlan.effects=((strandedDisk.exec 1 reopenPlan.effects).1,some 0) := by
    rw [← hleft]
  unfold reopenedSys
  exact hcrash.tail (.start rfl reopenPlan_ok hrun)

theorem acks_stay_reserved_stranded : ¬ ∀ (env : WalEnv) (limits : WalLimits) (segmentMax : ℕ) (identity : Identity)
    (s : Sys) (w : WalInner), limits.validate segmentMax=.ok () → 2≤limits.maxSegments → Run env limits segmentMax
    identity (fun _ _ _ => True) s → s.wal=some w → Sustained env limits segmentMax identity s.disk w := by
  intro hclaim
  have hsustained:=hclaim WalEnv.standard narrowLimits 4096 sampleIdentity reopenedSys reopenPlan.wal
    narrowLimits_valid (by decide) reopenedSys_run rfl
  have hfirst : (reopenPlan.wal.pending.head?.map fun p => p.record.seq)=some 1 := by decide +kernel
  obtain ⟨p,hp,hseq⟩:=Option.map_eq_some_iff.mp hfirst
  have hrefused : refusal (Wal.ack WalEnv.standard narrowLimits (reopenedSys.disk.dir.map Prod.fst)
      (.stored _) (.stored _) reopenPlan.wal sampleIdentity.receiver sampleIdentity.sender 1) =
      some "wal checkpoint segment budget exhausted" := by decide +kernel
  have hacks:=hsustained.acks p hp (.stored _) (.stored _)
  rw [hseq] at hacks
  generalize Wal.ack WalEnv.standard narrowLimits (reopenedSys.disk.dir.map Prod.fst) (.stored _) (.stored _)
    reopenPlan.wal sampleIdentity.receiver sampleIdentity.sender 1=outcome at hacks hrefused
  rcases hacks with rfl | ⟨plan,rfl,-⟩
  · exact absurd (Option.some.inj hrefused) (by decide)
  · exact absurd hrefused (Option.some_ne_none _).symm

end Parrot.Outbox
