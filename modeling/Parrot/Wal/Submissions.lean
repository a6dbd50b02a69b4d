import Parrot.Wal.Recovery

/-! # Keyed submissions

A receipt is kept by every call, by checkpoints and by closing and reopening the
log, so an identity is bound to its first sequence and content from then on. -/

namespace Parrot.Wal
open Machine
open Bincode (Bytes leBytes utf8)
open CrashFs (Disk)
open SegmentLog

def SameContent (r r' : WalRecord) : Prop :=
  r'.path=r.path ∧ r'.typeKey=r.typeKey ∧ r'.payload=r.payload

theorem part_inj {a a' rest rest' : Bytes} (ha : a.length<256^8) (ha' : a'.length<256^8)
    (h : leBytes 8 a.length++(a++rest)=leBytes 8 a'.length++(a'++rest')) : a=a' ∧ rest=rest' := by
  obtain ⟨hsize,htail⟩:=List.append_inj h (by simp)
  have hlen : a.length=a'.length := by
    rw [← Bincode.ofLeBytes_leBytes ha,hsize,Bincode.ofLeBytes_leBytes ha']
  exact List.append_inj htail hlen

theorem fingerprintInput_length (r : WalRecord) : (fingerprintInput r).length =
    (utf8 "parrot.outbox.submission.v1\x00").length+24+
      (r.path.utf8ByteSize+r.typeKey.utf8ByteSize+r.payload.length) := by
  simp only [fingerprintInput,List.map_cons,List.map_nil,List.flatten_cons,List.flatten_nil,
    List.length_append,Bincode.leBytes_length,Bincode.utf8_length,List.length_nil]
  omega

theorem fingerprintInput_inj {r r' : WalRecord}
    (hsize : r.path.utf8ByteSize+r.typeKey.utf8ByteSize+r.payload.length<256^8)
    (h : fingerprintInput r'=fingerprintInput r) : SameContent r r' := by
  have hlen:=congrArg List.length h
  rw [fingerprintInput_length,fingerprintInput_length] at hlen
  have hpath:=Bincode.utf8_length r.path
  have hkey:=Bincode.utf8_length r.typeKey
  have hpath':=Bincode.utf8_length r'.path
  have hkey':=Bincode.utf8_length r'.typeKey
  simp only [fingerprintInput,List.map_cons,List.map_nil,List.flatten_cons,List.flatten_nil,List.append_assoc] at h
  obtain ⟨h1,h⟩:=part_inj (by omega) (by omega) (List.append_cancel_left h)
  obtain ⟨h2,h⟩:=part_inj (by omega) (by omega) h
  obtain ⟨h3,-⟩:=part_inj (by omega) (by omega) h
  exact ⟨Bincode.utf8_inj h1,Bincode.utf8_inj h2,h3⟩

theorem fingerprintInput_same {r r' : WalRecord} (h : SameContent r r') : fingerprintInput r'=fingerprintInput r := by
  unfold fingerprintInput
  rw [h.1,h.2.1,h.2.2]

section env
variable (env : WalEnv) (limits : WalLimits) (segmentMax : ℕ)

def Clean (s s' : Sys) : Prop :=
  Step env limits segmentMax (fun _ _ _ _ => True) s s' ∧ s'.proc ≠ .crashed

/-- The identity `id` is bound to `seq` and to the content of `r`. -/
structure Settled (w : WalInner) (r : WalRecord) (id : String) (seq : ℕ) : Prop where
  repeated : ∀ r' parent, r'.stream=r.stream → SameContent r r' → r'.seq≠0 →
    appendSubmissionWithParent env limits segmentMax w r' (some id) parent=.ok ⟨[],w,.ok (seq,false)⟩
  conflicting : ∀ r' parent, r'.stream=r.stream → ¬ SameContent r r' →
    (env.digest (fingerprintInput r')=env.digest (fingerprintInput r) →
      fingerprintInput r'=fingerprintInput r) →
    ∃ e, appendSubmissionWithParent env limits segmentMax w r' (some id) parent=.error e

def Holds (s : Sys) (key : String × String × String) (g : Receipt) : Prop :=
  match s.proc with
  | .up w => ∃ L, Up env limits s.disk w L ∧ w.receipts.entries.lookup key=some g
  | .exited => ∃ L, Down env limits s.disk L [] ∧ (replay (items L.log)).receipts key=some g
  | .crashed => False

variable {env limits segmentMax} {d d' : Disk ℕ} {w : WalInner} {L : Layout (Stored env limits)}
  {key : String × String × String} {g : Receipt} {s s' : Sys}

theorem live_receipts (h : Live w L) : w.receipts.entries.lookup key=(replay (items L.log)).receipts key :=
  congrFun (congrArg Value.receipts h.represents.value) key

section
variable (hlimits : limits.validate segmentMax=.ok ())
include hlimits

theorem op_keeps (h : Up env limits d w L) {op : WalOp}
    (hop : op.InRange) (hg : w.receipts.entries.lookup key=some g) :
    (op.plan env limits segmentMax d w).2.receipts.entries.lookup key=some g := by
  rcases op_cases hlimits h op hop with hnone | ⟨c,-,hlive,hfollows⟩
  · rw [hnone]
    exact hg
  · rw [live_receipts h.live] at hg
    obtain ⟨i,hi,hreceipt,rfl⟩:=replay_receipts hg
    cases c with
    | write x rotate =>
      have hmem : i∈items ((Change.write x rotate).after L).log := by
        have hitems : items ((Change.write x rotate).after L).log=items L.log++[x.item] := by
          cases rotate <;> simp [Change.after,Layout.log,items]
        rw [hitems]
        exact List.mem_append_left _ hi
      exact hlive.represents.consistent i hmem g hreceipt
    | checkpoint rs => exact (hfollows.1.old i hi).receipt g hreceipt
    | sync => exact hlive.represents.consistent i hi g hreceipt

theorem clean_holds (h : Holds env limits s key g)
    (hstep : Clean env limits segmentMax s s') : Holds env limits s' key g := by
  obtain ⟨hstep,hup⟩:=hstep
  cases hstep with
  | start hproc hopen hrun =>
    unfold Holds at h
    rw [hproc] at h
    contradiction
  | restart hproc hopen hrun =>
    unfold Holds at h
    rw [hproc] at h
    obtain ⟨L,hdown,hg⟩:=h
    obtain ⟨x,hx,rfl⟩:=open_down_inv hlimits hdown hopen
    have hlive:=open_completes hdown hx (Disk.exec_completed hrun)
    exact ⟨L,hlive,by rw [live_receipts hlive.live]; exact hg⟩
  | call hproc hop hrun =>
    unfold Holds at h
    rw [hproc] at h
    obtain ⟨L,hlive,hg⟩:=h
    obtain ⟨L',hlive'⟩:=call_up hlimits hlive hop (Disk.exec_completed hrun)
    exact ⟨L',hlive',op_keeps hlimits hlive hop hg⟩
  | exit hproc =>
    unfold Holds at h
    rw [hproc] at h
    obtain ⟨L,hlive,hg⟩:=h
    exact ⟨L,hlive.down,by rw [← live_receipts hlive.live]; exact hg⟩
  | crash | crashOpening => contradiction

theorem run_holds (h : Holds env limits s key g)
    (hrun : Relation.ReflTransGen (Clean env limits segmentMax) s s') : Holds env limits s' key g := by
  induction hrun with
  | refl => exact h
  | tail _ hstep ih => exact clean_holds hlimits ih hstep

end

theorem validate_same {r r' : WalRecord} (h : validateRecord r false=.ok ()) (hstream : r'.stream=r.stream)
    (hsame : SameContent r r') (hseq : r'.seq≠0) : validateRecord r' false=.ok () := by
  obtain ⟨-,hend,hsend,hkey,hsub,hres,hack⟩:=validate_business h
  obtain ⟨he,hs⟩:=Prod.mk.inj hstream
  unfold validateRecord
  rw [if_neg]
  simp [hseq,he,hs,hsame.2.1,hend,hsend,hkey,hsub,hres,hack]

variable {id : String}

theorem lookup_known {r r' : WalRecord} (hid : validateId id=.ok ())
    (hg : w.receipts.entries.lookup (r.endpoint,r.sender,id)=some (receiptOf env r id))
    (hstream : r'.stream=r.stream) : w.receipts.lookup env r' id =
      if fingerprint env r=fingerprint env r' then .ok (some r.seq)
      else .error "submission ID conflicts with previously accepted content" := by
  obtain ⟨he,hs⟩:=Prod.mk.inj hstream
  unfold ReceiptIndex.lookup
  rw [hid,he,hs]
  simp only [bind,Except.bind,hg]
  rfl

theorem settled_of_receipt {r : WalRecord} (hhealthy : w.failed=false) (hvalid : validateRecord r false=.ok ())
    (hid : validateId id=.ok ()) (hsize : r.path.utf8ByteSize+r.typeKey.utf8ByteSize+r.payload.length<256^8)
    (hg : w.receipts.entries.lookup (r.endpoint,r.sender,id)=some (receiptOf env r id)) :
    Settled env limits segmentMax w r id r.seq := by
  have hw : w.healthy=.ok () := by
    unfold WalInner.healthy
    rw [hhealthy]
    rfl
  constructor
  · intro r' parent hstream hsame hseq
    have hlookup:=lookup_known hid hg hstream
    rw [if_pos (by rw [fingerprint,fingerprint,fingerprintInput_same hsame])] at hlookup
    unfold appendSubmissionWithParent
    rw [hw,validate_same hvalid hstream hsame hseq]
    simp only [bind,Except.bind,lookupSubmission,hlookup]
    rfl
  · intro r' parent hstream hdiffer hfree
    have hlookup:=lookup_known hid hg hstream
    have hne : ¬ fingerprint env r=fingerprint env r' := by
      intro heq
      exact hdiffer (fingerprintInput_inj hsize (hfree heq.symm))
    rw [if_neg hne] at hlookup
    unfold appendSubmissionWithParent
    rw [hw]
    cases hv : validateRecord r' false with
    | error e => exact ⟨e,by simp only [bind,Except.bind]⟩
    | ok u =>
      refine ⟨"submission ID conflicts with previously accepted content",?_⟩
      simp only [bind,Except.bind,lookupSubmission,hlookup]

theorem admitted_size (hrecord : limits.maxRecordBytes≤wireLimit) {r stored : WalRecord}
    {parent : Option TraceParent} {receipt : Option Receipt} {bytes : ℕ}
    (h : Admitted env limits segmentMax w r (some id) parent stored receipt bytes) :
    validateId id=.ok () ∧ r.path.utf8ByteSize+r.typeKey.utf8ByteSize+r.payload.length<256^8 := by
  obtain ⟨inner,hwrap,hcausal⟩:=h.wraps
  simp only [wrapSubmission] at hwrap
  obtain ⟨⟨x,g⟩,hw,heq⟩:=bind_eq_ok.mp hwrap
  obtain ⟨rfl,-⟩ : x=inner ∧ some g=receipt := by simpa [pure,Except.pure] using heq
  obtain ⟨hid,-,-,rfl⟩:=submissionWrap_ok hw
  obtain ⟨-,hpay,hshape⟩:=causalWrap_fields hcausal
  have hpath : stored.path=r.path := by
    rcases hshape with ⟨-,rfl⟩ | ⟨payload,rfl⟩ <;> rfl
  have h1:=env.path_le stored
  have h2:=env.payload_le stored
  have h3:=env.acceptance_le ⟨id,r.typeKey,r.payload⟩
  have h4:=h.fits
  dsimp only at hpay h3
  rw [hpath] at h1
  have hwire : wireLimit=16777216 := rfl
  exact ⟨hid,by omega⟩

theorem keyed_append (hlimits : limits.validate segmentMax=.ok ()) (h : Up env limits d w L) {r : WalRecord}
    (hseq : r.seq≤u64Max) {parent : Option TraceParent} {plan : Plan (ℕ × Bool)} {seq : ℕ}
    (hplan : appendSubmissionWithParent env limits segmentMax w r (some id) parent=.ok plan)
    (hresult : plan.result=.ok (seq,true)) : seq=r.seq ∧ validateRecord r false=.ok () ∧ validateId id=.ok () ∧
    r.path.utf8ByteSize+r.typeKey.utf8ByteSize+r.payload.length<256^8 ∧
    plan.wal.receipts.entries.lookup (r.endpoint,r.sender,id)=some (receiptOf env r id) := by
  obtain ⟨hrecord,-⟩:=validate_limits hlimits
  rcases append_cases hplan with ⟨n,rfl⟩ | ⟨stored,receipt,bytes,hadm,rfl⟩
  · have hfalse:=(Prod.mk.inj (Except.ok.inj hresult)).2
    contradiction
  · obtain ⟨x,hitem,-,hid,-,-,hres,hlive,-⟩:=append_live hrecord h.live hseq hadm rfl
    obtain ⟨hvalid,hsize⟩:=admitted_size hrecord hadm
    have hreceipt : x.item.receipt=some (receiptOf env r id) := by
      rw [hitem]
      exact hid id rfl
    have hitems : x.item∈items ((Change.write x
        (decide (w.segBytes+(recordFrame env stored).length≥segmentMax))).after L).log := by
      cases decide (w.segBytes+(recordFrame env stored).length≥segmentMax) <;> simp [Change.after,Layout.log,items]
    refine ⟨?_,hadm.valid,hvalid,hsize,hlive.represents.consistent _ hitems _ hreceipt⟩
    exact (Prod.mk.inj (Except.ok.inj (hresult.symm.trans hres))).1

/- Whatever calls, checkpoints and clean restarts follow, an identity keeps the sequence
and the content it was first accepted with. -/
theorem keyed_idempotency (hlimits : limits.validate segmentMax=.ok ())
    (hrun : Run env limits segmentMax (fun d w op d' => ¬ Exposed d w op d') s) (hproc : s.proc=.up w) :
    (∀ a∈w.receipts.iter, ∀ b∈w.receipts.iter, a.endpoint=b.endpoint → a.sender=b.sender → a.seq=b.seq →
    a.saved.requestId=b.saved.requestId) ∧ w.receipts.checkpointBytes =
    (w.receipts.iter.map fun g => (recordFrame env (g.record env)).length).sum ∧
    ∀ (r : WalRecord) (id : String) (parent : Option TraceParent) (plan : Plan (ℕ × Bool)) (seq : ℕ), r.seq≤u64Max →
    appendSubmissionWithParent env limits segmentMax w r (some id) parent=.ok plan → plan.result=.ok (seq,true) →
    ∀ (budget left : ℕ) (d' : Disk ℕ) (since : List Value), s.disk.exec budget plan.effects=(d',some left) →
    ∀ (s' : Sys) (w' : WalInner), Relation.ReflTransGen (Clean env limits segmentMax) ⟨d',.up plan.wal,since⟩ s' →
    s'.proc=.up w' → Settled env limits segmentMax w' r id seq := by
  have hinv:=run_inv hlimits hrun
  unfold Inv at hinv
  rw [hproc] at hinv
  obtain ⟨L,hup,-⟩:=hinv
  have hok:=hup.live.represents.ok.acks.receipts
  refine ⟨?_,?_,?_⟩
  · intro a ha b hb he hs hseq
    obtain ⟨ka,hka⟩:=ReceiptIndex.mem_iter.mp ha
    obtain ⟨kb,hkb⟩:=ReceiptIndex.mem_iter.mp hb
    have h1:=(hok.owned a.endpoint a.sender a.seq a.saved.requestId).mpr
      ⟨a,by rw [← hok.keyed ka a hka] at hka; exact hka,rfl⟩
    have h2:=(hok.owned b.endpoint b.sender b.seq b.saved.requestId).mpr
      ⟨b,by rw [← hok.keyed kb b hkb] at hkb; exact hkb,rfl⟩
    rw [← he,← hs,← hseq] at h2
    exact Option.some.inj (h1.symm.trans h2)
  · have hcheck : w.receipts.checkpointBytes=w.receipts.encoded env := hok.checkpoint
    rw [hcheck,ReceiptIndex.encoded]
    simp only [recordFrame_length]
  · intro r id parent plan seq hseq hplan hresult budget left d' since hexec s' w' hclean hproc'
    obtain ⟨rfl,hvalid,hid,hsize,hreceipt⟩:=keyed_append hlimits hup hseq hplan hresult
    have hcall : (WalOp.append r (some id) parent).plan env limits segmentMax s.disk w =
        (plan.effects,plan.wal) := by
      simp only [WalOp.plan,hplan]
      rfl
    have hrange : (WalOp.append r (some id) parent).InRange := hseq
    have hafter : ∃ L', Up env limits d' plan.wal L' := by
      have hcomp:=Disk.exec_completed hexec
      have hnext:=@call_up env limits segmentMax s.disk d' w L _ hlimits hup hrange
      rw [hcall] at hnext
      exact hnext hcomp
    obtain ⟨L',hup'⟩:=hafter
    have hholds : Holds env limits ⟨d',.up plan.wal,since⟩ (r.endpoint,r.sender,id) (receiptOf env r id) :=
      ⟨L',hup',hreceipt⟩
    have hend:=run_holds hlimits hholds hclean
    unfold Holds at hend
    rw [hproc'] at hend
    obtain ⟨L'',hup'',hg⟩:=hend
    exact settled_of_receipt hup''.live.healthy hvalid hid hsize hg

end env

def keyedRecord : WalRecord := ⟨"node","node",1,"/user/a","app::Order",[]⟩

def keyedPlan : Plan (ℕ × Bool) :=
  match appendSubmissionWithParent WalEnv.standard smallLimits 4096 smallWal keyedRecord (some "k") none with
  | .ok plan => plan
  | .error e => ⟨[],smallWal,.error e⟩

theorem keyedPlan_ok : appendSubmissionWithParent WalEnv.standard smallLimits 4096 smallWal keyedRecord
    (some "k") none=.ok keyedPlan := by
  have hsome : (appendSubmissionWithParent WalEnv.standard smallLimits 4096 smallWal keyedRecord
    (some "k") none).toBool=true := by decide +kernel
  unfold keyedPlan
  cases hp : appendSubmissionWithParent WalEnv.standard smallLimits 4096 smallWal keyedRecord (some "k")
      none with
  | error e =>
    rw [hp] at hsome
    contradiction
  | ok plan => rfl

theorem keyedPlan_result : keyedPlan.result=.ok (1,true) := by decide +kernel

def keyedSys : Sys := ⟨(smallSys.disk.exec 100 keyedPlan.effects).1,.up keyedPlan.wal,[]⟩

theorem keyedPlan_exec : smallSys.disk.exec 100 keyedPlan.effects=(keyedSys.disk,some 40) :=
  Prod.ext rfl (by decide +kernel)

theorem keyed_idempotency_small :
    Settled WalEnv.standard smallLimits 4096 keyedPlan.wal keyedRecord "k" 1 :=
  (keyed_idempotency smallLimits_valid smallSys_run rfl).2.2 keyedRecord "k" none keyedPlan 1 (by decide)
    keyedPlan_ok keyedPlan_result 100 40 keyedSys.disk [] keyedPlan_exec keyedSys keyedPlan.wal .refl rfl

/- The sequence of a repeated submission is checked before the submission is recognised. -/
theorem keyed_idempotency_zero : ¬ ∀ (env : WalEnv) (limits : WalLimits) (segmentMax : ℕ) (s s' : Sys)
    (w w' : WalInner) (r r' : WalRecord) (id : String) (parent parent' : Option TraceParent) (plan : Plan (ℕ × Bool))
    (seq budget left : ℕ) (d' : Disk ℕ) (since : List Value), limits.validate segmentMax=.ok () →
    Run env limits segmentMax (fun d w op d' => ¬ Exposed d w op d') s → s.proc=.up w → r.seq≤u64Max →
    appendSubmissionWithParent env limits segmentMax w r (some id) parent=.ok plan → plan.result=.ok (seq,true) →
    s.disk.exec budget plan.effects=(d',some left) → Relation.ReflTransGen (Clean env limits segmentMax)
    ⟨d',.up plan.wal,since⟩ s' → s'.proc=.up w' → r'.stream=r.stream → SameContent r r' →
    appendSubmissionWithParent env limits segmentMax w' r' (some id) parent' = .ok ⟨[],w',.ok (seq,false)⟩ := by
  intro hclaim
  have hbad:=hclaim WalEnv.standard smallLimits 4096 smallSys keyedSys smallWal keyedPlan.wal keyedRecord
    {keyedRecord with seq:=0} "k" none none keyedPlan 1 100 40 keyedSys.disk [] smallLimits_valid
    smallSys_run rfl (by decide) keyedPlan_ok keyedPlan_result keyedPlan_exec .refl rfl rfl ⟨rfl,rfl,rfl⟩
  have hrefused : (appendSubmissionWithParent WalEnv.standard smallLimits 4096 keyedPlan.wal
      {keyedRecord with seq:=0} (some "k") none).toBool=false := by decide +kernel
  rw [hbad] at hrefused
  contradiction

end Parrot.Wal
