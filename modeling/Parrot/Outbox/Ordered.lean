import Parrot.Outbox.Worker
import Parrot.Wal.Recovery

/-! # The records of an outbox

What the log of an outbox says is always a list of contents, numbered from one, and how many of
them are acknowledged. -/

namespace Parrot.Outbox
open Machine Wal
open Bincode (Bytes)
open CrashFs (Disk Effect)
open SegmentLog

section records
variable {identity : Identity} {cs : List Content} {n : ℕ}

theorem records_append (xs ys : List Content) :
    identity.records n (xs++ys)=identity.records n xs++identity.records (n+xs.length) ys := by
  induction xs generalizing n with
  | nil => rfl
  | cons c xs ih =>
    simp only [List.cons_append,Identity.records,ih,List.length_cons]
    rw [Nat.add_right_comm,Nat.add_assoc]

theorem records_length : (identity.records n cs).length=cs.length := by
  induction cs generalizing n with
  | nil => rfl
  | cons c cs ih => simp [Identity.records,ih]

theorem mem_records {r : WalRecord} :
    r∈identity.records n cs ↔ ∃ i c, cs[i]? = some c ∧ r=identity.recordOf c (n+i+1) := by
  induction cs generalizing n with
  | nil => simp [Identity.records]
  | cons c cs ih =>
    rw [Identity.records,List.mem_cons,ih]
    constructor
    · intro h
      rcases h with rfl | ⟨i,x,hx,rfl⟩
      · exact ⟨0,c,rfl,rfl⟩
      · exact ⟨i+1,x,hx,by rw [Nat.add_right_comm n 1 i,Nat.add_assoc n i 1]⟩
    · intro h
      obtain ⟨i,x,hx,rfl⟩:=h
      cases i with
      | zero => exact .inl (by rw [Option.some.inj hx])
      | succ i => exact .inr ⟨i,x,hx,by rw [Nat.add_right_comm n 1 i,Nat.add_assoc n i 1]⟩

theorem records_filter (c : Content) : (identity.records n (c::cs)).filter
    (fun r => !(r.stream==identity.stream&&decide (r.seq≤n+1)))=identity.records (n+1) cs := by
  rw [Identity.records,List.filter_cons_of_neg,List.filter_eq_self]
  · intro r hr
    obtain ⟨i,x,-,rfl⟩:=mem_records.mp hr
    have hlater : ¬ n+1+i+1≤n+1 := by omega
    simp [Identity.recordOf,hlater]
  · simp [Identity.recordOf,WalRecord.stream,Identity.stream]

end records

structure Spells (identity : Identity) (v : Value) (cs : List Content) (a : ℕ) : Prop where
  acked_le : a≤cs.length
  acked : v.acked identity.stream=if a=0 then none else some a
  pending : v.pending.map PendingRecord.record=identity.records a (cs.drop a)
  receipts : ∀ key r, v.receipts key=some r → r.seq≠0 ∧ r.seq≤cs.length

section values
variable {env : WalEnv} {limits : WalLimits} {segmentMax : ℕ} {identity : Identity} {d d' : Disk ℕ}
  {w : WalInner} {L : Layout (Stored env limits)} {cs : List Content} {a : ℕ} {v : Value}

theorem empty_spells : Spells identity Value.empty [] 0 := by
  refine ⟨le_rfl,rfl,rfl,?_⟩
  intro key r h
  contradiction

section
variable (h : Spells identity v cs a)
include h

theorem Spells.acked_getD : (v.acked identity.stream).getD 0=a := by
  rw [h.acked]
  split
  · rename_i hzero
    exact hzero.symm
  · rfl

theorem Spells.acked_eq {n : ℕ} (hn : v.acked identity.stream=some n) : n=a ∧ n≠0 := by
  rw [h.acked] at hn
  split at hn
  · contradiction
  · rename_i hne
    cases hn
    exact ⟨rfl,hne⟩

theorem Spells.pending_length : v.pending.length=cs.length-a := by
  have hlen:=congrArg List.length h.pending
  rwa [List.length_map,records_length,List.length_drop] at hlen

theorem Spells.mem_pending {p : PendingRecord} (hp : p∈v.pending) :
    ∃ i, cs[i]? = some (content p.record) ∧ p.record=identity.recordOf (content p.record) (i+1) := by
  have hmem : p.record∈v.pending.map PendingRecord.record := List.mem_map_of_mem hp
  rw [h.pending] at hmem
  obtain ⟨i,c,hc,heq⟩:=mem_records.mp hmem
  rw [List.getElem?_drop] at hc
  rw [heq]
  exact ⟨a+i,hc,rfl⟩

theorem Spells.pending_of {i : ℕ} {c : Content} (hi : cs[i]? = some c)
    (ha : a ≤ i) : ∃ p∈v.pending, p.record=identity.recordOf c (i+1) := by
  have hmem : identity.recordOf c (i+1)∈v.pending.map PendingRecord.record := by
    rw [h.pending,mem_records]
    refine ⟨i-a,c,?_,by rw [Nat.add_sub_cancel' ha]⟩
    rw [List.getElem?_drop,Nat.add_sub_cancel' ha]
    exact hi
  exact List.mem_map.mp hmem

end

theorem Spells.unacked (h : Spells identity w.value cs a) {r : WalRecord} (hstream : r.stream=identity.stream)
    (hseq : cs.length < r.seq) : isAcked w.acked r=false := by
  unfold isAcked
  rw [hstream]
  have hacked : (w.acked.lookup identity.stream).getD 0=a := h.acked_getD
  cases hl : w.acked.lookup identity.stream with
  | none => rfl
  | some n =>
    rw [hl] at hacked
    have hle:=h.acked_le
    simp only [Option.getD_some] at hacked
    simp only [Option.any_some,decide_eq_false_iff_not]
    omega

variable {plan : Plan (ℕ × Bool)}

theorem append_new {r : WalRecord} {id : Option String} {parent : Option TraceParent}
    (hunknown : lookupSubmission env w.receipts r id=.ok none) (hunacked : isAcked w.acked r=false)
    (h : appendSubmissionWithParent env limits segmentMax w r id parent=.ok plan) : ∃ stored receipt bytes,
    Admitted env limits segmentMax w r id parent stored receipt bytes ∧ plan=appendPlan env limits w r parent receipt
    bytes (recordFrame env stored) (decide (w.segBytes+(recordFrame env stored).length≥segmentMax)) := by
  rcases append_cases h with ⟨seq,rfl⟩ | hadmitted
  · -- the call that writes nothing found the record acknowledged or its identity known
    exfalso
    unfold appendSubmissionWithParent at h
    obtain ⟨-,-,h⟩:=bind_eq_ok.mp h
    obtain ⟨-,-,h⟩:=bind_eq_ok.mp h
    obtain ⟨known,hknown,h⟩:=bind_eq_ok.mp h
    obtain rfl:=Except.ok.inj (hunknown.symm.trans hknown)
    dsimp only at h
    rw [if_neg (by simp [hunacked])] at h
    obtain ⟨⟨inner,receipt⟩,-,h⟩:=bind_eq_ok.mp h
    obtain ⟨-,-,h⟩:=bind_eq_ok.mp h
    obtain ⟨bytes,-,h⟩:=bind_eq_ok.mp h
    obtain ⟨stored,-,h⟩:=bind_eq_ok.mp h
    obtain ⟨frame,-,h⟩:=bind_eq_ok.mp h
    obtain ⟨-,-,h⟩:=bind_eq_ok.mp h
    dsimp only at h
    split at h
    · contradiction
    · have heffects:=congrArg Plan.effects (Except.ok.inj h)
      unfold appendPlan at heffects
      split at heffects
      · contradiction
      · dsimp only at heffects
        split at heffects
        · contradiction
        · contradiction
  · exact hadmitted

theorem append_spells (hlimits : limits.validate segmentMax=.ok ()) (hup : Up env limits d w L)
    (h : Spells identity w.value cs a) {cmd : Command} (hle : cs.length+1≤u64Max)
    (hunknown : lookupSubmission env w.receipts (identity.record cmd (cs.length+1)) cmd.requestId=.ok none)
    (hplan : appendSubmissionWithParent env limits segmentMax w (identity.record cmd (cs.length+1)) cmd.requestId
      cmd.parent=.ok plan) :
    plan.result=.ok (cs.length+1,true) ∧ Spells identity plan.wal.value (cs++[cmd.content]) a := by
  obtain ⟨hrecord,-⟩:=validate_limits hlimits
  have hunacked : isAcked w.acked (identity.record cmd (cs.length+1))=false := h.unacked rfl (Nat.lt_succ_self _)
  obtain ⟨stored,receipt,bytes,hadm,rfl⟩:=append_new hunknown hunacked hplan
  obtain ⟨s,hitem,-,hkeyed,hplain,-,hresult,-,hvalue⟩:=append_live hrecord hup.live hle hadm rfl
  obtain ⟨-,-,-,-,-,-,hack⟩:=validate_business hadm.valid
  have hold:=hup.live.represents.value
  have hnew : covered (replay (items L.log)).acked ⟨identity.record cmd (cs.length+1),cmd.parent⟩=false := by
    rw [← congrArg Value.acked hold]
    exact hunacked
  refine ⟨hresult,?_⟩
  rw [hvalue,hitem,apply_message hack hnew]
  have hspell : Spells identity (replay (items L.log)) cs a := hold ▸ h
  refine ⟨?_,hspell.acked,?_,?_⟩
  · rw [List.length_append]
    exact hspell.acked_le.trans (Nat.le_add_right ..)
  · rw [List.map_append,hspell.pending,List.drop_append_of_le_length hspell.acked_le,records_append,
      List.length_drop,Nat.add_sub_cancel' hspell.acked_le]
    rfl
  · intro key r hr
    rw [List.length_append,List.length_singleton]
    have hearlier : ∀ r, (replay (items L.log)).receipts key=some r → r.seq≠0 ∧ r.seq≤cs.length+1 := by
      intro r hr
      obtain ⟨hpos,hle'⟩:=hspell.receipts key r hr
      exact ⟨hpos,by omega⟩
    cases hreceipt : receipt with
    | none =>
      rw [hreceipt] at hr
      exact hearlier r hr
    | some g =>
      have hg : g.seq=cs.length+1 := by
        cases hid : cmd.requestId with
        | none =>
          rw [hplain hid] at hreceipt
          contradiction
        | some i =>
          rw [hkeyed i hid] at hreceipt
          rw [← Option.some.inj hreceipt]
          rfl
      rw [hreceipt] at hr
      simp only [record,Function.update_apply] at hr
      split at hr
      · cases hr
        rw [hg]
        exact ⟨Nat.succ_ne_zero _,le_rfl⟩
      · exact hearlier r hr

theorem known_spells (h : Spells identity w.value cs a) {r : WalRecord} {id : Option String} {n : ℕ}
    (hknown : lookupSubmission env w.receipts r id=.ok (some n)) : id≠none ∧ n≠0 ∧ n≤cs.length := by
  cases id with
  | none =>
    have hnone:=Except.ok.inj hknown
    contradiction
  | some id =>
    obtain ⟨_,-,hlook⟩:=bind_eq_ok.mp hknown
    cases hl : w.receipts.entries.lookup (r.endpoint,r.sender,id) with
    | none =>
      rw [hl] at hlook
      have hnone:=Except.ok.inj hlook
      contradiction
    | some receipt =>
      rw [hl] at hlook
      dsimp only at hlook
      split at hlook
      · obtain rfl:=Option.some.inj (Except.ok.inj hlook)
        exact ⟨Option.some_ne_none _,h.receipts (r.endpoint,r.sender,id) receipt hl⟩
      · contradiction

theorem appendForGroup_split {cmd : Command} {seq : ℕ}
    (h : appendForGroup env limits segmentMax w identity cmd seq=.ok plan) :
    (∃ n, lookupSubmission env w.receipts (identity.record cmd seq) cmd.requestId=.ok (some n) ∧
    plan=⟨[],w,.ok (n,false)⟩) ∨ lookupSubmission env w.receipts (identity.record cmd seq) cmd.requestId=.ok none ∧
    seq≠0 ∧ appendSubmissionWithParent env limits segmentMax w (identity.record cmd seq) cmd.requestId cmd.parent =
    .ok plan := by
  unfold appendForGroup at h
  obtain ⟨-,-,h⟩:=bind_eq_ok.mp h
  obtain ⟨known,hknown,h⟩:=bind_eq_ok.mp h
  cases known with
  | some n => exact .inl ⟨n,hknown,(Except.ok.inj h).symm⟩
  | none =>
    dsimp only at h
    split at h
    · contradiction
    · rename_i hseq
      obtain ⟨⟨inner,extra⟩,-,h⟩:=bind_eq_ok.mp h
      obtain ⟨stored,-,h⟩:=bind_eq_ok.mp h
      obtain ⟨recordSize,-,h⟩:=bind_eq_ok.mp h
      obtain ⟨ackSize,-,h⟩:=bind_eq_ok.mp h
      dsimp only at h
      split at h
      · contradiction
      · obtain ⟨_,-,h⟩:=bind_eq_ok.mp h
        split at h
        · contradiction
        · exact .inr ⟨hknown,hseq,h⟩

theorem ack_spells (hlimits : limits.validate segmentMax=.ok ()) (hup : Up env limits d w L)
    (h : Spells identity w.value cs a) {p : PendingRecord} (hp : w.pending.head? = some p)
    {acks : Order (Stream × ℕ)} {receipts : Order Receipt} {plan : Plan Unit}
    (hplan : Wal.ack env limits (d.dir.map Prod.fst) acks receipts w identity.receiver identity.sender
      p.record.seq=.ok plan) :
    plan.result=.ok () ∧ ∃ a'≤p.record.seq, Spells identity plan.wal.value cs a' := by
  obtain ⟨rest,hpending⟩ : ∃ rest, w.pending=p::rest := by
    cases hw : w.pending with
    | nil =>
      rw [hw] at hp
      contradiction
    | cons q rest =>
      rw [hw] at hp
      exact ⟨rest,by rw [Option.some.inj hp]⟩
  have hpend : (w.pending).map PendingRecord.record=identity.records a (cs.drop a) := h.pending
  obtain ⟨c,tail,hdrop⟩ : ∃ c tail, cs.drop a=c::tail := by
    cases hd : cs.drop a with
    | nil =>
      rw [hd,hpending] at hpend
      contradiction
    | cons c tail => exact ⟨c,tail,rfl⟩
  have hlt : a<cs.length := by
    have hlen:=congrArg List.length hdrop
    rw [List.length_drop,List.length_cons] at hlen
    omega
  have htail : cs.drop (a+1)=tail := by
    rw [← List.drop_drop,hdrop]
    rfl
  rw [hpending,hdrop,Identity.records,List.map_cons] at hpend
  have hrec : p.record=identity.recordOf c (a+1) := (List.cons.inj hpend).1
  have hseq : p.record.seq=a+1 := by rw [hrec]; rfl
  have hle:=(pending_sound hup (List.mem_of_head? hp)).2.1
  have habove : ∀ n, w.acked.lookup identity.stream=some n → n<p.record.seq := by
    intro n hn
    obtain ⟨rfl,-⟩:=h.acked_eq hn
    omega
  -- the value with the marker behind it
  have hvalue : Spells identity (replay (items L.log++[ackItem identity.receiver identity.sender p.record.seq])) cs
      (a+1) := by
    rw [ack_value hup.live.represents habove]
    refine ⟨hlt,?_,?_,h.receipts⟩
    · change Function.update (fun s => w.acked.lookup s) identity.stream (some p.record.seq) identity.stream=_
      rw [Function.update_self,hseq,if_neg (Nat.succ_ne_zero _)]
    · have hmap : ((w.pending.filter fun q => !(q.record.stream==identity.stream &&
          decide (q.record.seq≤p.record.seq))).map PendingRecord.record) =
          (w.pending.map PendingRecord.record).filter
            (fun r => !(r.stream==identity.stream&&decide (r.seq≤p.record.seq))) := by
        rw [List.filter_map]
        rfl
      refine hmap.trans ?_
      have hpend' : w.pending.map PendingRecord.record=identity.records a (c::tail) := by
        rw [← hdrop]
        exact h.pending
      rw [hpend',hseq,records_filter,htail]
  rcases ack_cases hplan with rfl | ⟨wb,cb,hraises,⟨hclears,rfl⟩ | ⟨hclears,hcheck⟩⟩
  · exact ⟨rfl,a,by omega,h⟩
  · obtain ⟨x,hitem,-,-,-,hval⟩:=ack_live hup.live hle hraises hclears
    refine ⟨rfl,a+1,hseq.ge,?_⟩
    rw [hval,hitem]
    exact hvalue
  · obtain ⟨rs,-,hresult,-,-,hval,-⟩ :=
      ack_clear hlimits hup.live hle hraises hclears (rests_names hup.rests) hcheck
    refine ⟨hresult,a+1,hseq.ge,?_⟩
    rw [hval]
    exact hvalue

end values

def Fair (identity : Identity) (acc : List Content) (top : ℕ) (v : Value) : Prop :=
  ∃ cs a, Spells identity v cs a ∧ acc<+:cs ∧ a≤top

section logs
variable (env : WalEnv) (limits : WalLimits) (identity : Identity) (acc : List Content) (top : ℕ)

structure Telling (d : Disk ℕ) (w : WalInner) (L : Layout (Stored env limits)) (values : List Value) : Prop where
  up : Up env limits d w L
  within : Within env limits L values
  fair : ∀ v∈values, Fair identity acc top v

def Dormant (d : Disk ℕ) : Prop :=
  Fresh d ∧ acc=[] ∨ ∃ L t, Down env limits d L t ∧ L.synced=L.active.length ∧
    Fair identity acc top (replay (items L.log))

variable {env limits identity acc top} {segmentMax : ℕ} {d d' : Disk ℕ} {w : WalInner}
  {L : Layout (Stored env limits)} {values : List Value} {v : Value}

theorem Fair.mono {top' : ℕ} (h : Fair identity acc top v) (hle : top≤top') : Fair identity acc top' v := by
  obtain ⟨cs,a,hspells,hgrow,ha⟩:=h
  exact ⟨cs,a,hspells,hgrow,ha.trans hle⟩

theorem Dormant.mono {top' : ℕ} (h : Dormant env limits identity acc top d) (hle : top≤top') :
    Dormant env limits identity acc top' d := by
  rcases h with hfresh | ⟨L,t,hdown,hsynced,hfair⟩
  · exact .inl hfresh
  · exact .inr ⟨L,t,hdown,hsynced,hfair.mono hle⟩

theorem Telling.mono {top' : ℕ} (h : Telling env limits identity acc top d w L values) (hle : top≤top') :
    Telling env limits identity acc top' d w L values :=
  ⟨h.up,h.within,fun v hv => (h.fair v hv).mono hle⟩

theorem Telling.dormant (h : Telling env limits identity acc top d w L values)
    (hsynced : L.synced=L.active.length) : Dormant env limits identity acc top d :=
  .inr ⟨L,[],h.up.down,hsynced,h.fair _ (within_full h.up.rests.synced_le h.within)⟩

variable {budget left : ℕ}

section
variable (hlimits : limits.validate segmentMax=.ok ())
include hlimits

section
variable (h : Telling env limits identity acc top d w L values)
include h

theorem Telling.call {op : WalOp} (hop : op.InRange) (hop' : op ≠ .sync) (hrun : d.exec budget (op.plan env limits segmentMax d w).1=(d',some left))
    (hnew : Fair identity acc top (op.plan env limits segmentMax d w).2.value) :
    ∃ L' values', Telling env limits identity acc top d' (op.plan env limits segmentMax d w).2 L' values' := by
  obtain ⟨L',hup,hwithin⟩:=call_inv hlimits h.up h.within hop hrun
  refine ⟨L',_,hup,hwithin,?_⟩
  have hsince : sinceAfter w values (op.plan env limits segmentMax d w).2.value op =
      values++[(op.plan env limits segmentMax d w).2.value] := by
    cases op with
    | sync => exact absurd rfl hop'
    | append | ack => rfl
  intro v hv
  rw [hsince] at hv
  rcases List.mem_append.mp hv with hv | hv
  · exact h.fair v hv
  · exact List.mem_singleton.mp hv ▸ hnew

theorem Telling.sync {acc' : List Content}
    (hrun : d.exec budget [.sync w.segId]=(d',some left)) (hnew : Fair identity acc' top w.value) :
    ∃ L', Telling env limits identity acc' top d' w L' [w.value] ∧ L'.synced=L'.active.length := by
  have hlive : Live w (Change.sync.after L) := ⟨h.up.live.represents,h.up.live.segId,h.up.live.segBytes,
    h.up.live.diskBytes,h.up.live.segments,h.up.live.healthy,h.up.live.disk_le,h.up.live.segments_le,
    h.up.live.segId_le⟩
  have hcomp:=Disk.exec_completed hrun
  rw [h.up.live.segId] at hcomp
  have hup:=op_completes (c := Change.sync) hlimits h.up hlive hcomp
  refine ⟨_,⟨hup,?_,?_⟩,rfl⟩
  · intro j hj hj'
    obtain rfl : j=L.active.length := Nat.le_antisymm hj' hj
    rw [List.mem_singleton,hup.live.represents.value]
    change replay (items (L.sealed++[L.active.take L.active.length]))=replay (items (L.sealed++[L.active]))
    rw [List.take_length]
  · intro v hv
    exact List.mem_singleton.mp hv ▸ hnew

theorem Telling.crash {op : WalOp} (hop : op.InRange) (budget kept : ℕ)
    (cut : ℕ → ℕ) (hsafe : ¬ Exposed d w op (Wal.crashedDisk env limits segmentMax d w op budget kept cut))
    (hnew : Fair identity acc top (op.plan env limits segmentMax d w).2.value) :
    Dormant env limits identity acc top (Wal.crashedDisk env limits segmentMax d w op budget kept cut) := by
  obtain ⟨L',t,hdown,hsynced,-,hvalue⟩:=crash_inv hlimits h.up h.within hop budget kept cut hsafe
  refine .inr ⟨L',t,hdown,hsynced,?_⟩
  rcases List.mem_append.mp hvalue with hvalue | hvalue
  · exact h.fair _ hvalue
  · exact List.mem_singleton.mp hvalue ▸ hnew

theorem Telling.idle (kept : ℕ) (cut : ℕ → ℕ) : Dormant env limits identity acc top (d.crash kept cut) := by
  obtain ⟨j,t,hj,hj',hdown⟩:=open_crash hlimits h.up.down (Disk.stopped_refl _ d) kept cut
  exact .inr ⟨_,t,hdown,rfl,h.fair _ (h.within j hj hj')⟩

end

end

theorem up_synced (h : Up env limits d w L) (hsynced : L.synced=L.active.length) : ¬ Unsynced d w := by
  intro hbad
  obtain ⟨f,hf,hne⟩:=hbad
  have hmem : (L.segId,(⟨data Stored.body checksum (L.active.take L.synced),
      data Stored.body checksum L.active⟩ : CrashFs.File))∈CrashFs.current d.history := by
    rw [h.rests.listing_eq]
    exact List.mem_append_right _ (List.mem_singleton_self _)
  rw [h.live.segId,Disk.file_current h.rests.named hmem] at hf
  cases hf
  exact hne (by rw [hsynced,List.take_length])

variable {plan : Plan Unit}

section
variable (hlimits : limits.validate segmentMax=.ok ())
include hlimits

section
variable (h : Dormant env limits identity acc top d)
include h

section
variable (hopen : openWithLimits env limits segmentMax d=.ok plan)
include hopen

theorem open_telling (hrun : d.exec budget plan.effects=(d',some left)) :
    ∃ L, Telling env limits identity acc top d' plan.wal L [plan.wal.value] ∧ L.synced=L.active.length := by
  rcases h with ⟨hfresh,rfl⟩ | ⟨L,t,hdown,hsynced,hfair⟩
  · rw [open_fresh hlimits hfresh] at hopen
    cases hopen
    have hup:=@start_up env limits segmentMax d d' hlimits hfresh (Disk.exec_completed hrun)
    refine ⟨first,⟨hup,?_,?_⟩,rfl⟩
    · intro j hj hj'
      obtain rfl : j=0 := Nat.le_zero.mp hj'
      exact List.mem_singleton.mpr rfl
    · intro v hv
      obtain rfl:=List.mem_singleton.mp hv
      exact ⟨[],0,empty_spells,List.prefix_refl _,Nat.zero_le _⟩
  · obtain ⟨x,hx,rfl⟩:=open_down_inv hlimits hdown hopen
    have hup:=open_completes hdown hx (Disk.exec_completed hrun)
    refine ⟨L,⟨hup,?_,?_⟩,hsynced⟩
    · intro j hj hj'
      obtain rfl : j=L.active.length := Nat.le_antisymm hj' (hsynced ▸ hj)
      rw [List.take_length]
      exact List.mem_singleton.mpr hup.live.represents.value.symm
    · intro v hv
      obtain rfl:=List.mem_singleton.mp hv
      rw [hup.live.represents.value]
      exact hfair

theorem open_dormant (budget kept : ℕ) (cut : ℕ → ℕ) :
    Dormant env limits identity acc top ((d.exec budget plan.effects).1.crash kept cut) := by
  rcases h with ⟨hfresh,rfl⟩ | ⟨L,t,hdown,hsynced,hfair⟩
  · rw [open_fresh hlimits hfresh] at hopen
    cases hopen
    rcases start_crash hfresh (Disk.exec_stopped rfl) kept cut with hfresh' | hrests
    · exact .inl ⟨hfresh',rfl⟩
    · exact .inr ⟨first,[],first_down hlimits hrests,rfl,[],0,empty_spells,List.prefix_refl _,Nat.zero_le _⟩
  · obtain ⟨x,hx,rfl⟩:=open_down_inv hlimits hdown hopen
    obtain ⟨j,t',hj,hj',hdown'⟩:=open_crash hlimits hdown (Disk.exec_stopped rfl) kept cut
    obtain rfl : j=L.active.length := Nat.le_antisymm hj' (hsynced ▸ hj)
    refine .inr ⟨_,t',hdown',rfl,?_⟩
    change Fair identity acc top (replay (items (L.sealed++[L.active.take L.active.length])))
    rw [List.take_length]
    exact hfair

theorem dormant_fair : Fair identity acc top plan.wal.value := by
  rcases h with ⟨hfresh,rfl⟩ | ⟨L,t,hdown,-,hfair⟩
  · rw [open_fresh hlimits hfresh] at hopen
    cases hopen
    exact ⟨[],0,empty_spells,List.prefix_refl _,Nat.zero_le _⟩
  · obtain ⟨x,hx,rfl⟩:=open_down_inv hlimits hdown hopen
    have hvalue : (opened x L).value=replay (items L.log) := (opened_live hdown hx).represents.value
    rw [hvalue]
    exact hfair

end

end

end

theorem recoverPending_eq {identity : BoundIdentity} {last n : ℕ} {pending : List PendingRecord}
    (h : recoverPending identity last pending=.ok n) : n=last+pending.length := by
  induction pending generalizing last with
  | nil => exact (Except.ok.inj h).symm
  | cons p rest ih =>
    unfold recoverPending at h
    split at h
    · contradiction
    · rename_i hok
      push Not at hok
      cases hvalid : identity.validateMessage p.record.typeKey p.record.payload.length p.parent.isSome with
      | error e =>
        rw [hvalid] at h
        contradiction
      | ok size =>
        rw [hvalid] at h
        have hseq:=(checkedAdd_eq_some.mp hok.2.2.2).1
        rw [ih h,hseq,List.length_cons]
        omega

theorem bindAndRecover_spells {identity : BoundIdentity} {status : OutboxStatus} {cs : List Content} {a : ℕ}
    (hspells : Spells identity.toIdentity w.value cs a) (h : bindAndRecover identity w=.ok status) :
    status.lastEnqueued=cs.length := by
  unfold bindAndRecover at h
  split at h
  · contradiction
  · obtain ⟨last,hlast,h⟩:=bind_eq_ok.mp h
    split at h
    · contradiction
    · split at h
      · contradiction
      · cases h
        have hacked : (w.acked.lookup identity.stream).getD 0=a := hspells.acked_getD
        have hlen : w.pending.length=cs.length-a := hspells.pending_length
        have hle:=hspells.acked_le
        rw [recoverPending_eq hlast,hacked,hlen]
        exact Nat.add_sub_cancel' hle

end logs
end Parrot.Outbox
