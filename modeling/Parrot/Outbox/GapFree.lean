import Parrot.Outbox.Ordered

/-! # A stream without gaps (`durable/outbox.rs:555-595`, `durable/outbox/group.rs:62-123`)

`bind_and_recover` takes no log but one whose pending records follow the watermark one by one.
-/

namespace Parrot.Outbox
open List (range' map_cons range'_succ)
open Machine Wal

structure Gapless (identity : Identity) (w : WalInner) (acked last : ℕ) : Prop where
  acked_le : acked≤last
  watermark : (w.acked.lookup identity.stream).getD 0=acked
  stream : ∀ p∈w.pending, p.record.stream=identity.stream
  pending : w.pending.map (fun p => p.record.seq)=range' (acked+1) (last-acked)
  receipts : ∀ key r, w.receipts.entries.lookup key=some r → r.seq≤last

section wal
variable {env : WalEnv} {limits : WalLimits} {segmentMax : ℕ} {identity : Identity} {w : WalInner} {acked last : ℕ}

section
variable (h : Gapless identity w acked last)
include h

theorem Gapless.length : w.pending.length=last-acked := by
  have hlen:=congrArg List.length h.pending
  simpa using hlen

theorem Gapless.found {n : ℕ} (hn : n≤last) : n≤acked ∨ ∃ p∈w.pending, p.record.seq=n := by
  by_cases hacked : n≤acked
  · exact .inl hacked
  · have hmem : n∈range' (acked+1) (last-acked) := by
      rw [List.mem_range'_1]
      omega
    rw [← h.pending] at hmem
    exact .inr (List.mem_map.mp hmem)

theorem Gapless.head {p : PendingRecord} (hp : w.pending.head? = some p) :
    p.record.seq=acked+1 ∧ acked<last ∧ p.record.stream=identity.stream := by
  obtain ⟨rest,hpending⟩ : ∃ rest, w.pending=p::rest := by
    cases hw : w.pending with
    | nil =>
      rw [hw] at hp
      contradiction
    | cons q rest =>
      rw [hw] at hp
      exact ⟨rest,by rw [Option.some.inj hp]⟩
  have hlen:=h.length
  have hnum:=h.pending
  rw [hpending,List.length_cons] at hlen
  have hcount : last-acked=rest.length+1 := hlen.symm
  rw [hpending,map_cons,hcount,range'_succ] at hnum
  refine ⟨(List.cons.inj hnum).1,by omega,h.stream p ?_⟩
  rw [hpending]
  exact List.mem_cons_self

theorem Gapless.unacked {r : WalRecord} (hstream : r.stream=identity.stream)
    (hseq : last < r.seq) : isAcked w.acked r=false := by
  have hacked:=h.watermark
  have hle:=h.acked_le
  unfold isAcked
  rw [hstream]
  cases hl : w.acked.lookup identity.stream with
  | none => rfl
  | some n =>
    rw [hl,Option.getD_some] at hacked
    rw [Option.any_some,decide_eq_false_iff_not]
    omega

end

theorem insertReceipt_le {receipts receipts' : ReceiptIndex} {receipt : Option Receipt} {n m : ℕ}
    (h : insertReceipt env limits receipts receipt=.ok receipts')
    (hold : ∀ key r, receipts.entries.lookup key=some r → r.seq≤n) (hnm : n ≤ m)
    (hnew : ∀ g, receipt=some g → g.seq ≤ m) : ∀ key r, receipts'.entries.lookup key=some r → r.seq ≤ m := by
  intro key r hr
  cases receipt with
  | none =>
    cases h
    exact (hold key r hr).trans hnm
  | some g =>
    rcases ReceiptIndex.insert_ok h with ⟨-,rfl⟩ | ⟨-,rfl⟩
    · exact (hold key r hr).trans hnm
    · by_cases hkey : key=g.key
      · subst hkey
        have hg : (receipts.entries.insert g.key g).lookup g.key=some r := hr
        rw [AList.lookup_insert] at hg
        cases hg
        exact hnew _ rfl
      · have hg : (receipts.entries.insert g.key g).lookup key=some r := hr
        rw [AList.lookup_insert_ne hkey] at hg
        exact (hold key r hg).trans hnm

theorem wrapSubmission_seq {r stored : WalRecord} {id : Option String} {receipt : Option Receipt}
    (h : wrapSubmission env r id=.ok (stored,receipt)) : ∀ g, receipt=some g → g.seq=r.seq := by
  intro g hg
  cases id with
  | none =>
    obtain ⟨-,rfl⟩:=Prod.mk.inj (Except.ok.inj h)
    contradiction
  | some id =>
    obtain ⟨⟨inner,x⟩,hwrap,h⟩:=bind_eq_ok.mp h
    obtain ⟨-,rfl⟩:=Prod.mk.inj (Except.ok.inj h)
    obtain ⟨-,-,rfl,-⟩:=submissionWrap_ok hwrap
    cases hg
    rfl

theorem Gapless.append (h : Gapless identity w acked last) {cmd : Command}
    (hunknown : lookupSubmission env w.receipts (identity.record cmd (last+1)) cmd.requestId=.ok none)
    {plan : Plan (ℕ × Bool)}
    (hplan : appendSubmissionWithParent env limits segmentMax w (identity.record cmd (last+1)) cmd.requestId
      cmd.parent=.ok plan) :
    (∃ e, plan.result=.error e) ∧ plan.wal.failed=true ∨ plan.result=.ok (last+1,true) ∧
      plan.wal.pending=w.pending++[⟨identity.record cmd (last+1),cmd.parent⟩] ∧
      Gapless identity plan.wal acked (last+1) := by
  have hunacked : isAcked w.acked (identity.record cmd (last+1))=false := h.unacked rfl (Nat.lt_succ_self _)
  obtain ⟨stored,receipt,bytes,hadm,rfl⟩:=append_new hunknown hunacked hplan
  obtain ⟨inner,hwrap,-⟩:=hadm.wraps
  unfold appendPlan
  cases hinsert : insertReceipt env limits w.receipts receipt with
  | error e => exact .inl ⟨⟨e,rfl⟩,rfl⟩
  | ok receipts' =>
    have hreceipts:=insertReceipt_le hinsert h.receipts (Nat.le_succ last)
      fun g hg => (wrapSubmission_seq hwrap g hg).le
    have hle:=h.acked_le
    have hnum : (w.pending++[(⟨identity.record cmd (last+1),cmd.parent⟩ : PendingRecord)]).map (fun p => p.record.seq) =
        range' (acked+1) (last+1-acked) := by
      have hcount : last+1-acked=last-acked+1 := by omega
      have hend : acked+1+(last-acked)=last+1 := by omega
      rw [List.map_append,h.pending,hcount,List.range'_1_concat,hend]
      rfl
    have hstream : ∀ p∈w.pending++[⟨identity.record cmd (last+1),cmd.parent⟩],p.record.stream=identity.stream := by
      intro p hp
      rcases List.mem_append.mp hp with hp | hp
      · exact h.stream p hp
      · rw [List.mem_singleton.mp hp]
        rfl
    right
    dsimp only
    split
    · exact ⟨rfl,rfl,hle.trans (Nat.le_succ _),h.watermark,hstream,hnum,hreceipts⟩
    · exact ⟨rfl,rfl,hle.trans (Nat.le_succ _),h.watermark,hstream,hnum,hreceipts⟩

theorem range'_filter (n k : ℕ) : (range' (n+1) (k+1)).filter (fun m => !decide (m≤n+1))=range' (n+2) k := by
  rw [range'_succ,List.filter_cons_of_neg (by simp),List.filter_eq_self]
  intro m hm
  rw [List.mem_range'_1] at hm
  have hlt : ¬ m≤n+1 := by omega
  simp [hlt]

theorem Gapless.acknowledged (h : Gapless identity w acked last) (hlt : acked<last) {w' : WalInner}
    (hpending : w'.pending=w.pending) (hreceipts : w'.receipts=w.receipts) (watermarkBytes : ℕ) :
    Gapless identity (WalInner.acknowledged env w' identity.stream (acked+1) watermarkBytes) (acked+1) last := by
  refine ⟨hlt,?_,?_,?_,?_⟩
  · change ((w'.acked.insert identity.stream (acked+1)).lookup identity.stream).getD 0=_
    rw [AList.lookup_insert]
    rfl
  · intro p hp
    exact h.stream p (hpending ▸ List.mem_of_mem_filter hp)
  · change (w'.pending.filter fun p => !(p.record.stream==identity.stream&&decide (p.record.seq≤acked+1))).map
      (fun p => p.record.seq)=_
    have hsame : (w'.pending.filter fun p => !(p.record.stream==identity.stream&&decide (p.record.seq≤acked+1))) =
        w.pending.filter ((fun m => !decide (m≤acked+1)) ∘ fun p => p.record.seq) := by
      rw [hpending]
      refine List.filter_congr ?_
      intro p hp
      simp [h.stream p hp]
    have hcount : last-acked=last-(acked+1)+1 := by omega
    rw [hsame,← List.filter_map,h.pending,hcount,range'_filter]
  · intro key r hr
    rw [show (WalInner.acknowledged env w' identity.stream (acked+1) watermarkBytes).receipts=w'.receipts from rfl,
      hreceipts] at hr
    exact h.receipts key r hr

theorem Gapless.ack (h : Gapless identity w acked last) {names : List ℕ} {acks : Order (Stream × ℕ)}
    {receipts : Order Receipt} {p : PendingRecord} (hp : w.pending.head? = some p) {plan : Plan Unit}
    (hplan : Wal.ack env limits names acks receipts w identity.receiver identity.sender p.record.seq=.ok plan) : (∃ e,
    plan.result=.error e) ∨ plan.result=.ok () ∧ p.record.seq=acked+1 ∧ Gapless identity plan.wal (acked+1) last := by
  obtain ⟨hseq,hlt,-⟩:=h.head hp
  rw [hseq] at hplan ⊢
  have habove : ∀ n, w.acked.lookup identity.stream=some n → n=acked := by
    intro n hn
    have hacked:=h.watermark
    rw [hn] at hacked
    exact hacked
  rcases ack_cases hplan with rfl | ⟨wb,cb,-,⟨-,rfl⟩ | ⟨-,rfl⟩⟩
  · -- the watermark is below the number: the call cannot take it for an old one
    exfalso
    unfold Wal.ack at hplan
    obtain ⟨-,-,hplan⟩:=bind_eq_ok.mp hplan
    obtain ⟨_,-,hplan⟩:=bind_eq_ok.mp hplan
    have hnew : ¬ (w.acked.lookup (identity.receiver,identity.sender)).any (fun n => decide (acked+1≤n))=true := by
      cases hl : w.acked.lookup (identity.receiver,identity.sender) with
      | none => simp
      | some n =>
        have hn:=habove n hl
        rw [Option.any_some,decide_eq_true_eq]
        omega
    dsimp only at hplan
    rw [if_neg hnew] at hplan
    split at hplan
    · contradiction
    · obtain ⟨wb,-,hplan⟩:=bind_eq_ok.mp hplan
      obtain ⟨frame,-,hplan⟩:=bind_eq_ok.mp hplan
      obtain ⟨cb,-,hplan⟩:=bind_eq_ok.mp hplan
      obtain ⟨size,-,hplan⟩:=bind_eq_ok.mp hplan
      obtain ⟨_,-,hplan⟩:=bind_eq_ok.mp hplan
      split at hplan
      · contradiction
      · split at hplan
        · have heffects:=congrArg Plan.effects (Except.ok.inj hplan)
          unfold checkpointPlan at heffects
          dsimp only at heffects
          split at heffects
          · contradiction
          · split at heffects
            · contradiction
            · contradiction
        · have heffects:=congrArg Plan.effects (Except.ok.inj hplan)
          contradiction
  · exact .inr ⟨rfl,rfl,h.acknowledged hlt (by rfl) (by rfl) wb⟩
  · unfold checkpointPlan
    dsimp only
    split
    · exact .inl ⟨_,rfl⟩
    · split
      · exact .inl ⟨_,rfl⟩
      · exact .inr ⟨rfl,rfl,h.acknowledged hlt (by rfl) (by rfl) wb⟩

theorem recoverPending_gapless {identity : BoundIdentity} {last n : ℕ} {pending : List PendingRecord}
    (h : recoverPending identity last pending=.ok n) : pending.map (fun p => p.record.seq)=range'
    (last+1) pending.length ∧ ∀ p∈pending, p.record.stream=identity.stream := by
  induction pending generalizing last with
  | nil => exact ⟨rfl,nofun⟩
  | cons p rest ih =>
    unfold recoverPending at h
    obtain ⟨hok,h⟩:=Except.of_ite_left h
    push Not at hok
    obtain ⟨hreceiver,hsender,-,hnext⟩:=hok
    have hseq:=(checkedAdd_eq_some.mp hnext).1
    cases hvalid : identity.validateMessage p.record.typeKey p.record.payload.length p.parent.isSome with
    | error e =>
      rw [hvalid] at h
      contradiction
    | ok size =>
      rw [hvalid] at h
      obtain ⟨hnum,hstream⟩:=ih h
      constructor
      · rw [map_cons,List.length_cons,range'_succ,hnum,hseq]
      · intro q hq
        rcases List.mem_cons.mp hq with rfl | hq
        · exact Prod.ext hreceiver hsender
        · exact hstream q hq

theorem bindAndRecover_gapless {identity : BoundIdentity} {status : OutboxStatus}
    (h : bindAndRecover identity w=.ok status) :
    Gapless identity.toIdentity w status.lastAcked status.lastEnqueued ∧ status.pending=w.pending.length := by
  unfold bindAndRecover at h
  obtain ⟨-,h⟩:=Except.of_ite_left h
  obtain ⟨last,hlast,h⟩:=bind_eq_ok.mp h
  obtain ⟨-,h⟩:=Except.of_ite_left h
  cases hbinding : w.receipts.validateBinding identity.receiver identity.sender last with
  | error e =>
    rw [hbinding] at h
    contradiction
  | ok u =>
    rw [hbinding] at h
    cases h
    obtain ⟨hnum,hstream⟩:=recoverPending_gapless hlast
    have hend:=recoverPending_eq hlast
    refine ⟨⟨by dsimp only; omega,rfl,hstream,?_,?_⟩,rfl⟩
    · rw [hnum]
      congr 1
      dsimp only
      omega
    · intro key r hr
      unfold ReceiptIndex.validateBinding at hbinding
      obtain ⟨hall,hbinding⟩:=Except.of_ite_left hbinding
      simp only [Bool.not_eq_true,List.any_eq_false] at hall
      have hmem:=hall r (ReceiptIndex.mem_iter.mpr ⟨key,hr⟩)
      simp at hmem
      exact hmem.2

end wal
end Parrot.Outbox
