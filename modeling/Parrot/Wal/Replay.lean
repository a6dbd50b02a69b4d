import Mathlib.Data.List.Induction
import Parrot.Wal.Log

/-! # What a log says

The value of a log is a fold over what its records say. -/

namespace Parrot.Wal
open Function (update_self update_of_ne)
open Machine

structure Value where
  acked : Stream → Option ℕ
  pending : List PendingRecord
  receipts : String × String × String → Option Receipt

namespace Item

def mark (i : Item) : Option WalRecord := i.business.filter fun r => r.typeKey="#ack"

def message (i : Item) : Option PendingRecord :=
  (i.business.filter fun r => r.typeKey ≠ "#ack").map fun r => ⟨r,i.parent⟩

structure Sound (i : Item) : Prop where
  receipt : ∀ r, i.receipt=some r → ReceiptIndex.Genuine r
  seq_pos : ∀ r, i.business=some r → r.seq≠0
  seq_le : ∀ r, i.business=some r → r.seq≤u64Max
  endpoint : ∀ r, i.business=some r → r.endpoint.isEmpty=false
  sender : ∀ r, i.business=some r → r.sender.isEmpty=false

end Item

def covered (acked : Stream → Option ℕ) (p : PendingRecord) : Bool :=
  (acked p.record.stream).any fun n => decide (p.record.seq≤n)

def raise (acked : Stream → Option ℕ) : Option WalRecord → Stream → Option ℕ
  | none => acked
  | some r => Function.update acked r.stream (some (max ((acked r.stream).getD 0) r.seq))

def record (receipts : String × String × String → Option Receipt) :
    Option Receipt → String × String × String → Option Receipt
  | none => receipts
  | some r => Function.update receipts r.key (some r)

def Value.apply (v : Value) (i : Item) : Value where
  acked := raise v.acked i.mark
  pending := (v.pending++i.message.toList).filter fun p => !covered (raise v.acked i.mark) p
  receipts := record v.receipts i.receipt

def Value.empty : Value := ⟨fun _ => none,[],fun _ => none⟩

def replay (items : List Item) : Value := items.foldl Value.apply Value.empty

@[simp] theorem replay_nil : replay []=Value.empty := rfl

@[simp] theorem replay_snoc (items : List Item) (i : Item) : replay (items++[i])=(replay items).apply i := by
  simp [replay]

theorem covered_raise {acked : Stream → Option ℕ} {p : PendingRecord} (h : covered acked p=true)
    (mark : Option WalRecord) : covered (raise acked mark) p=true := by
  cases mark with
  | none => exact h
  | some r =>
    simp only [covered,raise] at h ⊢
    by_cases hs : p.record.stream=r.stream
    · rw [hs,update_self]
      rw [hs] at h
      cases ha : acked r.stream with
      | none => simp [ha] at h
      | some n =>
        simp only [ha,Option.any_some,decide_eq_true_eq] at h
        simp only [Option.getD_some,Option.any_some,decide_eq_true_eq]
        omega
    · rwa [update_of_ne hs]

theorem replay_pending (items : List Item) : (replay items).pending =
    (items.filterMap Item.message).filter fun p => !covered (replay items).acked p := by
  induction items using List.reverseRecOn with
  | nil => rfl
  | append_singleton items i ih =>
    rw [replay_snoc,List.filterMap_append]
    have hmono : ∀ p, (!covered (raise (replay items).acked i.mark) p)=true →
        (!covered (replay items).acked p)=true := by
      intro p hp
      simp only [Bool.not_eq_true'] at hp ⊢
      by_contra hne
      rw [Bool.not_eq_false] at hne
      exact absurd (covered_raise hne i.mark) (by simp [hp])
    have hone : List.filterMap Item.message [i]=i.message.toList := by
      cases hm : i.message with
      | none | some => simp [hm]
    simp only [Value.apply,List.filter_append,hone]
    congr 1
    rw [ih,List.filter_filter]
    refine List.filter_congr ?_
    intro p _
    by_cases hp : (!covered (raise (replay items).acked i.mark) p)=true
    · rw [hp,hmono p hp]
      rfl
    · rw [Bool.not_eq_true] at hp
      rw [hp]
      rfl

theorem replay_uncovered {items : List Item} {p : PendingRecord} (h : p∈(replay items).pending) :
    covered (replay items).acked p=false := by
  rw [replay_pending] at h
  simpa using (List.mem_filter.mp h).2

theorem mark_stream {i : Item} {r : WalRecord} (h : i.mark=some r) :
    i.business=some r ∧ r.typeKey="#ack" := by
  simpa [Item.mark] using h

theorem replay_marked {items : List Item} {i : Item} {r : WalRecord} (hi : i∈items)
    (h : i.mark=some r) : ∃ n, (replay items).acked r.stream=some n ∧ r.seq≤n := by
  induction items using List.reverseRecOn with
  | nil => contradiction
  | append_singleton items j ih =>
    rw [replay_snoc]
    simp only [Value.apply]
    rcases List.mem_append.mp hi with hi | hi
    · obtain ⟨n,hn,hle⟩:=ih hi
      cases hm : j.mark with
      | none => exact ⟨n,hn,hle⟩
      | some r' =>
        simp only [raise]
        by_cases hs : r.stream=r'.stream
        · rw [hs] at hn
          rw [hs,update_self,hn]
          exact ⟨_,rfl,hle.trans (Nat.le_max_left ..)⟩
        · rw [update_of_ne hs]
          exact ⟨n,hn,hle⟩
    · rw [← List.mem_singleton.mp hi,h]
      simp only [raise,update_self]
      exact ⟨_,rfl,Nat.le_max_right ..⟩

theorem replay_acked {items : List Item} {s : Stream} {n : ℕ} (h : (replay items).acked s=some n) :
    ∃ i∈items, ∃ r, i.mark=some r ∧ r.stream=s ∧ r.seq=n := by
  induction items using List.reverseRecOn generalizing n with
  | nil => simp [Value.empty] at h
  | append_singleton items j ih =>
    rw [replay_snoc] at h
    simp only [Value.apply] at h
    have hlift : ∀ {n}, (replay items).acked s=some n → ∃ i∈items++[j], ∃ r, i.mark=some r ∧
        r.stream=s ∧ r.seq=n := by
      intro n hn
      obtain ⟨i,hi,r,hr⟩:=ih hn
      exact ⟨i,List.mem_append_left _ hi,r,hr⟩
    cases hm : j.mark with
    | none =>
      rw [hm] at h
      exact hlift h
    | some r' =>
      rw [hm] at h
      simp only [raise] at h
      by_cases hs : s=r'.stream
      · subst hs
        rw [update_self] at h
        cases h
        have hlast : ∀ n, r'.seq=n → ∃ i∈items++[j], ∃ r, i.mark=some r ∧ r.stream=r'.stream ∧ r.seq=n :=
          fun n hn => ⟨j,List.mem_append_right _ (List.mem_singleton_self _),r',hm,rfl,hn⟩
        cases ha : (replay items).acked r'.stream with
        | none => exact hlast _ (by simp)
        | some n =>
          rcases Nat.le_total n r'.seq with hle | hle
          · exact hlast _ (by simp [hle])
          · have hn:=hlift ha
            simpa [Nat.max_eq_left hle] using hn
      · rw [update_of_ne hs] at h
        exact hlift h

def Index.value (x : Index) : Value :=
  ⟨fun s => x.acked.lookup s,x.pending,fun key => x.receipts.entries.lookup key⟩

section env
variable (env : WalEnv) (limits : WalLimits)

def PendingFits (pending : List PendingRecord) : Prop :=
  pending.length≤limits.maxPendingRecords ∧
    (pending.map fun p => recordMemory env p.record).sum≤limits.maxPendingBytes

structure AcksOk (st : Acks) : Prop where
  streams_le : st.acked.keys.length≤limits.maxStreams
  watermark : st.watermarkBytes=(st.acked.keys.map (watermarkMemory env)).sum
  watermark_le : st.watermarkBytes≤limits.maxWatermarkBytes
  receipts : st.receipts.Ok env limits
  seq_pos : ∀ s n, st.acked.lookup s=some n → n≠0
  seq_le : ∀ s n, st.acked.lookup s=some n → n≤u64Max
  endpoint : ∀ s n, st.acked.lookup s=some n → s.1.isEmpty=false
  sender : ∀ s n, st.acked.lookup s=some n → s.2.isEmpty=false

def Index.acks (x : Index) : Acks := ⟨x.acked,x.watermarkBytes,x.receipts⟩

structure Index.Ok (x : Index) : Prop where
  acks : AcksOk env limits x.acks
  pending : PendingFits env limits x.pending
  bytes : x.pendingBytes=(x.pending.map fun p => recordMemory env p.record).sum

structure Represents (x : Index) (items : List Item) : Prop where
  ok : x.Ok env limits
  value : x.value=replay items
  consistent : ∀ i∈items, ∀ r, i.receipt=some r → x.receipts.entries.lookup r.key=some r

def recover (items : List Item) : Except String Index := do
  let acks ← items.foldlM (Acks.visit env limits) ⟨∅,0,.empty⟩
  let pending ← items.foldlM (Pending.visit env limits acks.acked) ⟨[],0⟩
  return ⟨acks.acked,acks.watermarkBytes,pending.pending,pending.bytes,acks.receipts⟩

variable {env limits}

theorem visit_business {st st' : Acks} {i : Item} (h : st.visit env limits i=.ok st') :
    insertReceipt env limits st.receipts i.receipt=.ok st'.receipts ∧
    (i.mark=none ∧ st'.acked=st.acked ∧ st'.watermarkBytes=st.watermarkBytes ∨
    ∃ r, i.mark=some r ∧ (
      (∃ n, st.acked.lookup r.stream=some n ∧ st'.acked=st.acked.insert r.stream (max n r.seq) ∧
        st'.watermarkBytes=st.watermarkBytes) ∨
      (st.acked.lookup r.stream=none ∧ st.acked.keys.length≠limits.maxStreams ∧
        reserveWatermark env limits st.watermarkBytes r.stream=.ok st'.watermarkBytes ∧
        st'.acked=st.acked.insert r.stream r.seq))) := by
  unfold Acks.visit at h
  cases hr : insertReceipt env limits st.receipts i.receipt with
  | error e => simp [hr,bind,Except.bind] at h
  | ok receipts =>
    simp only [hr,bind,Except.bind,pure,Except.pure] at h
    cases hb : i.business with
    | none =>
      simp only [hb] at h
      cases h
      exact ⟨rfl,.inl ⟨by simp [Item.mark,hb],rfl,rfl⟩⟩
    | some r =>
      simp only [hb] at h
      split at h
      · rename_i hack
        have hmark : i.mark=some r := by simp [Item.mark,hb,hack]
        cases hl : st.acked.lookup r.stream with
        | some n =>
          simp only [hl] at h
          cases h
          exact ⟨rfl,.inr ⟨r,hmark,.inl ⟨n,hl,rfl,rfl⟩⟩⟩
        | none =>
          simp only [hl] at h
          obtain ⟨hroom,h⟩:=Except.of_ite_left h
          cases hw : reserveWatermark env limits st.watermarkBytes r.stream with
          | error e => simp [hw] at h
          | ok bytes =>
            simp only [hw] at h
            cases h
            exact ⟨rfl,.inr ⟨r,hmark,.inr ⟨hl,hroom,hw,rfl⟩⟩⟩
      · rename_i hack
        cases h
        exact ⟨rfl,.inl ⟨by simp [Item.mark,hb,hack],rfl,rfl⟩⟩

theorem insertReceipt_spec {receipts receipts' : ReceiptIndex} {i : Item} (hi : i.Sound)
    (hok : receipts.Ok env limits) (h : insertReceipt env limits receipts i.receipt=.ok receipts') : receipts'.Ok env
    limits ∧ (fun key => receipts'.entries.lookup key)=record (fun key => receipts.entries.lookup key) i.receipt ∧
    ∀ r, i.receipt=some r ∨ receipts.entries.lookup r.key=some r → receipts'.entries.lookup r.key=some r := by
  cases hr : i.receipt with
  | none =>
    rw [hr] at h
    cases h
    exact ⟨hok,rfl,fun r h => h.elim (by simp) id⟩
  | some receipt =>
    rw [hr] at h
    obtain ⟨hok',hlook⟩:=ReceiptIndex.insert_spec hok (hi.receipt receipt hr) h
    have hknown : ∀ r, receipts.entries.lookup r.key=some r → receipts'.entries.lookup r.key=some r := by
      intro r hold
      rcases ReceiptIndex.insert_ok h with ⟨-,rfl⟩ | ⟨hroom,rfl⟩
      · exact hold
      · rw [hlook,if_neg]
        · exact hold
        · intro hkey
          exact absurd (hroom.new.symm.trans (hkey ▸ hold)) (by simp)
    refine ⟨hok',?_,?_⟩
    · funext key
      rw [hlook]
      simp only [record,Function.update_apply]
    · rintro r (hsome | hold)
      · cases hsome
        rw [hlook,if_pos rfl]
      · exact hknown r hold

theorem keys_insert_perm {α β : Type} [DecidableEq α] {m : AList fun _ : α => β} {a : α} (h : a∈m)
    (b : β) : (m.insert a b).keys.Perm m.keys := by
  rw [AList.keys_insert]
  exact (List.perm_cons_erase (AList.mem_keys.mp h)).symm

theorem keys_insert_new {α β : Type} [DecidableEq α] {m : AList fun _ : α => β} {a : α} (h : a∉m)
    (b : β) : (m.insert a b).keys=a::m.keys := by
  rw [AList.keys_insert,List.erase_of_not_mem (fun hmem => h (AList.mem_keys.mpr hmem))]

variable {acked : AList fun _ : Stream => ℕ}

theorem lookup_insert_fun (s : Stream) (n : ℕ) :
    (fun s' => (acked.insert s n).lookup s')=Function.update (fun s' => acked.lookup s') s (some n) := by
  funext s'
  by_cases hs : s'=s
  · subst hs
    simp
  · simp [hs]

structure Collected (env : WalEnv) (limits : WalLimits) (items : List Item) (st : Acks) : Prop where
  ok : AcksOk env limits st
  acked : (fun s => st.acked.lookup s)=(replay items).acked
  receipts : (fun key => st.receipts.entries.lookup key)=(replay items).receipts
  consistent : ∀ i∈items, ∀ r, i.receipt=some r → st.receipts.entries.lookup r.key=some r

theorem collected_empty : Collected env limits [] ⟨∅,0,.empty⟩ := by
  constructor
  · constructor
    · exact Nat.zero_le _
    · rfl
    · exact Nat.zero_le _
    · exact ReceiptIndex.empty_ok
    all_goals
      intro s n h
      simp at h
  · rfl
  · rfl
  · intro i hi
    contradiction

variable {items : List Item}

theorem collected_visit {st st' : Acks} {i : Item} (hi : i.Sound) (h : Collected env limits items st)
    (hv : st.visit env limits i=.ok st') : Collected env limits (items++[i]) st' := by
  obtain ⟨hr,hcase⟩:=visit_business hv
  obtain ⟨hrok,hrval,hrknown⟩:=insertReceipt_spec hi h.ok.receipts hr
  have hreceipts : (fun key => st'.receipts.entries.lookup key)=(replay (items++[i])).receipts := by
    rw [hrval,h.receipts,replay_snoc]
    rfl
  have hconsistent : ∀ j∈items++[i], ∀ r, j.receipt=some r → st'.receipts.entries.lookup r.key=some r := by
    intro j hj r hjr
    rcases List.mem_append.mp hj with hj | hj
    · exact hrknown r (.inr (h.consistent j hj r hjr))
    · rw [List.mem_singleton.mp hj] at hjr
      exact hrknown r (.inl hjr)
  rcases hcase with ⟨hm,hacked,hbytes⟩ | ⟨r,hm,hcase⟩
  · refine ⟨⟨?_,?_,?_,hrok,?_,?_,?_,?_⟩,?_,hreceipts,hconsistent⟩
    · rw [hacked]
      exact h.ok.streams_le
    · rw [hacked,hbytes]
      exact h.ok.watermark
    · rw [hbytes]
      exact h.ok.watermark_le
    · rw [hacked]
      exact h.ok.seq_pos
    · rw [hacked]
      exact h.ok.seq_le
    · rw [hacked]
      exact h.ok.endpoint
    · rw [hacked]
      exact h.ok.sender
    · rw [hacked,h.acked,replay_snoc]
      simp only [Value.apply,hm,raise]
  · obtain ⟨hb,-⟩:=mark_stream hm
    have hkeep : ∀ {P : Stream → ℕ → Prop} {n : ℕ} {acked : AList fun _ : Stream => ℕ},
        (∀ s n, st.acked.lookup s=some n → P s n) → P r.stream n →
        acked=st.acked.insert r.stream n → ∀ s n', acked.lookup s=some n' → P s n' := by
      intro P n acked hall hnew hacked s n' hl
      rw [hacked] at hl
      by_cases hs : s=r.stream
      · subst hs
        rw [AList.lookup_insert] at hl
        exact Option.some.inj hl ▸ hnew
      · rw [AList.lookup_insert_ne hs] at hl
        exact hall s n' hl
    have hpos:=hi.seq_pos r hb
    have hle:=hi.seq_le r hb
    have hend:=hi.endpoint r hb
    have hsend:=hi.sender r hb
    rcases hcase with ⟨n,hl,hacked,hbytes⟩ | ⟨hl,hroom,hw,hacked⟩
    · have hmem : r.stream∈st.acked := by
        rw [← AList.lookup_isSome,hl]
        rfl
      have hperm : st'.acked.keys.Perm st.acked.keys := by
        rw [hacked]
        exact keys_insert_perm hmem _
      have hn:=h.ok.seq_le _ _ hl
      refine ⟨⟨?_,?_,?_,hrok,hkeep h.ok.seq_pos (by omega) hacked,
        hkeep h.ok.seq_le (by omega) hacked,hkeep h.ok.endpoint hend hacked,
        hkeep h.ok.sender hsend hacked⟩,?_,hreceipts,hconsistent⟩
      · rw [hperm.length_eq]
        exact h.ok.streams_le
      · rw [hbytes,(hperm.map _).sum_eq]
        exact h.ok.watermark
      · rw [hbytes]
        exact h.ok.watermark_le
      · have hold:=congrFun h.acked r.stream
        rw [hacked,lookup_insert_fun,h.acked,replay_snoc]
        simp only [Value.apply,hm,raise,← hold,hl,Option.getD_some]
    · have hnot : r.stream∉st.acked := AList.lookup_eq_none.mp hl
      have hkeys : st'.acked.keys=r.stream::st.acked.keys := by
        rw [hacked]
        exact keys_insert_new hnot _
      have hsize:=h.ok.streams_le
      unfold reserveWatermark at hw
      obtain ⟨hfit,hw⟩:=Except.of_ite_right hw
      have hbytes:=Except.ok.inj hw
      refine ⟨⟨?_,?_,?_,hrok,hkeep h.ok.seq_pos hpos hacked,
        hkeep h.ok.seq_le hle hacked,hkeep h.ok.endpoint hend hacked,
        hkeep h.ok.sender hsend hacked⟩,?_,hreceipts,hconsistent⟩
      · rw [hkeys,List.length_cons]
        omega
      · rw [hkeys,List.map_cons,List.sum_cons,← h.ok.watermark,← hbytes,Nat.add_comm]
      · rw [← hbytes]
        exact hfit
      · have hold:=congrFun h.acked r.stream
        rw [hacked,lookup_insert_fun,h.acked,replay_snoc]
        simp only [Value.apply,hm,raise,← hold,hl,Option.getD_none,Nat.zero_max]

theorem collected_fold {acks : Acks} (hitems : ∀ i∈items, i.Sound)
    (h : items.foldlM (Acks.visit env limits) ⟨∅,0,.empty⟩=.ok acks) : Collected env limits items acks := by
  have hinv : (∀ i∈[]++items, i.Sound) → Collected env limits ([]++items) acks := by
    refine foldlM_invariant (P := fun done st => (∀ i∈done, i.Sound) →
      Collected env limits done st) ?_ (fun _ => collected_empty) h
    intro done st i st' hst hv hsound
    exact collected_visit (hsound i (by simp))
      (hst fun j hj => hsound j (List.mem_append_left _ hj)) hv
  exact hinv hitems

structure Gathered (env : WalEnv) (limits : WalLimits) (acked : Stream → Option ℕ) (items : List Item)
    (st : Pending) : Prop where
  pending : st.pending=(items.filterMap Item.message).filter fun p => !covered acked p
  bytes : st.bytes=(st.pending.map fun p => recordMemory env p.record).sum
  fits : PendingFits env limits st.pending

theorem pending_visit (acked : AList fun _ : Stream => ℕ) (st : Pending) (i : Item) :
    st.visit env limits acked i = match i.message.filter fun p => !covered (fun s => acked.lookup s) p with
      | none => .ok st
      | some p => do
        let bytes ← reservePending env limits p.record st.pending.length st.bytes
        return ⟨st.pending++[p],bytes⟩ := by
  unfold Pending.visit
  cases hb : i.business with
  | none => simp [Item.message,hb]
  | some r =>
    have hcov : covered (fun s => acked.lookup s) ⟨r,i.parent⟩=isAcked acked r := rfl
    by_cases hack : r.typeKey="#ack"
    · have hnone : i.message=none := by simp [Item.message,hb,hack,Option.filter]
      simp [hnone,hack]
    · have hsome : i.message=some ⟨r,i.parent⟩ := by simp [Item.message,hb,hack,Option.filter]
      cases hc : isAcked acked r with
      | true | false => simp [hsome,hack,hcov,hc,Option.filter]

theorem filterMap_message (acked : Stream → Option ℕ) (items : List Item) (i : Item) :
    ((items++[i]).filterMap Item.message).filter (fun p => !covered acked p)=(items.filterMap Item.message).filter
    (fun p => !covered acked p)++ (i.message.filter fun p => !covered acked p).toList := by
  rw [List.filterMap_append,List.filter_append]
  congr 1
  cases hm : i.message with
  | none => simp [hm]
  | some p =>
    by_cases hc : covered acked p=true
    · simp [hm,hc]
    · simp [hm,hc,Option.filter]

theorem gathered_visit {st st' : Pending} {i : Item} (h : Gathered env limits (fun s => acked.lookup s) items st)
    (hv : st.visit env limits acked i=.ok st') : Gathered env limits (fun s => acked.lookup s) (items++[i]) st' := by
  rw [pending_visit] at hv
  cases hm : i.message.filter fun p => !covered (fun s => acked.lookup s) p with
  | none =>
    rw [hm] at hv
    cases hv
    refine ⟨?_,h.bytes,h.fits⟩
    rw [filterMap_message,hm,Option.toList_none,List.append_nil]
    exact h.pending
  | some p =>
    rw [hm] at hv
    simp only [reservePending] at hv
    split at hv
    · contradiction
    · rename_i hcount
      split at hv
      · rename_i hfit
        cases hv
        have hsum : st.bytes+recordMemory env p.record =
            ((st.pending++[p]).map fun p => recordMemory env p.record).sum := by
          rw [h.bytes,List.map_append,List.sum_append]
          simp
        refine ⟨?_,hsum,?_,?_⟩
        · rw [filterMap_message,hm,Option.toList_some,h.pending]
        · rw [List.length_append,List.length_singleton]
          omega
        · rw [← hsum]
          exact hfit
      · contradiction

theorem gathered_total
    (hfits : PendingFits env limits
      ((items.filterMap Item.message).filter fun p => !covered (fun s => acked.lookup s) p)) :
    ∃ st, items.foldlM (Pending.visit env limits acked) ⟨[],0⟩=.ok st := by
  refine foldlM_total (P := Gathered env limits fun s => acked.lookup s) ?_
    ⟨rfl,rfl,Nat.zero_le _,Nat.zero_le _⟩
  intro done i rest st hsplit hst
  -- a prefix of what fits also fits
  have hlater : ∃ more, (items.filterMap Item.message).filter
      (fun p => !covered (fun s => acked.lookup s) p)=st.pending++
        (i.message.filter fun p => !covered (fun s => acked.lookup s) p).toList++more := by
    refine ⟨(rest.filterMap Item.message).filter fun p => !covered (fun s => acked.lookup s) p,?_⟩
    rw [hst.pending,← filterMap_message,hsplit,← List.filter_append,← List.filterMap_append,List.append_assoc]
    rfl
  obtain ⟨more,hmore⟩:=hlater
  have hok : ∃ st', st.visit env limits acked i=.ok st' := by
    rw [pending_visit]
    cases hm : i.message.filter fun p => !covered (fun s => acked.lookup s) p with
    | none => exact ⟨st,rfl⟩
    | some p =>
      rw [hm,Option.toList_some] at hmore
      rw [hmore] at hfits
      obtain ⟨hcount,hbytes⟩:=hfits
      simp only [List.length_append,List.length_singleton] at hcount
      simp only [List.map_append,List.sum_append,List.map_cons,List.map_nil,List.sum_singleton,
        ← hst.bytes] at hbytes
      dsimp only [reservePending]
      rw [if_neg (by omega),if_pos (by omega)]
      exact ⟨_,rfl⟩
  obtain ⟨st',hst'⟩:=hok
  exact ⟨st',hst',gathered_visit hst hst'⟩

theorem recover_spec {x : Index} (hitems : ∀ i∈items, i.Sound)
    (h : recover env limits items=.ok x) : Represents env limits x items := by
  unfold recover at h
  cases ha : items.foldlM (Acks.visit env limits) ⟨∅,0,.empty⟩ with
  | error e => simp [ha,bind,Except.bind] at h
  | ok acks =>
    simp only [ha,bind,Except.bind] at h
    cases hp : items.foldlM (Pending.visit env limits acks.acked) ⟨[],0⟩ with
    | error e => simp [hp] at h
    | ok pending =>
      simp only [hp] at h
      cases h
      have hcollected:=collected_fold hitems ha
      have hgathered : Gathered env limits (fun s => acks.acked.lookup s) ([]++items) pending :=
        foldlM_invariant (fun _ _ _ _ => gathered_visit) ⟨rfl,rfl,Nat.zero_le _,Nat.zero_le _⟩ hp
      rw [List.nil_append] at hgathered
      refine ⟨⟨hcollected.ok,hgathered.fits,hgathered.bytes⟩,?_,hcollected.consistent⟩
      have hpending : pending.pending=(replay items).pending := by
        rw [hgathered.pending,hcollected.acked,replay_pending]
      simp only [Index.value,hpending,hcollected.acked,hcollected.receipts]

theorem collect_within {top : Acks} (hitems : ∀ i∈items, i.Sound) (htop : AcksOk env limits top)
    (hstreams : ∀ i∈items, ∀ r, i.mark=some r → (top.acked.lookup r.stream).isSome)
    (hreceipts : ∀ i∈items, ∀ r, i.receipt=some r → top.receipts.entries.lookup r.key=some r) : ∃ acks,
    items.foldlM (Acks.visit env limits) ⟨∅,0,.empty⟩=.ok acks := by
  refine foldlM_total (P := fun done st => Collected env limits done st ∧
    (∀ s, (st.acked.lookup s).isSome → (top.acked.lookup s).isSome) ∧
    st.receipts.Within top.receipts) ?_ ⟨collected_empty,by simp,by intro key r h; simp [ReceiptIndex.empty] at h⟩
  intro done i rest st hsplit hinv
  obtain ⟨hst,hkeys,hwithin⟩:=hinv
  have hi : i∈items := by simp [hsplit]
  have hinsert : ∃ receipts', insertReceipt env limits st.receipts i.receipt=.ok receipts' := by
    cases hr : i.receipt with
    | none => exact ⟨_,rfl⟩
    | some r => exact ReceiptIndex.insert_within hst.ok.receipts htop.receipts hwithin (hreceipts i hi r hr)
  obtain ⟨receipts',hreceipts'⟩:=hinsert
  have hvisit : ∃ st', st.visit env limits i=.ok st' := by
    unfold Acks.visit
    rw [hreceipts']
    simp only [bind,Except.bind]
    cases hb : i.business with
    | none => exact ⟨_,rfl⟩
    | some r =>
      by_cases hack : r.typeKey="#ack"
      · simp only [if_pos hack]
        cases hl : st.acked.lookup r.stream with
        | some n => exact ⟨_,rfl⟩
        | none =>
          have hmark : i.mark=some r := by simp [Item.mark,hb,hack]
          have hnot : r.stream∉st.acked.keys := fun hmem => AList.lookup_eq_none.mp hl (AList.mem_keys.mpr hmem)
          have hnodup : (r.stream::st.acked.keys).Nodup := List.nodup_cons.mpr ⟨hnot,st.acked.keys_nodup⟩
          have hsub : (r.stream::st.acked.keys)⊆top.acked.keys := by
            intro s hs
            rw [← AList.mem_keys,← AList.lookup_isSome]
            rcases List.mem_cons.mp hs with rfl | hs
            · exact hstreams i hi r hmark
            · exact hkeys s (AList.lookup_isSome.mpr (AList.mem_keys.mpr hs))
          have hcount:=(List.subperm_of_subset hnodup hsub).length_le
          have hsum:=ReceiptIndex.sum_le_of_subset (watermarkMemory env) hnodup hsub
          have h1:=htop.streams_le
          have h2:=htop.watermark_le
          have h3:=htop.watermark
          have h4:=hst.ok.watermark
          rw [List.length_cons] at hcount
          rw [List.map_cons,List.sum_cons] at hsum
          dsimp only
          rw [if_neg (by omega)]
          simp only [reserveWatermark,if_pos (show st.watermarkBytes+watermarkMemory env r.stream ≤
            limits.maxWatermarkBytes by omega)]
          exact ⟨_,rfl⟩
      · simp only [if_neg hack]
        exact ⟨_,rfl⟩
  obtain ⟨st',hst'⟩:=hvisit
  have hnext:=collected_visit (hitems i hi) hst hst'
  refine ⟨st',hst',hnext,?_,?_⟩
  · intro s hs
    obtain ⟨-,⟨-,hacked,-⟩ | ⟨r,hm,⟨n,hl,hacked,-⟩ | ⟨hl,-,-,hacked⟩⟩⟩:=visit_business hst'
    · rw [hacked] at hs
      exact hkeys s hs
    · by_cases hsr : s=r.stream
      · rw [hsr]
        exact hstreams i hi r hm
      · rw [hacked,AList.lookup_insert_ne hsr] at hs
        exact hkeys s hs
    · by_cases hsr : s=r.stream
      · rw [hsr]
        exact hstreams i hi r hm
      · rw [hacked,AList.lookup_insert_ne hsr] at hs
        exact hkeys s hs
  · intro key r hr
    have hins:=(visit_business hst').1
    cases hir : i.receipt with
    | none =>
      rw [hir] at hins
      exact hwithin key r (Except.ok.inj hins ▸ hr)
    | some receipt =>
      rw [hir] at hins
      obtain ⟨-,hlook⟩:=ReceiptIndex.insert_spec hst.ok.receipts ((hitems i hi).receipt _ hir) hins
      rw [hlook] at hr
      split at hr
      · rename_i hkey
        rw [hkey,← Option.some.inj hr]
        exact hreceipts i hi receipt hir
      · exact hwithin key r hr

theorem recover_within {top : Acks} (hitems : ∀ i∈items, i.Sound) (htop : AcksOk env limits top)
    (hstreams : ∀ i∈items, ∀ r, i.mark=some r → (top.acked.lookup r.stream).isSome)
    (hreceipts : ∀ i∈items, ∀ r, i.receipt=some r → top.receipts.entries.lookup r.key=some r)
    (hpending : PendingFits env limits (replay items).pending) : ∃ x, recover env limits items=.ok x := by
  obtain ⟨acks,hacks⟩:=collect_within hitems htop hstreams hreceipts
  have hcollected:=collected_fold hitems hacks
  obtain ⟨pending,hp⟩:=@gathered_total env limits acks.acked items (by rwa [hcollected.acked,← replay_pending])
  refine ⟨⟨acks.acked,acks.watermarkBytes,pending.pending,pending.bytes,acks.receipts⟩,?_⟩
  unfold recover
  rw [hacks]
  simp only [bind,Except.bind,hp]
  rfl

end env
end Parrot.Wal
