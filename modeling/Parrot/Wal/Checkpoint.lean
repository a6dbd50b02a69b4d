import Parrot.Wal.Layout

/-! # Checkpoints

A checkpoint repeats the watermarks and receipts of a log with nothing pending. -/

namespace Parrot.Wal
open Machine

structure Under (v : Value) (i : Item) : Prop where
  mark : ∀ r, i.mark=some r → ∃ n, v.acked r.stream=some n ∧ r.seq≤n
  message : ∀ p, i.message=some p → covered v.acked p=true
  receipt : ∀ r, i.receipt=some r → v.receipts r.key=some r

variable {items : List Item}

theorem replay_receipts {key : String × String × String} {r : Receipt}
    (h : (replay items).receipts key=some r) : ∃ i∈items, i.receipt=some r ∧ r.key=key := by
  induction items using List.reverseRecOn with
  | nil => simp [Value.empty] at h
  | append_singleton items j ih =>
    rw [replay_snoc] at h
    simp only [Value.apply] at h
    have hlift : (replay items).receipts key=some r → ∃ i∈items++[j], i.receipt=some r ∧ r.key=key := by
      intro hr
      obtain ⟨i,hi,hir⟩:=ih hr
      exact ⟨i,List.mem_append_left _ hi,hir⟩
    cases hj : j.receipt with
    | none =>
      rw [hj] at h
      exact hlift h
    | some r' =>
      rw [hj] at h
      simp only [record] at h
      by_cases hk : key=r'.key
      · rw [hk,Function.update_self] at h
        cases h
        exact ⟨j,List.mem_append_right _ (List.mem_singleton_self _),hj,hk.symm⟩
      · rw [Function.update_of_ne hk] at h
        exact hlift h

theorem replay_received {i : Item} {r : Receipt} (hi : i∈items)
    (h : i.receipt=some r) : ∃ r', (replay items).receipts r.key=some r' := by
  induction items using List.reverseRecOn with
  | nil => contradiction
  | append_singleton items j ih =>
    rw [replay_snoc]
    simp only [Value.apply]
    rcases List.mem_append.mp hi with hi | hi
    · obtain ⟨r',hr'⟩:=ih hi
      cases hj : j.receipt with
      | none => exact ⟨r',hr'⟩
      | some r'' =>
        simp only [record]
        by_cases hk : r.key=r''.key
        · rw [hk,Function.update_self]
          exact ⟨_,rfl⟩
        · rw [Function.update_of_ne hk]
          exact ⟨r',hr'⟩
    · rw [← List.mem_singleton.mp hi,h]
      simp only [record,Function.update_self]
      exact ⟨_,rfl⟩

theorem replay_complete {v : Value} (hunder : ∀ i∈items, Under v i)
    (hmarks : ∀ s n, v.acked s=some n → ∃ i∈items, ∃ r, i.mark=some r ∧ r.stream=s ∧ r.seq=n) (hreceipts : ∀ key r,
    v.receipts key=some r → ∃ i∈items, i.receipt=some r ∧ r.key=key) : replay items=⟨v.acked,[],v.receipts⟩ := by
  have hacked : (replay items).acked=v.acked := by
    funext s
    cases hv : v.acked s with
    | none =>
      cases hr : (replay items).acked s with
      | none => rfl
      | some m =>
        obtain ⟨i,hi,r,hmark,rfl,-⟩:=replay_acked hr
        obtain ⟨n,hn,-⟩:=(hunder i hi).mark r hmark
        exact absurd (hv.symm.trans hn) (by simp)
    | some n =>
      obtain ⟨i,hi,r,hmark,rfl,rfl⟩:=hmarks s n hv
      obtain ⟨m,hm,hle⟩:=replay_marked hi hmark
      obtain ⟨j,hj,r',hmark',hs,rfl⟩:=replay_acked hm
      obtain ⟨n',hn',hle'⟩:=(hunder j hj).mark r' hmark'
      rw [hs,hv] at hn'
      have hsame : r'.seq=r.seq := by
        have:=Option.some.inj hn'
        omega
      rw [hm,hsame]
  have hreceipt : (replay items).receipts=v.receipts := by
    funext key
    cases hv : v.receipts key with
    | none =>
      cases hr : (replay items).receipts key with
      | none => rfl
      | some r =>
        obtain ⟨i,hi,hir,rfl⟩:=replay_receipts hr
        exact absurd (hv.symm.trans ((hunder i hi).receipt r hir)) (by simp)
    | some r =>
      obtain ⟨i,hi,hir,rfl⟩:=hreceipts key r hv
      obtain ⟨r',hr'⟩:=replay_received hi hir
      obtain ⟨j,hj,hjr,hkey⟩:=replay_receipts hr'
      have hsame:=(hunder j hj).receipt r' hjr
      rw [hkey,hv] at hsame
      rw [hr',hsame]
  have hpending : (replay items).pending=[] := by
    rw [replay_pending,hacked,List.filter_eq_nil_iff]
    intro p hp
    obtain ⟨i,hi,hip⟩:=List.mem_filterMap.mp hp
    rw [(hunder i hi).message p hip]
    decide
  rw [← hacked,← hpending,← hreceipt]

theorem apply_known {i : Item} (h : Under (replay items) i)
    (hmessage : i.message=none) : (replay items).apply i=replay items := by
  have hacked : raise (replay items).acked i.mark=(replay items).acked := by
    cases hm : i.mark with
    | none => rfl
    | some r =>
      obtain ⟨n,hn,hle⟩:=h.mark r hm
      simp only [raise,hn,Option.getD_some,Nat.max_eq_left hle]
      rw [← hn,Function.update_eq_self]
  have hreceipts : record (replay items).receipts i.receipt=(replay items).receipts := by
    cases hr : i.receipt with
    | none => rfl
    | some r =>
      simp only [record]
      rw [← h.receipt r hr,Function.update_eq_self]
  have hpending : (replay items).pending.filter (fun p => !covered (replay items).acked p) =
      (replay items).pending := by
    rw [List.filter_eq_self]
    intro p hp
    rw [replay_uncovered hp]
    rfl
  simp only [Value.apply,hacked,hreceipts,hmessage,Option.toList_none,List.append_nil,hpending]

theorem replay_known {items more : List Item} (h : ∀ i∈more, Under (replay items) i)
    (hmessage : ∀ i∈more, i.message=none) : replay (items++more)=replay items := by
  induction more using List.reverseRecOn with
  | nil => rw [List.append_nil]
  | append_singleton more i ih =>
    have hprev:=ih (fun j hj => h j (List.mem_append_left _ hj))
      (fun j hj => hmessage j (List.mem_append_left _ hj))
    have hi : i∈more++[i] := List.mem_append_right _ (List.mem_singleton_self _)
    rw [← List.append_assoc,replay_snoc]
    refine (apply_known ?_ (hmessage i hi)).trans hprev
    rw [hprev]
    exact h i hi

theorem under_replay {i : Item} (hi : i∈items)
    (hconsistent : ∀ r, i.receipt=some r → (replay items).receipts r.key=some r) {acked : Stream → Option ℕ}
    (hmono : ∀ s n, (replay items).acked s=some n → ∃ m, acked s=some m ∧ n ≤ m)
    (hcleared : ∀ p∈(replay items).pending, covered acked p=true) : Under ⟨acked,[],(replay items).receipts⟩ i := by
  constructor
  · intro r hr
    obtain ⟨n,hn,hle⟩:=replay_marked hi hr
    obtain ⟨m,hm,hle'⟩:=hmono _ n hn
    exact ⟨m,hm,hle.trans hle'⟩
  · intro p hp
    by_cases hc : covered (replay items).acked p=true
    · unfold covered at hc ⊢
      cases ha : (replay items).acked p.record.stream with
      | none => simp [ha] at hc
      | some n =>
        obtain ⟨m,hm,hle⟩:=hmono _ n ha
        simp only [ha,Option.any_some,decide_eq_true_eq] at hc
        simp only [hm,Option.any_some,decide_eq_true_eq]
        omega
    · refine hcleared p ?_
      rw [replay_pending]
      refine List.mem_filter.mpr ⟨List.mem_filterMap.mpr ⟨i,hi,hp⟩,?_⟩
      simpa using hc
  · exact hconsistent

end Parrot.Wal
