import Mathlib.Data.Finset.Card
import Mathlib.Order.Bounds.Basic

/-! # Watermarks

A set of positive numbers kept as a watermark `w`, which stands for `1..w`, and the
numbers above it that are in the set out of order. -/

namespace Watermark

variable {s : Set ℕ} {w n : ℕ} {gaps : Finset ℕ}

def Covers (s : Set ℕ) (w : ℕ) : Prop := ∀ n, 0<n → n≤w → n∈s

theorem isGreatest (h : Covers s w) (hnext : w+1∉s) : IsGreatest {v | Covers s v} w := by
  constructor
  · exact h
  · intro v hv
    by_contra hlt
    exact hnext (hv (w+1) (Nat.succ_pos w) (by omega))

structure Splits (s : Set ℕ) (w : ℕ) (gaps : Finset ℕ) : Prop where
  mem : ∀ n, n∈s ↔ (0<n ∧ n≤w) ∨ n∈gaps
  above : ∀ g∈gaps, w<g

structure Compact (s : Set ℕ) (w : ℕ) (gaps : Finset ℕ) : Prop extends Splits s w gaps where
  next : w+1∉gaps

theorem compact_empty : Compact (∅ : Set ℕ) 0 ∅ where
  mem := by
    intro n
    simp only [Set.mem_empty_iff_false,Finset.notMem_empty,or_false,false_iff]
    omega
  above := by simp
  next := by simp

namespace Splits

theorem covers (h : Splits s w gaps) : Covers s w := fun n hpos hle => (h.mem n).mpr (.inl ⟨hpos,hle⟩)

theorem raise (h : Splits s w gaps) (hmem : w+1∈gaps) : Splits s (w+1) (gaps.erase (w+1)) where
  mem := by
    intro n
    rw [h.mem n,Finset.mem_erase]
    by_cases hn : n=w+1
    · subst hn
      simp [hmem]
    · simp only [hn,ne_eq,not_false_eq_true,true_and]
      have : n≤w+1 ↔ n≤w := by omega
      rw [this]
  above := by
    intro g hg
    obtain ⟨hne,hg⟩:=Finset.mem_erase.mp hg
    have:=h.above g hg
    omega

theorem compact (h : Splits s w gaps) (hnext : w+1∉gaps) : Compact s w gaps := ⟨h,hnext⟩

end Splits

namespace Compact

section
variable (h : Compact s w gaps)
include h

theorem not_mem_next : w+1∉s := by
  rw [h.mem]
  rintro (hle | hmem)
  · omega
  · exact h.next hmem

theorem greatest : IsGreatest {v | Covers s v} w := isGreatest h.covers h.not_mem_next

theorem above_next {g : ℕ} (hg : g∈gaps) : w+1<g := by
  have habove:=h.above g hg
  have hne : g≠w+1 := fun heq => h.next (heq ▸ hg)
  omega

theorem not_mem (hw : w<n) (hg : n∉gaps) : n∉s := by
  rw [h.mem]
  rintro (hle | hmem)
  · omega
  · exact hg hmem

theorem insert_gap (hw : w<n) (hne : n≠w+1) :
    Compact (insert n s) w (insert n gaps) where
  mem := by
    intro x
    rw [Set.mem_insert_iff,Finset.mem_insert,h.mem]
    tauto
  above := by
    intro g hg
    rcases Finset.mem_insert.mp hg with rfl | hg
    · exact hw
    · exact h.above g hg
  next := by
    rw [Finset.mem_insert]
    rintro (heq | hmem)
    · exact hne heq.symm
    · exact h.next hmem

theorem insert_next : Splits (insert (w+1) s) (w+1) gaps where
  mem := by
    intro x
    rw [Set.mem_insert_iff,h.mem]
    have : x≤w+1 ↔ x=w+1 ∨ x≤w := by omega
    rw [this]
    constructor
    · rintro (rfl | ⟨hpos,hle⟩ | hmem)
      · exact .inl ⟨Nat.succ_pos w,.inl rfl⟩
      · exact .inl ⟨hpos,.inr hle⟩
      · exact .inr hmem
    · rintro (⟨hpos,rfl | hle⟩ | hmem)
      · exact .inl rfl
      · exact .inr (.inl ⟨hpos,hle⟩)
      · exact .inr (.inr hmem)
  above := by
    intro g hg
    exact h.above_next hg

end

end Compact

end Watermark
