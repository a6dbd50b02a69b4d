import Mathlib.Data.List.Sort

/-! # The value that a quorum reaches

Sorting and taking the element `q` places from the end gives a value that at
least `q` of the elements reach. -/

namespace Median

theorem filter_ge_of_sorted {l : List ℕ} (hs : l.Pairwise (·≤·)) {k v : ℕ} (hv : l[k]? = some v) :
    l.length-k≤(l.filter (v ≤ ·)).length := by
  obtain ⟨hk,rfl⟩:=List.getElem?_eq_some_iff.mp hv
  have htail : ∀ x∈l.drop k, l[k]≤x := by
    intro x hx
    obtain ⟨j,hj⟩:=List.getElem?_of_mem hx
    rw [List.getElem?_drop] at hj
    obtain ⟨hkj,rfl⟩:=List.getElem?_eq_some_iff.mp hj
    by_cases h0 : j=0
    · subst h0
      simp
    · exact List.pairwise_iff_getElem.mp hs k (k+j) hk hkj (by omega)
  have hfilter : (l.drop k).filter (l[k] ≤ ·)=l.drop k :=
    List.filter_eq_self.mpr fun x hx => decide_eq_true (htail x hx)
  calc l.length-k=(l.drop k).length := List.length_drop.symm
    _ = ((l.drop k).filter (l[k] ≤ ·)).length := by rw [hfilter]
    _ ≤ (l.filter (l[k] ≤ ·)).length := ((List.drop_sublist k l).filter _).length_le

theorem quorum_reaches {l : List ℕ} {q v : ℕ} (hq : q≤l.length)
    (hv : (l.mergeSort fun a b => decide (a≤b))[(l.mergeSort fun a b => decide (a≤b)).length-q]? = some v) :
    q≤(l.filter (v ≤ ·)).length ∧ v∈l := by
  have hperm:=List.mergeSort_perm l fun a b => decide (a≤b)
  have hsorted : (l.mergeSort fun a b => decide (a≤b)).Pairwise (·≤·) := by
    refine (List.pairwise_mergeSort ?_ ?_ l).imp fun h => of_decide_eq_true h
    · intro a b c
      simpa using Nat.le_trans
    · intro a b
      simpa using Nat.le_total a b
  have hcount:=filter_ge_of_sorted hsorted hv
  have hlen:=hperm.length_eq
  have hfilter:=(hperm.filter (v ≤ ·)).length_eq
  exact ⟨by omega,hperm.mem_iff.mp (List.mem_of_getElem? hv)⟩

end Median
