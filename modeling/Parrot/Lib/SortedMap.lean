import Mathlib.Algebra.Group.Nat.Defs
import Mathlib.Data.List.Basic
import Mathlib.Order.Lattice

/-! # Maps kept in key order

The entries of an ordered map, smallest key first. -/

namespace SortedMap
open List (mem_cons_of_mem mem_cons_self lookup_cons)

variable {κ α : Type}

def keys (l : List (κ × α)) : List κ := l.map Prod.fst

@[simp] theorem keys_nil : keys ([] : List (κ × α))=[] := rfl
@[simp] theorem keys_cons (e : κ × α) (l : List (κ × α)) : keys (e::l)=e.1::keys l := rfl
@[simp] theorem keys_append (l m : List (κ × α)) : keys (l++m)=keys l++keys m := List.map_append

theorem length_keys (l : List (κ × α)) : (keys l).length=l.length := List.length_map _

variable [LinearOrder κ]

/-- The entry under `k` is replaced where there is one. -/
def insert (k : κ) (a : α) : List (κ × α) → List (κ × α)
  | [] => [(k,a)]
  | e::rest =>
    if k<e.1 then (k,a)::e::rest
    else if k=e.1 then (k,a)::rest
    else e::insert k a rest

example : insert 1 () []=[(1,())] := by simp [insert]

def Sorted (l : List (κ × α)) : Prop := (keys l).Pairwise (·<·)

theorem mem_keys_insert (k : κ) (a : α) (l : List (κ × α)) (x : κ) : x∈keys (insert k a l) ↔ x=k ∨ x∈keys l := by
  induction l with
  | nil => simp [insert]
  | cons e rest ih =>
    simp only [insert]
    split
    · simp
    · split
      · rename_i heq
        simp [heq]
      · simp only [keys_cons,List.mem_cons,ih]
        tauto

theorem mem_insert (k : κ) (a : α) (l : List (κ × α)) {e : κ × α} (h : e∈insert k a l) : e=(k,a) ∨ e∈l := by
  induction l with
  | nil => exact .inl (List.mem_singleton.mp h)
  | cons x rest ih =>
    simp only [insert] at h
    split at h
    · exact List.mem_cons.mp h
    · split at h
      · rcases List.mem_cons.mp h with h | h
        · exact .inl h
        · exact .inr (mem_cons_of_mem _ h)
      · rcases List.mem_cons.mp h with rfl | h
        · exact .inr (mem_cons_self ..)
        · rcases ih h with h | h
          · exact .inl h
          · exact .inr (mem_cons_of_mem _ h)

theorem mem_insert_self (k : κ) (a : α) (l : List (κ × α)) : (k,a)∈insert k a l := by
  induction l with
  | nil => exact List.mem_singleton_self _
  | cons x rest ih =>
    simp only [insert]
    split
    · exact mem_cons_self ..
    · split
      · exact mem_cons_self ..
      · exact mem_cons_of_mem _ ih

theorem mem_insert_of_ne (k : κ) (a : α) {l : List (κ × α)} {e : κ × α} (h : e∈l) (hne : e.1≠k) : e∈insert k a l := by
  induction l with
  | nil => contradiction
  | cons x rest ih =>
    simp only [insert]
    split
    · exact mem_cons_of_mem _ h
    · split
      · rename_i heq
        rcases List.mem_cons.mp h with rfl | h
        · exact absurd heq.symm hne
        · exact mem_cons_of_mem _ h
      · rcases List.mem_cons.mp h with rfl | h
        · exact mem_cons_self ..
        · exact mem_cons_of_mem _ (ih h)

theorem sorted_insert (k : κ) (a : α) {l : List (κ × α)} (h : Sorted l) : Sorted (insert k a l) := by
  induction l with
  | nil => simp [insert,Sorted]
  | cons e rest ih =>
    have hcons:=List.pairwise_cons.mp h
    simp only [insert]
    split
    · rename_i hlt
      refine List.pairwise_cons.mpr ⟨?_,h⟩
      intro x hx
      rcases List.mem_cons.mp hx with rfl | hx
      · exact hlt
      · exact lt_trans hlt (hcons.1 x hx)
    · split
      · rename_i heq
        refine List.pairwise_cons.mpr ⟨?_,hcons.2⟩
        intro x hx
        rw [show ((k,a) : κ × α).1=e.1 from heq]
        exact hcons.1 x hx
      · rename_i hnot hne
        refine List.pairwise_cons.mpr ⟨?_,ih hcons.2⟩
        intro x hx
        rcases (mem_keys_insert k a rest x).mp hx with rfl | hx
        · exact lt_of_le_of_ne (not_lt.mp hnot) (Ne.symm hne)
        · exact hcons.1 x hx

theorem length_insert_le (k : κ) (a : α) (l : List (κ × α)) : (insert k a l).length≤l.length+1 := by
  induction l with
  | nil => simp [insert]
  | cons e rest ih =>
    simp only [insert]
    split
    · simp
    · split
      · simp
      · simp only [List.length_cons]
        omega

theorem lookup_insert [BEq κ] [LawfulBEq κ] (k : κ) (a : α) (l : List (κ × α)) (x : κ) :
    (insert k a l).lookup x=if x=k then some a else l.lookup x := by
  induction l with
  | nil =>
    by_cases hx : x=k
    · simp [insert,hx]
    · simp [insert,hx,lookup_cons,beq_false_of_ne hx]
  | cons e rest ih =>
    obtain ⟨k',a'⟩:=e
    simp only [insert]
    split
    · by_cases hx : x=k
      · simp [hx]
      · simp [hx,lookup_cons,beq_false_of_ne hx]
    · split
      · rename_i hk
        subst hk
        by_cases hx : x=k
        · simp [hx]
        · simp [hx,lookup_cons,beq_false_of_ne hx]
      · rename_i hk
        by_cases hx : x=k'
        · subst hx
          simp [Ne.symm hk]
        · simp [lookup_cons,beq_false_of_ne hx,ih]

theorem insert_ne_nil (k : κ) (a : α) (l : List (κ × α)) : insert k a l≠[] := by
  intro h
  have hmem:=(mem_keys_insert k a l k).mpr (.inl rfl)
  rw [h] at hmem
  contradiction

end SortedMap
