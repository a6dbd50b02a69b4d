import Mathlib.Order.Bounds.Basic
import Mathlib.Order.MinMax
import Mathlib.Order.WithBot

/-! # Keeping the newest record

Replicas that hold at most one record each and replace it only by one of a greater
rank. The ranks then form a join, whatever else the records hold. -/

namespace Parrot.Newest

variable {R L : Type*} [LinearOrder L] (rank : R → L)

def newer (a b : Option R) : Option R :=
  match a,b with
  | none,b => b
  | a,none => a
  | some x,some y => if rank x<rank y then some y else some x

def level (a : Option R) : WithBot L := a.map rank

@[simp] theorem newer_none (a : Option R) : newer rank a none=a := by cases a <;> rfl
theorem level_newer (a b : Option R) : level rank (newer rank a b)=max (level rank a) (level rank b) := by
  cases a with
  | none => exact (max_eq_right bot_le).symm
  | some x =>
    cases b with
    | none => exact (max_eq_left bot_le).symm
    | some y =>
      by_cases h : rank x<rank y
      · simp only [newer,if_pos h]
        exact (max_eq_right (WithBot.coe_le_coe.mpr h.le)).symm
      · simp only [newer,if_neg h]
        exact (max_eq_left (WithBot.coe_le_coe.mpr (not_lt.mp h))).symm

theorem newer_eq_left {a b : Option R} (h : level rank b≤level rank a) : newer rank a b=a := by
  cases b with
  | none => exact newer_none rank a
  | some y =>
    cases a with
    | none => exact absurd h (not_le.mpr (WithBot.bot_lt_coe _))
    | some x => exact if_neg (not_lt.mpr (WithBot.coe_le_coe.mp h))

theorem level_fold (l : List R) (a : Option R) : IsGreatest ({level rank a} ∪ {v | ∃ x∈l, v=(rank x : WithBot L)})
    (level rank (l.foldl (fun a x => newer rank a (some x)) a)) := by
  induction l generalizing a with
  | nil =>
    refine ⟨.inl rfl,?_⟩
    intro v hv
    rcases hv with hv | ⟨x,hx,-⟩
    · exact le_of_eq hv
    · contradiction
  | cons y l ih =>
    obtain ⟨hmem,hup⟩:=ih (newer rank a (some y))
    rw [level_newer] at hmem hup
    constructor
    · rcases hmem with hmem | ⟨x,hx,hv⟩
      · rcases max_choice (level rank a) (level rank (some y)) with h | h
        · exact .inl (hmem.trans h)
        · exact .inr ⟨y,List.mem_cons_self ..,hmem.trans h⟩
      · exact .inr ⟨x,List.mem_cons_of_mem y hx,hv⟩
    · intro v hv
      rcases hv with hv | ⟨x,hx,hv⟩
      · exact hv.le.trans ((le_max_left ..).trans (hup (.inl rfl)))
      · rcases List.mem_cons.mp hx with heq | hx
        · rw [hv,heq]
          exact (le_max_right ..).trans (hup (.inl rfl))
        · exact hup (.inr ⟨x,hx,hv⟩)

end Parrot.Newest
