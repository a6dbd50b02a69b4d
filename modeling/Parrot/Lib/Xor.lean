import Mathlib.Algebra.BigOperators.Group.Finset.Basic
import Mathlib.Algebra.Ring.Parity
import Mathlib.Data.Finset.Powerset

/-! # XOR sums

The words of 64 bits under XOR are a group in which every element is its own inverse,
so a sum sees of each term only whether it occurs an odd number of times. -/

namespace Parrot.Xor

def xorAll (s : Multiset UInt64) : UInt64 := s.fold (· ^^^ ·) 0

def Word : Type := UInt64

instance : Zero Word := ⟨(0 : UInt64)⟩
instance : Add Word := ⟨UInt64.xor⟩
instance : Neg Word := ⟨fun a => a⟩

instance : AddCommGroup Word where
  add_assoc := UInt64.xor_assoc
  zero_add _ := UInt64.zero_xor
  add_zero _ := UInt64.xor_zero
  add_comm := UInt64.xor_comm
  neg_add_cancel _ := UInt64.xor_self
  nsmul := nsmulRec
  zsmul := zsmulRec

theorem add_self (a : Word) : a+a=0 := UInt64.xor_self

theorem nsmul_parity (n : ℕ) (a : Word) : n • a=if Odd n then a else 0 := by
  split
  · rename_i hodd
    obtain ⟨k,rfl⟩:=hodd
    rw [add_nsmul,mul_comm,mul_nsmul,two_nsmul,add_self,zero_add,one_nsmul]
  · rename_i heven
    obtain ⟨k,rfl⟩:=Nat.not_odd_iff_even.mp heven
    rw [add_nsmul,add_self]

theorem add_eq_add_iff {x y z w : Word} : x+y=z+w ↔ x+z=y+w := by
  have hzero : ∀ a b : Word, a=b ↔ a+b=0 := fun a b => (add_eq_zero_iff_eq_neg (b := b)).symm
  rw [hzero,hzero (x+z),add_add_add_comm]

theorem xor_eq_xor_iff {x y z w : UInt64} : x ^^^ y=z ^^^ w ↔ x ^^^ z=y ^^^ w := @add_eq_add_iff x y z w

variable {α : Type*}

theorem xorAll_bind (s : Multiset α) (t : α → Multiset UInt64) : xorAll (s.bind t)=xorAll (s.map fun a => xorAll (t a)) :=
  @Multiset.sum_bind α Word _ s t

theorem xorAll_add (s t : Multiset UInt64) : xorAll (s+t)=xorAll s ^^^ xorAll t := Multiset.sum_add (M := Word) s t

theorem xorAll_map_xor (f g : α → UInt64) (s : Multiset α) :
    xorAll (s.map fun x => f x ^^^ g x)=xorAll (s.map f) ^^^ xorAll (s.map g) := Multiset.sum_map_add (M := Word)

variable [DecidableEq α]

def odds (s : Multiset α) : Finset α := s.toFinset.filter fun x => Odd (s.count x)

theorem mem_odds {s : Multiset α} {x : α} : x∈odds s ↔ Odd (s.count x) := by
  unfold odds
  rw [Finset.mem_filter,Multiset.mem_toFinset]
  refine ⟨fun h => h.2,fun h => ⟨?_,h⟩⟩
  rw [← Multiset.count_pos]
  obtain ⟨k,hk⟩:=h
  omega

theorem sum_odds (g : α → Word) (s : Multiset α) : (s.map g).sum = ∑ x∈odds s, g x := by
  unfold odds
  rw [Finset.sum_multiset_map_count,Finset.sum_filter]
  exact Finset.sum_congr rfl fun x _ => nsmul_parity (s.count x) (g x)

theorem xorAll_odds (f : α → UInt64) (s : Multiset α) : xorAll (s.map f)=xorAll ((odds s).val.map f) := sum_odds f s

end Parrot.Xor
