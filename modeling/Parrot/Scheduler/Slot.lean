import Mathlib.Data.Nat.Notation

/-! # The schedule slot of a mailbox (`thread/mailbox/mod.rs:55-128`)

One atomic word of two bits. -/

namespace Parrot.Scheduler

structure ScheduleState where
  owned : Bool
  wake : Bool

namespace ScheduleState

def new : ScheduleState := ⟨false,false⟩

variable (s : ScheduleState)

def tryEnqueue : Bool × ScheduleState :=
  let free:=!s.owned
  (free,if free then ⟨true,false⟩ else {s with wake:=true})

def release (hasMore : Bool) : Bool × ScheduleState :=
  let requeue:=hasMore||s.wake
  (requeue,⟨requeue,false⟩)

def forceRelease (_ : ScheduleState) : ScheduleState := ⟨false,false⟩

def owners : ℕ := if s.owned then 1 else 0

theorem owners_le : s.owners≤1 := by
  unfold owners
  split <;> omega

theorem owners_pos {s : ScheduleState} : 0<s.owners ↔ s.owned=true := by
  unfold owners
  split <;> simp_all

theorem tryEnqueue_cases :
    (s.tryEnqueue=(true,⟨true,false⟩) ∧ s.owned=false) ∨ (s.tryEnqueue=(false,⟨true,true⟩) ∧ s.owned=true) := by
  obtain ⟨owned,wake⟩:=s
  cases owned with
  | false => exact .inl ⟨rfl,rfl⟩
  | true => exact .inr ⟨rfl,rfl⟩

theorem release_cases (hasMore : Bool) : (s.release hasMore=(true,⟨true,false⟩) ∧ (hasMore=true ∨ s.wake=true)) ∨
    (s.release hasMore=(false,⟨false,false⟩) ∧ hasMore=false ∧ s.wake=false) := by
  obtain ⟨owned,wake⟩:=s
  cases hasMore <;> cases wake <;> simp [release]

end ScheduleState

/-- The part of one holder of `m` in the account of a mailbox. -/
def share (mailbox m : ℕ) : ℕ := if m=mailbox then 1 else 0

theorem share_pos {mailbox m : ℕ} : 0<share mailbox m ↔ m=mailbox := by
  unfold share
  split <;> simp_all

@[simp] theorem share_self (mailbox : ℕ) : share mailbox mailbox=1 := if_pos rfl

section account
variable {slots slots' : ℕ → ScheduleState} {m : ℕ} {slot : ScheduleState}

theorem share_le_owners (h : (slots m).owned=true) (mailbox : ℕ) : share mailbox m≤(slots mailbox).owners := by
  unfold share
  split
  · rename_i heq
    exact ScheduleState.owners_pos.mpr (heq ▸ h)
  · omega

variable (hslots : ∀ id, slots' id=if id=m then slot else slots id)
include hslots

theorem owners_taken (hfree : (slots m).owned=false) (hslot : slot.owned=true) (mailbox : ℕ) :
    share mailbox m+(slots mailbox).owners=(slots' mailbox).owners := by
  rw [hslots,share]
  by_cases heq : mailbox=m
  · rw [if_pos heq.symm,if_pos heq,heq]
    simp [ScheduleState.owners,hfree,hslot]
  · rw [if_neg fun h => heq h.symm,if_neg heq,Nat.zero_add]

theorem owners_left {mailbox : ℕ} (hheld : share mailbox m≤(slots mailbox).owners) (hslot : slot.owned=false) :
    (slots mailbox).owners=share mailbox m+(slots' mailbox).owners := by
  have hle:=(slots mailbox).owners_le
  have hzero : slot.owners=0 := by simp [ScheduleState.owners,hslot]
  rw [hslots]
  unfold share at hheld ⊢
  by_cases heq : mailbox=m
  · rw [if_pos heq.symm] at hheld ⊢
    rw [if_pos heq]
    omega
  · rw [if_neg fun h => heq h.symm,if_neg heq,Nat.zero_add]

theorem owners_kept {mailbox : ℕ} (hheld : share mailbox m≤(slots mailbox).owners) (hslot : slot.owned=true) :
    (slots' mailbox).owners=(slots mailbox).owners := by
  have hle:=(slots mailbox).owners_le
  have hone : slot.owners=1 := by simp [ScheduleState.owners,hslot]
  rw [hslots]
  unfold share at hheld
  by_cases heq : mailbox=m
  · rw [if_pos heq.symm] at hheld
    rw [if_pos heq]
    omega
  · rw [if_neg heq]

end account
end Parrot.Scheduler
