import Mathlib.Data.List.Basic

/-! # Sliding windows

A budget grants so many requests in any window of time. It keeps the times of its grants and
forgets, at each request, those that no longer count. -/

namespace Parrot.Window

/-- The times that still count at `now`. -/
def recent (w now : ℕ) (times : List ℕ) : List ℕ := times.filter fun t => now-t<w

/-- The answer to a request, and the times that are kept. -/
def admits (n w : ℕ) (history : List ℕ) (now : ℕ) : Bool × List ℕ :=
  let history:=recent w now history
  if history.length≥n then (false,history) else (true,history++[now])

def outcomes (n w : ℕ) : List ℕ → List ℕ → List Bool
  | _,[] => []
  | history,now::times => (admits n w history now).1::outcomes n w (admits n w history now).2 times

def granted (n w : ℕ) : List ℕ → List ℕ → List ℕ
  | _,[] => []
  | history,now::times =>
    if (admits n w history now).1 then now::granted n w (admits n w history now).2 times
    else granted n w (admits n w history now).2 times

/-- No interval shorter than the window has more than `n` of the times. -/
def Spaced (n w : ℕ) (times : List ℕ) : Prop :=
  ∀ lo hi, lo≤hi → hi-lo<w → (times.filter fun t => lo≤t ∧ t≤hi).length≤n

def Alike (w now : ℕ) (a b : List ℕ) : Prop := ∀ later≥now, recent w later a=recent w later b

structure Kept (n w now : ℕ) (history grants : List ℕ) : Prop where
  alike : Alike w now history grants
  spaced : Spaced n w grants

variable {n w now later : ℕ} {history grants a b times : List ℕ}

theorem recent_recent (h : now≤later) : recent w later (recent w now times)=recent w later times := by
  unfold recent
  rw [List.filter_filter]
  refine List.filter_congr fun t _ => ?_
  by_cases hlater : later-t<w
  · have hnow : now-t<w := by omega
    simp [hlater,hnow]
  · simp [hlater]

theorem recent_append : recent w now (a++b)=recent w now a++recent w now b := List.filter_append ..

theorem Alike.mono (h : Alike w now a b) (hle : now≤later) : Alike w later a b :=
  fun _ hfar => h _ (Nat.le_trans hle hfar)

theorem admits_refused (h : (admits n w history now).1=false) : Alike w now (admits n w history now).2 history := by
  unfold admits at h ⊢
  simp only at h ⊢
  by_cases hfull : (recent w now history).length≥n
  · rw [if_pos hfull]
    exact fun later hle => recent_recent hle
  · rw [if_neg hfull] at h
    contradiction

theorem admit_iff (h : Alike w now history grants) (hle : now≤later) :
    (admits n w history later).1=true ↔ (recent w later grants).length<n := by
  unfold admits
  simp only
  rw [h later hle]
  by_cases hfull : (recent w later grants).length≥n
  · rw [if_pos hfull]
    simp only [Bool.false_eq_true,false_iff]
    omega
  · rw [if_neg hfull]
    simp only [true_iff]
    omega

theorem Spaced.append (h : Spaced n w grants) (hroom : (recent w now grants).length<n) :
    Spaced n w (grants++[now]) := by
  intro lo hi hle hshort
  rw [List.filter_append,List.length_append]
  by_cases hin : lo≤now ∧ now≤hi
  · have hcount : (grants.filter fun t => lo≤t ∧ t≤hi).length≤(recent w now grants).length := by
      refine (List.monotone_filter_right grants fun t ht => ?_).length_le
      have hlo : lo≤t ∧ t≤hi := of_decide_eq_true ht
      exact decide_eq_true (by omega)
    have hone : ([now].filter fun t => lo≤t ∧ t≤hi).length≤1 := List.length_filter_le ..
    omega
  · have hnone : ([now].filter fun t => lo≤t ∧ t≤hi)=[] := by simpa using hin
    rw [hnone,List.length_nil,Nat.add_zero]
    exact h lo hi hle hshort

theorem Spaced.sublist (h : Spaced n w grants) (hsub : times.Sublist grants) : Spaced n w times := by
  intro lo hi hle hshort
  exact Nat.le_trans (hsub.filter _).length_le (h lo hi hle hshort)

theorem Kept.empty (n w now : ℕ) : Kept n w now [] [] :=
  ⟨fun _ _ => rfl,fun _ _ _ _ => by simp⟩

section
variable (h : Kept n w now history grants)
include h

theorem Kept.mono (hle : now≤later) : Kept n w later history grants :=
  ⟨h.alike.mono hle,h.spaced⟩

theorem Kept.admits (hle : now≤later) : Kept n w later (Window.admits n w history later).2
    (if (Window.admits n w history later).1 then grants++[later] else grants) := by
  have hiff:=admit_iff (n := n) h.alike hle
  have hlater:=h.mono hle
  cases hanswer : (Window.admits n w history later).1 with
  | false =>
    simp only [Bool.false_eq_true,if_false]
    refine ⟨fun far hfar => ?_,h.spaced⟩
    rw [admits_refused hanswer far hfar]
    exact hlater.alike far hfar
  | true =>
    simp only [if_true]
    refine ⟨fun far hfar => ?_,h.spaced.append (hiff.mp hanswer)⟩
    have hnext : (Window.admits n w history later).2=recent w later history++[later] := by
      unfold Window.admits at hanswer ⊢
      simp only at hanswer ⊢
      split at hanswer
      · contradiction
      · rename_i hroom
        rw [if_neg hroom]
    rw [hnext,recent_append,recent_append,recent_recent hfar,hlater.alike far hfar]

theorem Kept.run (hsorted : (now::times).Pairwise (·≤·)) : Spaced n w (grants++granted n w history times) := by
  induction times generalizing now history grants with
  | nil =>
    rw [granted,List.append_nil]
    exact h.spaced
  | cons t times ih =>
    obtain ⟨hnow,hrest⟩:=List.pairwise_cons.mp hsorted
    have hnext:=ih (h.admits (hnow t (List.mem_cons_self ..))) hrest
    rw [granted]
    cases hanswer : (Window.admits n w history t).1 with
    | false | true => simpa [hanswer] using hnext

end

end Parrot.Window
