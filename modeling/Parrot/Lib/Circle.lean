import Mathlib.Order.Lattice
import Mathlib.Data.List.TakeWhile

/-! # Points on a circle

Going up from a start and around, one point is met first. A sorted list of the points finds it
as the first one at or after the start, or else the first of all, and in a part of the points
that has it, it is first again. -/

namespace Circle

variable {α γ : Type} [LinearOrder α]

def Before (start p q : α) : Prop := (start≤p ∧ q<start) ∨ ((start≤p ↔ start≤q) ∧ p≤q)

structure First (place : γ → α) (start : α) (points : List γ) (c : γ) : Prop where
  mem : c∈points
  least : ∀ d∈points, Before start (place c) (place d)

def pick (place : γ → α) (start : α) (points : List γ) : Option γ :=
  let i:=(points.takeWhile fun c => decide (place c<start)).length
  let i:=if i=points.length then 0 else i
  points[i]?

variable {place : γ → α} {start p q : α} {points : List γ} {c d : γ}

theorem Before.antisymm (h : Before start p q) (h' : Before start q p) : p=q := by
  rcases h with ⟨hp,hq⟩ | ⟨hside,hle⟩
  · rcases h' with ⟨hq',-⟩ | ⟨hside',-⟩
    · exact absurd hq (not_lt.mpr hq')
    · exact absurd (hside'.mpr hp) (not_le.mpr hq)
  · rcases h' with ⟨hq',hp'⟩ | ⟨-,hle'⟩
    · exact absurd (hside.mpr hq') (not_le.mpr hp')
    · exact le_antisymm hle hle'

theorem First.place_eq (h : First place start points c) (h' : First place start points d) : place c=place d :=
  (h.least d h'.mem).antisymm (h'.least c h.mem)

theorem First.part {part : List γ} (h : First place start points c) (hc : c∈part) (hpart : ∀ d∈part, d∈points) :
    First place start part c := ⟨hc,fun d hd => h.least d (hpart d hd)⟩

theorem takeWhile_getElem {l : List γ} {f : γ → Bool} (h : l[(l.takeWhile f).length]? = some c) :
    f c=false ∧ ∃ rest, l=l.takeWhile f++c::rest := by
  have hsplit:=List.takeWhile_append_dropWhile (p := f) (l := l)
  have hdrop : (l.dropWhile f).head? = some c := by
    rw [← h]
    conv => rhs; rw [← hsplit]
    rw [List.getElem?_append_right (by simp),List.head?_eq_getElem?]
    simp
  obtain ⟨rest,hrest⟩:=List.head?_eq_some_iff.mp hdrop
  have hstop:=List.head?_dropWhile_not f l
  rw [hdrop] at hstop
  rw [hrest] at hsplit
  exact ⟨by simpa using hstop,rest,hsplit.symm⟩

theorem pick_first (hsorted : points.Pairwise fun a b => place a≤place b) (h : pick place start points=some c) :
    First place start points c := by
  have hmem : c∈points := List.mem_of_getElem? h
  refine ⟨hmem,?_⟩
  unfold pick at h
  dsimp only at h
  split at h
  · rename_i hall
    have hbelow : ∀ d∈points, place d<start := by
      intro d hd
      have htake : points.takeWhile (fun c => decide (place c<start))=points :=
        ( List.takeWhile_prefix _).eq_of_length hall
      rw [← htake] at hd
      simpa using List.mem_takeWhile_imp hd
    obtain ⟨rest,rfl⟩:=List.head?_eq_some_iff.mp (List.head?_eq_getElem? ▸ h)
    intro d hd
    have hle : place c≤place d := by
      rcases List.mem_cons.mp hd with rfl | hd
      · exact le_rfl
      · exact (List.pairwise_cons.mp hsorted).1 d hd
    refine .inr ⟨?_,hle⟩
    simp [not_le.mpr (hbelow c hmem),not_le.mpr (hbelow d hd)]
  · obtain ⟨hstop,rest,hsplit⟩:=takeWhile_getElem h
    have hc : start≤place c := by simpa using hstop
    intro d hd
    rw [hsplit] at hd hsorted
    rcases List.mem_append.mp hd with hd | hd
    · exact .inl ⟨hc,by simpa using List.mem_takeWhile_imp hd⟩
    · have hle : place c≤place d := by
        rcases List.mem_cons.mp hd with rfl | hd
        · exact le_rfl
        · exact (List.pairwise_cons.mp (List.pairwise_append.mp hsorted).2.1).1 d hd
      exact .inr ⟨iff_of_true hc (hc.trans hle),hle⟩

theorem pick_isSome (h : points≠[]) : ∃ c, pick place start points=some c := by
  have hpos:=List.length_pos_iff.mpr h
  have hle:=(List.takeWhile_sublist (l := points) fun c => decide (place c<start)).length_le
  unfold pick
  dsimp only
  split
  · exact ⟨_,List.getElem?_eq_getElem hpos⟩
  · exact ⟨_,List.getElem?_eq_getElem (by omega)⟩

end Circle
