import Mathlib.Data.List.Nodup
import Mathlib.Data.List.Perm.Basic

/-! # Tables of pending requests

A hash map from ids to slots is the list of its entries, in the order in which an
iteration meets them. Each accepted slot has a ticket, the number of slots accepted
before it, and the account says where every ticket is: in the table or settled. -/

namespace Parrot.Slots

variable {κ σ : Type*}

abbrev Table (κ σ : Type*) := List (κ × σ)

/-- The table after the slots that satisfy `p` have left it. -/
def without (t : Table κ σ) (p : κ × σ → Bool) : Table κ σ := t.filter fun e => !p e

theorem mem_without {t : Table κ σ} {p : κ × σ → Bool} {e : κ × σ} : e∈without t p ↔ e∈t ∧ p e=false := by
  simp [without]

section Ids

variable [DecidableEq κ]

def get (t : Table κ σ) (id : κ) : Option σ := (t.find? fun e => e.1=id).map Prod.snd

def remove (t : Table κ σ) (id : κ) : Table κ σ := without t fun e => e.1=id

theorem mem_of_get {t : Table κ σ} {id : κ} {s : σ} (h : get t id=some s) : (id,s)∈t := by
  obtain ⟨e,he,hs⟩:=Option.map_eq_some_iff.mp h
  have hid : e.1=id := by simpa using List.find?_some he
  rw [← hs,← hid]
  exact List.mem_of_find?_eq_some he

theorem get_eq_none {t : Table κ σ} {id : κ} (h : get t id=none) : id∉t.map Prod.fst := by
  intro hmem
  obtain ⟨e,he,hid⟩:=List.mem_map.mp hmem
  have hf:=List.find?_eq_none.mp (Option.map_eq_none_iff.mp h) e he
  simp [hid] at hf

theorem get_remove (t : Table κ σ) (id : κ) : get (remove t id) id=none := by
  rw [get,Option.map_eq_none_iff,List.find?_eq_none]
  intro e he
  simpa using (mem_without.mp he).2

theorem filter_id {t : Table κ σ} (hn : (t.map Prod.fst).Nodup) {id : κ} {s : σ} (h : (id,s)∈t) :
    (t.filter fun e => e.1=id)=[(id,s)] := by
  induction t with
  | nil => contradiction
  | cons e t ih =>
    obtain ⟨hne,hn⟩:=List.nodup_cons.mp hn
    rcases List.mem_cons.mp h with h | h
    · rw [← h] at hne ⊢
      rw [List.filter_cons_of_pos (by simp),List.filter_eq_nil_iff.mpr]
      intro e' he'
      simp only [decide_eq_true_eq]
      intro heq
      exact hne (List.mem_map.mpr ⟨e',he',heq⟩)
    · have hid : e.1≠id := fun heq => hne (heq ▸ List.mem_map.mpr ⟨(id,s),h,rfl⟩)
      rw [List.filter_cons_of_neg (by simpa using hid)]
      exact ih hn h

theorem get_of_mem {t : Table κ σ} (hn : (t.map Prod.fst).Nodup) {id : κ} {s : σ} (h : (id,s)∈t) :
    get t id=some s := by
  rw [get,← List.head?_filter,filter_id hn h]
  rfl

end Ids

structure Balanced (ticket : σ → ℕ) (next : ℕ) (t : Table κ σ) (settled : List ℕ) : Prop where
  ids_nodup : (t.map Prod.fst).Nodup
  account : ((t.map fun e => ticket e.2)++settled).Perm (List.range next)

namespace Balanced

variable {ticket : σ → ℕ} {next : ℕ} {t t' : Table κ σ} {settled : List ℕ}

theorem empty : Balanced (κ := κ) ticket 0 [] [] := ⟨List.nodup_nil,List.Perm.refl _⟩

section
variable (h : Balanced ticket next t settled)
include h

theorem accept [DecidableEq κ] {id : κ} (hid : get t id=none) {s : σ} (hs : ticket s=next) :
    Balanced ticket (next+1) ((id,s)::t) settled := by
  constructor
  · exact List.nodup_cons.mpr ⟨get_eq_none hid,h.ids_nodup⟩
  · rw [List.map_cons,List.cons_append,List.range_succ,hs]
    exact (h.account.cons next).trans (List.perm_append_singleton next _).symm

theorem settle (p : κ × σ → Bool) :
    Balanced ticket next (without t p) (settled++(t.filter p).map fun e => ticket e.2) := by
  constructor
  · exact h.ids_nodup.sublist (List.filter_sublist.map _)
  · have hsplit : ((without t p)++t.filter p).Perm t := List.perm_append_comm.trans (List.filter_append_perm p t)
    have hmap:=hsplit.map fun e => ticket e.2
    rw [List.map_append] at hmap
    rw [← List.append_assoc]
    apply List.Perm.trans _ ((hmap.append_right settled).trans h.account)
    rw [List.append_assoc,List.append_assoc]
    exact List.perm_append_comm.append_left _

theorem reorder (hp : t'.Perm t) : Balanced ticket next t' settled :=
  ⟨(hp.map Prod.fst).nodup_iff.mpr h.ids_nodup,((hp.map _).append_right settled).trans h.account⟩

end

end Balanced

end Parrot.Slots
