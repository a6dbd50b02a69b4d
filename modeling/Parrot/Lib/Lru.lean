import Parrot.Lib.Slots

/-! # Least recently used

A bounded map is the table of its entries, least recently used first. A use moves its entry to
the end, and a new entry of a full map takes the place of the first. -/

namespace Parrot.Lru
open Slots

variable {κ ν : Type} [DecidableEq κ] {cap : ℕ} {t : Table κ ν} {k x : κ} {v : ν}

/-- The entry of `k` after its use. -/
def use (t : Table κ ν) (k : κ) (v : ν) : Table κ ν := remove t k++[(k,v)]

def makeRoom (cap : ℕ) (t : Table κ ν) : Table κ ν := if t.length=cap then t.tail else t

def insert (cap : ℕ) (t : Table κ ν) (k : κ) (v : ν) : Table κ ν :=
  if cap=0 then t
  else if (get t k).isSome then use t k v
  else use (makeRoom cap t) k v

def lookup (t : Table κ ν) (k : κ) : Option ν × Table κ ν :=
  match get t k with
  | some v => (some v,use t k v)
  | none => (none,t)

/-- The keys are distinct, and no more than there is room for. -/
structure Valid (cap : ℕ) (t : Table κ ν) : Prop where
  keys : (t.map Prod.fst).Nodup
  room : t.length≤cap

theorem keys_remove (h : (t.map Prod.fst).Nodup) : (remove t k).map Prod.fst=(t.map Prod.fst).erase k := by
  rw [h.erase_eq_filter,List.filter_map]
  refine congrArg (List.map Prod.fst) (List.filter_congr fun e _ => ?_)
  by_cases heq : e.1=k <;> simp [heq]

theorem keys_use (h : (t.map Prod.fst).Nodup) : (use t k v).map Prod.fst=(t.map Prod.fst).erase k++[k] := by
  rw [use,List.map_append,keys_remove h]
  rfl

theorem isSome_get : (get t k).isSome=true ↔ k∈t.map Prod.fst := by
  constructor
  · intro h
    obtain ⟨v,hv⟩:=Option.isSome_iff_exists.mp h
    exact List.mem_map.mpr ⟨(k,v),mem_of_get hv,rfl⟩
  · intro h
    by_contra hnone
    exact get_eq_none (by simpa using hnone) h

theorem get_append (t' : Table κ ν) : get (t++t') x=(get t x).or (get t' x) := by
  unfold Slots.get
  rw [List.find?_append]
  cases t.find? (fun e => e.1=x) <;> rfl

theorem get_use : get (use t k v) x=if x=k then some v else get t x := by
  rw [use,get_append]
  by_cases hx : x=k
  · subst hx
    rw [get_remove,if_pos rfl]
    simp [Slots.get]
  · have hother : get (remove t k) x=get t x := by
      unfold Slots.get remove without
      rw [List.find?_filter]
      congr 2
      funext e
      by_cases he : e.1=x
      · simp [he,hx]
      · simp [he]
    have hlast : get [(k,v)] x=none := by simp [Slots.get,Ne.symm hx]
    rw [hother,hlast,if_neg hx,Option.or_none]

variable {e : κ × ν}

theorem get_tail (h : ((e::t).map Prod.fst).Nodup) : get t x=if x=e.1 then none else get (e::t) x := by
  by_cases hx : x=e.1
  · rw [if_pos hx]
    by_contra hsome
    obtain ⟨v,hv⟩:=Option.ne_none_iff_exists'.mp hsome
    exact (List.nodup_cons.mp h).1 (hx ▸ List.mem_map.mpr ⟨(x,v),mem_of_get hv,rfl⟩)
  · rw [if_neg hx]
    simp [Slots.get,Ne.symm hx]

omit [DecidableEq κ] in
theorem Valid.tail (h : Valid cap t) : Valid cap t.tail :=
  ⟨h.keys.sublist ((List.tail_sublist t).map _),by rw [List.length_tail]; have hroom:=h.room; omega⟩

theorem length_remove_lt (h : k∈t.map Prod.fst) : (remove t k).length<t.length := by
  obtain ⟨e,he,hk⟩:=List.mem_map.mp h
  refine List.length_filter_lt_length_iff_exists.mpr ⟨e,he,?_⟩
  simpa using hk

theorem Valid.use (h : Valid cap t) (hroom : k∈t.map Prod.fst ∨ t.length<cap) : Valid cap (use t k v) := by
  constructor
  · rw [keys_use h.keys]
    refine List.Nodup.append (h.keys.erase k) (List.nodup_singleton k) ?_
    rw [List.disjoint_singleton]
    exact h.keys.not_mem_erase
  · have hlen : (Lru.use t k v).length=(remove t k).length+1 := by simp [Lru.use]
    rw [hlen]
    rcases hroom with hmem | hlt
    · have hshort:=length_remove_lt hmem
      have hcap:=h.room
      omega
    · have hle : (remove t k).length≤t.length := List.length_filter_le _ _
      omega

omit [DecidableEq κ] in
theorem makeRoom_length (h : Valid cap t) (hcap : cap≠0) : (makeRoom cap t).length<cap := by
  have hroom:=h.room
  unfold makeRoom
  split
  · rw [List.length_tail]
    omega
  · omega

theorem mem_use (h : e∈use t k v) : e∈t ∨ e=(k,v) := by
  rcases List.mem_append.mp h with h | h
  · exact .inl (mem_without.mp h).1
  · exact .inr (List.mem_singleton.mp h)

omit [DecidableEq κ] in
theorem mem_makeRoom (h : e∈makeRoom cap t) : e∈t := by
  unfold makeRoom at h
  split at h
  · exact List.mem_of_mem_tail h
  · exact h

theorem mem_insert (h : e∈insert cap t k v) : e∈t ∨ e=(k,v) := by
  unfold insert at h
  split at h
  · exact .inl h
  · split at h
    · exact mem_use h
    · rcases mem_use h with h | h
      · exact .inl (mem_makeRoom h)
      · exact .inr h

theorem mem_lookup (h : e∈(lookup t k).2) : e∈t := by
  unfold lookup at h
  cases hget : get t k with
  | none =>
    rw [hget] at h
    exact h
  | some v =>
    rw [hget] at h
    rcases mem_use h with h | rfl
    · exact h
    · exact mem_of_get hget

theorem key_use (h : x∈t.map Prod.fst) : x∈(use t k v).map Prod.fst := by
  rw [← isSome_get,get_use]
  by_cases hx : x=k
  · simp [hx]
  · rw [if_neg hx]
    exact isSome_get.mpr h

theorem key_insert (h : x∈t.map Prod.fst) :
    x∈(insert cap t k v).map Prod.fst ∨ (t.length=cap ∧ (t.map Prod.fst).head? = some x) := by
  unfold insert
  split
  · exact .inl h
  · split
    · exact .inl (key_use h)
    · unfold makeRoom
      split
      · rename_i hfull
        cases t with
        | nil => exact absurd h List.not_mem_nil
        | cons e t =>
          rcases List.mem_cons.mp h with rfl | h
          · exact .inr ⟨hfull,rfl⟩
          · exact .inl (key_use h)
      · exact .inl (key_use h)

theorem key_lookup (h : x∈t.map Prod.fst) : x∈(lookup t k).2.map Prod.fst := by
  unfold lookup
  cases get t k with
  | none => exact h
  | some v => exact key_use h

end Parrot.Lru
