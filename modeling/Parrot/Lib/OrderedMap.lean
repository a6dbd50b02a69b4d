import Mathlib.Data.List.Nodup
import Mathlib.Data.List.Perm.Subperm
import Parrot.Lib.SortedMap

/-! # Ordered maps

A map with its entries in key order: what is read under a key after each change, and that
the readings decide the map. -/

structure OrderedMap (κ α : Type) [LinearOrder κ] where
  entries : List (κ × α)
  sorted : SortedMap.Sorted entries

namespace OrderedMap

variable {κ α β : Type} [LinearOrder κ] {m m' : OrderedMap κ α} {k x : κ} {a b : α}

def empty : OrderedMap κ α := ⟨[],List.Pairwise.nil⟩
def get (m : OrderedMap κ α) (k : κ) : Option α := (m.entries.find? fun e => e.1=k).map Prod.snd
def insert (m : OrderedMap κ α) (k : κ) (a : α) : OrderedMap κ α :=
  ⟨SortedMap.insert k a m.entries,SortedMap.sorted_insert k a m.sorted⟩
def keys (m : OrderedMap κ α) : List κ := SortedMap.keys m.entries
def size (m : OrderedMap κ α) : ℕ := m.entries.length
def contains (m : OrderedMap κ α) (k : κ) : Bool := (m.get k).isSome

theorem sorted_filter (p : κ × α → Bool) {l : List (κ × α)} (h : SortedMap.Sorted l) : SortedMap.Sorted (l.filter p) :=
  h.sublist (List.filter_sublist.map Prod.fst)

/-- `BTreeMap::retain`. -/
def retain (m : OrderedMap κ α) (p : κ → α → Bool) : OrderedMap κ α :=
  ⟨m.entries.filter fun e => p e.1 e.2,sorted_filter _ m.sorted⟩

def remove (m : OrderedMap κ α) (k : κ) : OrderedMap κ α := m.retain fun x _ => x≠k

omit [LinearOrder κ] in
theorem keys_map (f : κ → α → β) (l : List (κ × α)) : SortedMap.keys (l.map fun e => (e.1,f e.1 e.2))=SortedMap.keys l := by
  simp [SortedMap.keys]

def mapValues (m : OrderedMap κ α) (f : κ → α → β) : OrderedMap κ β :=
  ⟨m.entries.map fun e => (e.1,f e.1 e.2),by
    have h:=m.sorted
    unfold SortedMap.Sorted at h ⊢
    rwa [keys_map]⟩

theorem keys_nodup (m : OrderedMap κ α) : m.keys.Nodup := m.sorted.imp fun h => ne_of_lt h

theorem get_eq_some : m.get k=some a ↔ (k,a)∈m.entries := by
  unfold get
  constructor
  · intro h
    obtain ⟨e,he,rfl⟩:=Option.map_eq_some_iff.mp h
    have hkey : e.1=k := by simpa using List.find?_some he
    rw [← hkey]
    exact List.mem_of_find?_eq_some he
  · intro h
    cases hfind : m.entries.find? fun e => e.1=k with
    | none =>
      have:=List.find?_eq_none.mp hfind (k,a) h
      simp at this
    | some e =>
      have hkey : e.1=k := by simpa using List.find?_some hfind
      have heq : e=(k,a) := List.inj_on_of_nodup_map m.keys_nodup (List.mem_of_find?_eq_some hfind) h hkey
      rw [heq]
      rfl

theorem get_eq_none : m.get k=none ↔ k∉m.keys := by
  constructor
  · intro h hk
    obtain ⟨e,he,rfl⟩:=List.mem_map.mp hk
    have hsome : m.get e.1=some e.2 := get_eq_some.mpr he
    rw [h] at hsome
    contradiction
  · intro h
    cases hget : m.get k with
    | none => rfl
    | some a => exact absurd (List.mem_map_of_mem (get_eq_some.mp hget)) h

theorem mem_keys : k∈m.keys ↔ ∃ a, m.get k=some a := by
  rw [← Option.ne_none_iff_exists']
  exact ⟨fun h hn => get_eq_none.mp hn h,fun h => not_not.mp fun hk => h (get_eq_none.mpr hk)⟩

@[simp] theorem contains_eq_true : m.contains k=true ↔ k∈m.keys := by
  rw [mem_keys,contains,Option.isSome_iff_exists]

@[simp] theorem get_empty : (empty : OrderedMap κ α).get k=none := rfl

@[simp] theorem get_insert_self : (m.insert k a).get k=some a :=
  get_eq_some.mpr (SortedMap.mem_insert_self k a m.entries)

theorem get_insert_of_ne (h : x≠k) : (m.insert k a).get x=m.get x := by
  apply Option.ext
  intro b
  rw [get_eq_some,get_eq_some]
  constructor
  · intro hb
    rcases SortedMap.mem_insert k a m.entries hb with heq | hb
    · exact absurd (congrArg Prod.fst heq) h
    · exact hb
  · exact fun hb => SortedMap.mem_insert_of_ne k a hb h

theorem get_insert : (m.insert k a).get x=if x=k then some a else m.get x := by
  split
  · rename_i h
    rw [h,get_insert_self]
  · rename_i h
    exact get_insert_of_ne h

theorem get_retain (p : κ → α → Bool) : (m.retain p).get x=(m.get x).filter (p x) := by
  apply Option.ext
  intro b
  rw [get_eq_some,Option.filter_eq_some_iff,get_eq_some]
  simp [retain]

theorem get_remove : (m.remove k).get x=if x=k then none else m.get x := by
  unfold remove
  rw [get_retain]
  split
  · rename_i h
    cases m.get x <;> simp [h]
  · rename_i h
    cases m.get x <;> simp [h]

@[simp] theorem get_remove_self : (m.remove k).get k=none := by
  rw [get_remove,if_pos rfl]

theorem get_remove_of_ne (h : x≠k) : (m.remove k).get x=m.get x := by
  rw [get_remove,if_neg h]

@[simp] theorem get_mapValues (f : κ → α → β) : (m.mapValues f).get x=(m.get x).map (f x) := by
  unfold get mapValues
  simp only [List.find?_map,Option.map_map]
  cases hfind : m.entries.find? ((fun e : κ × β => decide (e.1=x)) ∘ fun e => (e.1,f e.1 e.2)) with
  | none =>
    have heq : m.entries.find? (fun e => decide (e.1=x))=none := hfind
    rw [heq]
    rfl
  | some e =>
    have heq : m.entries.find? (fun e => decide (e.1=x))=some e := hfind
    have hkey : e.1=x := by simpa using List.find?_some heq
    rw [heq]
    simp [hkey]

theorem mem_keys_insert : x∈(m.insert k a).keys ↔ x=k ∨ x∈m.keys := SortedMap.mem_keys_insert k a m.entries x

theorem ext (h : ∀ k, m.get k=m'.get k) : m=m' := by
  have hmem (e : κ × α) : e∈m.entries ↔ e∈m'.entries := by
    rw [← get_eq_some,← get_eq_some,h]
  have hsorted (m : OrderedMap κ α) : m.entries.Pairwise fun e f => e.1<f.1 := List.pairwise_map.mp m.sorted
  have hperm : m.entries.Perm m'.entries :=
    (List.perm_ext_iff_of_nodup (List.Nodup.of_map _ m.keys_nodup) (List.Nodup.of_map _ m'.keys_nodup)).mpr hmem
  have heq : m.entries=m'.entries :=
    hperm.eq_of_pairwise (fun e f _ _ hef hfe => absurd (lt_trans hef hfe) (lt_irrefl _)) (hsorted m) (hsorted m')
  cases m
  cases m'
  simp only [mk.injEq]
  exact heq

theorem size_le_of_keys {l : List κ} (h : ∀ k∈m.keys, k∈l) : m.size≤l.length := by
  have hle:=(List.subperm_of_subset m.keys_nodup h).length_le
  rwa [keys,SortedMap.length_keys] at hle

theorem size_insert_le : (m.insert k a).size ≤ m.size+1 := SortedMap.length_insert_le k a m.entries

end OrderedMap

namespace OrderedMap

variable {κ α : Type}

def totalOf (f : κ → α → ℕ) : List (κ × α) → ℕ
  | [] => 0
  | e::rest => f e.1 e.2+totalOf f rest

theorem totalOf_filter (f : κ → α → ℕ) (p : κ × α → Bool) (l : List (κ × α)) :
    totalOf f (l.filter p)+totalOf f (l.filter fun e => !p e)=totalOf f l := by
  induction l with
  | nil => simp [totalOf]
  | cons e rest ih =>
    by_cases h : p e=true
    · simp only [List.filter_cons,h,if_true,Bool.not_true,Bool.false_eq_true,if_false,totalOf]
      omega
    · simp only [Bool.not_eq_true] at h
      simp only [List.filter_cons,h,if_true,Bool.not_false,Bool.false_eq_true,if_false,totalOf]
      omega

theorem totalOf_perm (f : κ → α → ℕ) {l l' : List (κ × α)} (h : l.Perm l') : totalOf f l=totalOf f l' := by
  induction h with
  | nil => rfl
  | cons e h ih => simp only [totalOf,ih]
  | swap e e' l =>
    simp only [totalOf]
    omega
  | trans h h' ih ih' => exact ih.trans ih'

variable [LinearOrder κ] {m : OrderedMap κ α} {k : κ} {a b : α} (f : κ → α → ℕ)

def total (m : OrderedMap κ α) : ℕ := totalOf f m.entries

@[simp] theorem total_empty : total f (empty : OrderedMap κ α)=0 := by simp [total,empty,totalOf]

theorem size_eq_total : m.size=total (fun _ _ => 1) m := by
  unfold size total
  induction m.entries with
  | nil => simp [totalOf]
  | cons e rest ih =>
    simp only [List.length_cons,totalOf,ih]
    omega

theorem total_insert_new (h : m.get k=none) : total f (m.insert k a)=total f m+f k a := by
  have hkey : ∀ e∈m.entries, e.1≠k := by
    intro e he hek
    exact get_eq_none.mp h (List.mem_map.mpr ⟨e,he,hek⟩)
  have hperm : ∀ l : List (κ × α), (∀ e∈l, e.1≠k) → (SortedMap.insert k a l).Perm ((k,a)::l) := by
    intro l hl
    induction l with
    | nil => exact List.Perm.refl _
    | cons e rest ih =>
      simp only [SortedMap.insert]
      split
      · exact List.Perm.refl _
      · rw [if_neg fun hk => hl e (List.mem_cons_self ..) hk.symm]
        exact ((ih fun x hx => hl x (List.mem_cons_of_mem _ hx)).cons e).trans (List.Perm.swap (k,a) e rest)
  have htotal:=totalOf_perm f (hperm m.entries hkey)
  simp only [totalOf] at htotal
  change totalOf f (SortedMap.insert k a m.entries)=totalOf f m.entries+f k a
  omega

theorem entries_remove : (m.remove k).entries=m.entries.filter fun e => decide (e.1≠k) := by
  simp only [remove,retain]

theorem total_remove (h : m.get k=some a) : total f (m.remove k)+f k a=total f m := by
  have hone : m.entries.filter (fun e => !decide (e.1≠k))=[(k,a)] := by
    have hmem:=get_eq_some.mp h
    have hnodup : (m.entries.filter fun e => !decide (e.1≠k)).Nodup := (List.Nodup.of_map _ m.keys_nodup).filter _
    have hsub : ∀ e∈m.entries.filter (fun e => !decide (e.1≠k)), e=(k,a) := by
      intro e he
      obtain ⟨he,hk⟩:=List.mem_filter.mp he
      have hek : e.1=k := by simpa using hk
      exact List.inj_on_of_nodup_map m.keys_nodup he hmem hek
    have hin : (k,a)∈m.entries.filter fun e => !decide (e.1≠k) := by simp [hmem]
    have hperm:=(List.perm_ext_iff_of_nodup hnodup (List.nodup_singleton (k,a))).mpr fun e => by
      constructor
      · intro he
        rw [hsub e he]
        exact List.mem_singleton_self _
      · intro he
        rw [List.mem_singleton.mp he]
        exact hin
    exact List.perm_singleton.mp hperm
  have hsplit:=totalOf_filter f (fun e : κ × α => decide (e.1≠k)) m.entries
  rw [hone] at hsplit
  simp only [totalOf] at hsplit
  unfold total
  rw [entries_remove]
  omega

theorem insert_remove : (m.remove k).insert k a=m.insert k a := by
  apply ext
  intro x
  rw [get_insert,get_insert]
  split
  · rfl
  · rename_i hx
    exact get_remove_of_ne hx

theorem total_insert_old (h : m.get k=some b) : total f (m.insert k a)+f k b=total f m+f k a := by
  have hinsert:=total_insert_new (a := a) f (get_remove_self (m := m) (k := k))
  rw [insert_remove] at hinsert
  have hremove:=total_remove f h
  omega

theorem total_get_le (h : m.get k=some a) : f k a≤total f m := by
  have hremove:=total_remove f h
  omega

theorem size_insert_new (h : m.get k=none) : (m.insert k a).size=m.size+1 := by
  rw [size_eq_total,size_eq_total,total_insert_new _ h]

theorem size_insert_old (h : m.get k=some b) : (m.insert k a).size=m.size := by
  have hinsert:=total_insert_old (a := a) (fun _ _ => 1) h
  rw [← size_eq_total,← size_eq_total] at hinsert
  omega

end OrderedMap
