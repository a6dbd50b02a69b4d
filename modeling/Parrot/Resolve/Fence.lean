import Parrot.Resolve.Cache

/-! # Fences

A version that was invalidated or answered once is a lower bound on every later
answer for its key, as long as neither table has to give anything up. -/

namespace Parrot.Resolve
namespace ResolveCache
open Machine

variable {c c' : ResolveCache} {key x : String} {e e' : CacheEntry} {v version : ℕ}

def Bounded (c : ResolveCache) (key : String) (v : ℕ) : Prop :=
  (∃ e, c.entries.get key=some e ∧ v≤e.version) ∨ ∃ f, c.invalidationFloor.get key=some f ∧ v≤f

structure Fenced (keys : List String) (c : ResolveCache) : Prop where
  entries : ∀ k∈c.entries.keys, k∈keys
  floors : ∀ k∈c.invalidationFloor.keys, k∈keys
  /- A fence above an entry has made it invalid. -/
  below : ∀ k e f, c.entries.get k=some e → c.invalidationFloor.get k=some f → e.state ≠ .invalid → f≤e.version

theorem fenced_empty (keys : List String) (ttl staleWindow capacity : ℕ) : Fenced keys (empty ttl staleWindow capacity) := by
  constructor
  · intro k hk
    contradiction
  · intro k hk
    contradiction
  · intro k e f he
    contradiction

variable {keys : List String}

theorem Bounded.of_valid (h : Fenced keys c) (hb : Bounded c key v)
    (he : c.entries.get key=some e) (hvalid : e.state ≠ .invalid) : v≤e.version := by
  rcases hb with ⟨e',he',hv⟩ | ⟨f,hf,hv⟩
  · obtain rfl:=Option.some.inj (he'.symm.trans he)
    exact hv
  · exact hv.trans (h.below key e f he hf hvalid)

theorem get_floor (key : String) (now : ℕ) : (c.get key now).1.invalidationFloor=c.invalidationFloor := by
  unfold get
  dsimp only
  split
  · simp
  · split <;> simp

theorem get_capacity (key : String) (now : ℕ) : (c.get key now).1.capacity=c.capacity := by
  unfold get
  dsimp only
  split
  · simp
  · split <;> simp

theorem get_same (key : String) (now : ℕ) : SameBut c.entries (c.get key now).1.entries := by
  have htick:=tick_same c
  unfold get
  dsimp only
  split
  · exact htick
  · rename_i e he
    have hsame:=htick.trans (SameBut.renumbered he c.tickLru.lruClock)
    split <;> exact hsame

theorem get_answer {answer : List String × CacheState} {now : ℕ} (h : (c.get key now).2=some answer) :
    ∃ e, c.entries.get key=some e ∧ answer.1=e.endpoints ∧ e.state ≠ .invalid := by
  unfold get at h
  dsimp only at h
  split at h
  · contradiction
  · rename_i e' he'
    obtain ⟨e,he,heq⟩:=(tick_same c).get_some he'
    have hvalid : ageState c.tickLru.staleWindow e' now ≠ .invalid → e.state ≠ .invalid := by
      intro hage hstate
      apply hage
      unfold ageState
      rw [if_pos]
      rw [heq]
      exact hstate
    split at h
    · contradiction
    · rename_i hage
      obtain rfl:=(Option.some.inj h).symm
      refine ⟨e,he,?_,hvalid hage⟩
      rw [heq]

theorem SameBut.bounded {m : OrderedMap String CacheEntry} (hm : c'.entries=m) (h : SameBut c.entries m)
    (hf : c'.invalidationFloor=c.invalidationFloor) (hb : Bounded c key v) : Bounded c' key v := by
  rcases hb with ⟨e,he,hv⟩ | ⟨f,hfloor,hv⟩
  · obtain ⟨n,hn⟩:=h.get_of he
    exact .inl ⟨{e with lru:=n},by rw [hm]; exact hn,hv⟩
  · exact .inr ⟨f,by rw [hf]; exact hfloor,hv⟩

theorem SameBut.fenced (h : SameBut c.entries c'.entries)
    (hf : c'.invalidationFloor=c.invalidationFloor) (hc : Fenced keys c) : Fenced keys c' where
  entries := by
    intro k hk
    exact hc.entries k (h.keys.mp hk)
  floors := by
    intro k hk
    rw [hf] at hk
    exact hc.floors k hk
  below := by
    intro k e' f he' hfloor hvalid
    obtain ⟨e,he,heq⟩:=h.get_some he'
    rw [hf] at hfloor
    rw [heq] at hvalid ⊢
    exact hc.below k e f he hfloor hvalid

structure Invalidated (c c' : ResolveCache) (key : String) (version : ℕ) : Prop where
  entry : ∀ e, c.entries.get key=some e →
    c'.entries.get key=some (if version≥e.version then {e with state:=.invalid,version:=version} else e)
  gone : c.entries.get key=none → c'.entries.get key=none
  others : ∀ x, x≠key → c'.entries.get x=c.entries.get x
  floor : c'.invalidationFloor.get key=some (max ((c.invalidationFloor.get key).getD 0) version)
  otherFloors : ∀ x, x≠key → c'.invalidationFloor.get x=c.invalidationFloor.get x
  capacity : c'.capacity=c.capacity

theorem invalidateVersioned_spec (choice : ℕ) (hroom : (c.invalidationFloor.insert key
    (max ((c.invalidationFloor.get key).getD 0) version)).size≤c.capacity) :
    Invalidated c (c.invalidateVersioned key version choice) key version := by
  unfold invalidateVersioned trimFloor
  dsimp only
  rw [if_neg (by omega)]
  constructor
  · intro e he
    simp only [he]
    split
    · exact OrderedMap.get_insert_self
    · exact he
  · intro hnone
    simp only [hnone]
  · intro x hx
    cases he : c.entries.get key with
    | none => simp
    | some e =>
      simp only
      split
      · exact OrderedMap.get_insert_of_ne hx
      · rfl
  · exact OrderedMap.get_insert_self
  · intro x hx
    exact OrderedMap.get_insert_of_ne hx
  · rfl

section
variable (h : Invalidated c c' key version)
include h

theorem Invalidated.bounded (hb : Bounded c x v) : Bounded c' x v := by
  by_cases hx : x=key
  · subst hx
    rcases hb with ⟨e,he,hv⟩ | ⟨f,hf,hv⟩
    · refine .inl ⟨_,h.entry e he,?_⟩
      split
      · rename_i hge
        exact hv.trans hge
      · exact hv
    · refine .inr ⟨_,h.floor,?_⟩
      rw [hf]
      exact hv.trans (le_max_left _ _)
  · rcases hb with ⟨e,he,hv⟩ | ⟨f,hf,hv⟩
    · exact .inl ⟨e,by rw [h.others x hx]; exact he,hv⟩
    · exact .inr ⟨f,by rw [h.otherFloors x hx]; exact hf,hv⟩

theorem Invalidated.raised : Bounded c' key version :=
  .inr ⟨_,h.floor,le_max_right _ _⟩

theorem Invalidated.fenced (hkey : key∈keys)
    (hc : Fenced keys c) : Fenced keys c' where
  entries := by
    intro k hk
    by_cases hx : k=key
    · rw [hx]
      exact hkey
    · obtain ⟨e,he⟩:=OrderedMap.mem_keys.mp hk
      rw [h.others k hx] at he
      exact hc.entries k (OrderedMap.mem_keys.mpr ⟨e,he⟩)
  floors := by
    intro k hk
    by_cases hx : k=key
    · rw [hx]
      exact hkey
    · obtain ⟨f,hf⟩:=OrderedMap.mem_keys.mp hk
      rw [h.otherFloors k hx] at hf
      exact hc.floors k (OrderedMap.mem_keys.mpr ⟨f,hf⟩)
  below := by
    intro k e' f he' hf hvalid
    by_cases hx : k=key
    · subst hx
      cases he : c.entries.get k with
      | none =>
        rw [h.gone he] at he'
        contradiction
      | some e =>
        rw [h.entry e he] at he'
        cases he'
        split at hvalid
        · exact absurd rfl hvalid
        · rename_i hold
          rw [if_neg hold]
          obtain rfl:=Option.some.inj (h.floor.symm.trans hf)
          apply max_le
          · cases hfloor : c.invalidationFloor.get k with
            | none => simp
            | some f => exact hc.below k e f he hfloor hvalid
          · omega
    · rw [h.others k hx] at he'
      rw [h.otherFloors k hx] at hf
      exact hc.below k e' f he' hf hvalid

end

structure Stored (c c' : ResolveCache) (key : String) (endpoints : List String) (version ttl now : ℕ) : Prop where
  entry : ∃ n, c'.entries.get key=some ⟨endpoints,version,.fresh,now,ttl,n⟩
  others : ∀ x, x≠key → ∀ e, c.entries.get x=some e → ∃ n, c'.entries.get x=some {e with lru:=n}
  noOthers : ∀ x, x≠key → ∀ e', c'.entries.get x=some e' → ∃ e, c.entries.get x=some e ∧ e'={e with lru:=e'.lru}
  floor : c'.invalidationFloor=c.invalidationFloor.remove key
  capacity : c'.capacity=c.capacity

variable {endpoints : List String}

theorem store_spec {ttl now : ℕ}
    (hroom : ∀ n, (c.tickLru.entries.insert key ⟨endpoints,version,.fresh,now,ttl,n⟩).size≤c.capacity) :
    Stored c (c.store key endpoints version ttl now) key endpoints version ttl now := by
  unfold store
  dsimp only
  rw [evictIfFull_room (by simpa using hroom _)]
  constructor
  · exact ⟨_,OrderedMap.get_insert_self⟩
  · intro x hx e he
    obtain ⟨n,hn⟩:=(tick_same c).get_of he
    exact ⟨n,by rw [OrderedMap.get_insert_of_ne hx]; exact hn⟩
  · intro x hx e' he'
    rw [OrderedMap.get_insert_of_ne hx] at he'
    exact (tick_same c).get_some he'
  · simp
  · simp

theorem accepts_of_bounded (hr : c.refuses key version=false) (hb : Bounded c key v) : v≤version := by
  simp only [refuses,Bool.or_eq_false_iff] at hr
  rcases hb with ⟨e,he,hv⟩ | ⟨f,hf,hv⟩
  · have hle : e.version≤version := by simpa [he] using hr.1
    omega
  · have hle : f≤version := by simpa [hf] using hr.2
    omega

theorem Stored.bounded {ttl now : ℕ} (h : Stored c c' key endpoints version ttl now)
    (hr : c.refuses key version=false) (hb : Bounded c x v) : Bounded c' x v := by
  by_cases hx : x=key
  · subst hx
    obtain ⟨n,hn⟩:=h.entry
    exact .inl ⟨_,hn,accepts_of_bounded hr hb⟩
  · rcases hb with ⟨e,he,hv⟩ | ⟨f,hf,hv⟩
    · obtain ⟨n,hn⟩:=h.others x hx e he
      exact .inl ⟨_,hn,hv⟩
    · refine .inr ⟨f,?_,hv⟩
      rw [h.floor,OrderedMap.get_remove_of_ne hx]
      exact hf

theorem Stored.fenced {ttl now : ℕ}
    (h : Stored c c' key endpoints version ttl now) (hkey : key∈keys) (hc : Fenced keys c) : Fenced keys c' where
  entries := by
    intro k hk
    by_cases hx : k=key
    · rw [hx]
      exact hkey
    · obtain ⟨e',he'⟩:=OrderedMap.mem_keys.mp hk
      obtain ⟨e,he,-⟩:=h.noOthers k hx e' he'
      exact hc.entries k (OrderedMap.mem_keys.mpr ⟨e,he⟩)
  floors := by
    intro k hk
    obtain ⟨f,hf⟩:=OrderedMap.mem_keys.mp hk
    rw [h.floor,OrderedMap.get_remove] at hf
    split at hf
    · contradiction
    · exact hc.floors k (OrderedMap.mem_keys.mpr ⟨f,hf⟩)
  below := by
    intro k e' f he' hf hvalid
    rw [h.floor,OrderedMap.get_remove] at hf
    split at hf
    · contradiction
    · rename_i hx
      obtain ⟨e,he,heq⟩:=h.noOthers k hx e' he'
      rw [heq] at hvalid ⊢
      exact hc.below k e f he hf hvalid

def dropped (c : ResolveCache) (key : String) : ResolveCache := {c with entries:=c.entries.remove key}

theorem dropped_fenced (h : Fenced keys c) : Fenced keys (c.dropped key) where
  entries := by
    intro k hk
    obtain ⟨e,he⟩:=OrderedMap.mem_keys.mp hk
    simp only [dropped,OrderedMap.get_remove] at he
    split at he
    · contradiction
    · exact h.entries k (OrderedMap.mem_keys.mpr ⟨e,he⟩)
  floors := h.floors
  below := by
    intro k e f he hf hvalid
    simp only [dropped,OrderedMap.get_remove] at he
    split at he
    · contradiction
    · exact h.below k e f he hf hvalid

theorem dropped_bounded (h : Invalidated (c.dropped key) c' key version) (hr : c.refuses key version=false)
    (hb : Bounded c x v) : Bounded c' x v := by
  by_cases hx : x=key
  · subst hx
    exact .inr ⟨_,h.floor,(accepts_of_bounded hr hb).trans (le_max_right _ _)⟩
  · apply h.bounded
    rcases hb with ⟨e,he,hv⟩ | hf
    · refine .inl ⟨e,?_,hv⟩
      rw [dropped,OrderedMap.get_remove_of_ne hx]
      exact he
    · exact .inr hf

end ResolveCache
end Parrot.Resolve
