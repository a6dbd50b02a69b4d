import Parrot.Resolve.Runs

/-! # Recency

The numbers of the entries are in the order of their last use, also after they have been
numbered afresh. -/

namespace Parrot.Resolve
open Machine

/-- When a key was used last, counting the calls from one. -/
def lastUse : List (Option String) → String → ℕ
  | [],_ => 0
  | use::uses,key => if use=some key then uses.length+1 else lastUse uses key

section
variable (uses : List (Option String))
include uses

theorem lastUse_le (key : String) : lastUse uses key≤uses.length := by
  induction uses with
  | nil => simp [lastUse]
  | cons use uses ih =>
    simp only [lastUse,List.length_cons]
    split
    · omega
    · omega

@[simp] theorem lastUse_none (key : String) : lastUse (none::uses) key=lastUse uses key := by
  simp [lastUse]
@[simp] theorem lastUse_self (key : String) : lastUse (some key::uses) key=uses.length+1 := by
  simp [lastUse]
theorem lastUse_other {key x : String} (h : x≠key) : lastUse (some key::uses) x=lastUse uses x := by
  simp only [lastUse,Option.some.injEq]
  rw [if_neg (Ne.symm h)]

end

namespace ResolveCache

/-- The numbers stand for the order of the last uses. -/
structure Ranked (c : ResolveCache) (uses : List (Option String)) : Prop where
  bound : ∀ x e, c.entries.get x=some e → e.lru≤c.lruClock
  order : ∀ x y e e', c.entries.get x=some e → c.entries.get y=some e' →
    (e.lru<e'.lru ↔ lastUse uses x<lastUse uses y)
  distinct : ∀ x y e e', c.entries.get x=some e → c.entries.get y=some e' → x≠y → e.lru≠e'.lru

variable {c c' : ResolveCache} {uses : List (Option String)} {key x y : String} {e e' : CacheEntry}
  {m : OrderedMap String CacheEntry}

theorem ranked_empty (ttl staleWindow capacity : ℕ) : Ranked (empty ttl staleWindow capacity) [] := by
  constructor
  · intro x e he
    contradiction
  · intro x y e e' he
    contradiction
  · intro x y e e' he
    contradiction

theorem Ranked.sub (h : Ranked c uses) (hclock : c'.lruClock=c.lruClock)
    (hsub : ∀ x e', c'.entries.get x=some e' → ∃ e, c.entries.get x=some e ∧ e'.lru=e.lru) : Ranked c' uses where
  bound := by
    intro x e' he'
    obtain ⟨e,he,heq⟩:=hsub x e' he'
    have:=h.bound x e he
    omega
  order := by
    intro x y e1 e2 h1 h2
    obtain ⟨e,he,heq⟩:=hsub x e1 h1
    obtain ⟨e',he',heq'⟩:=hsub y e2 h2
    rw [heq,heq']
    exact h.order x y e e' he he'
  distinct := by
    intro x y e1 e2 h1 h2 hxy
    obtain ⟨e,he,heq⟩:=hsub x e1 h1
    obtain ⟨e',he',heq'⟩:=hsub y e2 h2
    rw [heq,heq']
    exact h.distinct x y e e' he he' hxy

theorem Ranked.idle (h : Ranked c uses) : Ranked c (none::uses) where
  bound := h.bound
  order := by
    intro x y e e' he he'
    rw [lastUse_none,lastUse_none]
    exact h.order x y e e' he he'
  distinct := h.distinct

theorem setLru_self (m : OrderedMap String CacheEntry) (key : String) (n : ℕ) :
    (setLru m key n).get key=(m.get key).map fun e => {e with lru:=n} := by
  unfold setLru
  cases h : m.get key with
  | none => simpa using h
  | some e => simp

theorem setLru_other (h : x≠key) (n : ℕ) : (setLru m key n).get x=m.get x := by
  unfold setLru
  cases hm : m.get key with
  | none => rfl
  | some e => exact OrderedMap.get_insert_of_ne h

theorem renumber_spec {order : List String} (hn : order.Nodup) (next : ℕ) (m : OrderedMap String CacheEntry)
    (hmax : next+order.length≤u64Max) : (renumber order next m).2=next+order.length ∧
      ∀ x, (renumber order next m).1.get x =
        (m.get x).map fun e => if x∈order then {e with lru:=next+order.idxOf x+1} else e := by
  induction order generalizing next m with
  | nil =>
    refine ⟨rfl,?_⟩
    intro x
    simp [renumber]
  | cons key order ih =>
    obtain ⟨hkey,hn⟩:=List.nodup_cons.mp hn
    rw [List.length_cons] at hmax
    have hstep : saturatingAdd next 1=next+1 := by
      unfold saturatingAdd
      omega
    obtain ⟨hnext,hget⟩:=ih hn (next+1) (setLru m key (next+1)) (by omega)
    simp only [renumber,hstep]
    refine ⟨?_,?_⟩
    · rw [hnext,List.length_cons]
      omega
    · intro x
      rw [hget]
      by_cases hx : x=key
      · subst hx
        rw [setLru_self]
        cases hm : m.get x with
        | none => simp
        | some e => simp [hkey]
      · rw [setLru_other hx]
        cases hm : m.get x with
        | none => rfl
        | some e =>
          simp only [Option.map_some,List.mem_cons,hx,false_or,List.idxOf_cons_ne _ (Ne.symm hx)]
          by_cases hmem : x∈order
          · simp only [hmem,if_true]
            congr 2
            omega
          · simp only [hmem,if_false]

theorem byRecency_perm (m : OrderedMap String CacheEntry) : (byRecency m).Perm m.keys :=
  (List.perm_insertionSort _ m.entries).map Prod.fst

theorem byRecency_nodup (m : OrderedMap String CacheEntry) : (byRecency m).Nodup :=
  (byRecency_perm m).nodup_iff.mpr m.keys_nodup

theorem byRecency_mem : x∈byRecency m ↔ x∈m.keys := (byRecency_perm m).mem_iff

theorem byRecency_length (m : OrderedMap String CacheEntry) : (byRecency m).length=m.size := by
  rw [(byRecency_perm m).length_eq,OrderedMap.keys,SortedMap.length_keys]
  rfl

theorem byRecency_position (h : m.get x=some e) : ∃ i, ∃ hi : i<(m.entries.insertionSort fun a b => a.2.lru≤b.2.lru).length,
    (m.entries.insertionSort fun a b => a.2.lru≤b.2.lru).get ⟨i,hi⟩=(x,e) ∧ (byRecency m).idxOf x=i := by
  have hmem : (x,e)∈m.entries.insertionSort fun a b => a.2.lru≤b.2.lru :=
    (List.perm_insertionSort _ m.entries).mem_iff.mpr (OrderedMap.get_eq_some.mp h)
  obtain ⟨⟨i,hi⟩,hget⟩:=List.mem_iff_get.mp hmem
  refine ⟨i,hi,hget,?_⟩
  have hi' : i<(byRecency m).length := by
    rw [byRecency,List.length_map]
    exact hi
  have hx : (byRecency m)[i]=x := by
    have hfst:=congrArg Prod.fst hget
    simpa [byRecency] using hfst
  rw [← hx]
  exact (byRecency_nodup m).idxOf_getElem i hi'

theorem byRecency_order (h : m.get x=some e) (h' : m.get y=some e') (hlt : (byRecency m).idxOf x<(byRecency m).idxOf y) :
    e.lru≤e'.lru := by
  obtain ⟨i,hi,hget,hidx⟩:=byRecency_position h
  obtain ⟨j,hj,hget',hidx'⟩:=byRecency_position h'
  rw [hidx,hidx'] at hlt
  have hsorted:=List.pairwise_insertionSort (fun a b : String × CacheEntry => a.2.lru≤b.2.lru) m.entries
  have hle:=List.pairwise_iff_get.mp hsorted ⟨i,hi⟩ ⟨j,hj⟩ hlt
  rw [hget,hget'] at hle
  exact hle

theorem Ranked.rebase (h : Ranked c uses) (hclock : c.lruClock≤u64Max) (hsize : c.entries.size<u64Max) :
    Ranked c.rebase uses ∧ c.rebase.lruClock<u64Max := by
  unfold ResolveCache.rebase
  split
  · obtain ⟨hnext,hget⟩:=renumber_spec (byRecency_nodup c.entries) 0 c.entries
      (by rw [byRecency_length]; omega)
    have hnew : ∀ x e', (renumber (byRecency c.entries) 0 c.entries).1.get x=some e' →
        ∃ e, c.entries.get x=some e ∧ x∈byRecency c.entries ∧ e'.lru=(byRecency c.entries).idxOf x+1 := by
      intro x e' he'
      rw [hget] at he'
      obtain ⟨e,he,rfl⟩:=Option.map_eq_some_iff.mp he'
      have hmem : x∈byRecency c.entries := byRecency_mem.mpr (OrderedMap.mem_keys.mpr ⟨e,he⟩)
      refine ⟨e,he,hmem,?_⟩
      rw [if_pos hmem]
      simp
    refine ⟨⟨?_,?_,?_⟩,?_⟩
    · intro x e' he'
      obtain ⟨e,he,hmem,hlru⟩:=hnew x e' he'
      have hlt:=List.idxOf_lt_length_of_mem hmem
      change e'.lru≤(renumber (byRecency c.entries) 0 c.entries).2
      rw [hnext,hlru]
      omega
    · intro x y e1 e2 h1 h2
      obtain ⟨e,he,hmem,hlru⟩:=hnew x e1 h1
      obtain ⟨e',he',hmem',hlru'⟩:=hnew y e2 h2
      rw [← h.order x y e e' he he',hlru,hlru']
      constructor
      · intro hlt
        have hle:=byRecency_order he he' (by omega)
        have hxy : x≠y := by
          rintro rfl
          omega
        have hne:=h.distinct x y e e' he he' hxy
        omega
      · intro hlt
        by_contra hge
        rcases Nat.lt_or_eq_of_le (Nat.le_of_not_lt hge) with hyx | heq
        · have:=byRecency_order he' he (by omega)
          omega
        · have hxy : x=y := (List.idxOf_inj hmem).mp (by omega)
          subst hxy
          obtain rfl:=Option.some.inj (he.symm.trans he')
          omega
    · intro x y e1 e2 h1 h2 hxy
      obtain ⟨e,he,hmem,hlru⟩:=hnew x e1 h1
      obtain ⟨e',he',hmem',hlru'⟩:=hnew y e2 h2
      rw [hlru,hlru']
      intro heq
      exact hxy ((List.idxOf_inj hmem).mp (by omega))
    · change (renumber (byRecency c.entries) 0 c.entries).2<u64Max
      rw [hnext,byRecency_length]
      omega
  · rename_i hne
    exact ⟨h,by omega⟩

theorem Ranked.tick (h : Ranked c uses) (hclock : c.lruClock≤u64Max) (hsize : c.entries.size<u64Max) :
    Ranked c.tickLru uses ∧ (∀ x e, c.tickLru.entries.get x=some e → e.lru<c.tickLru.lruClock) ∧
      c.tickLru.lruClock≤u64Max := by
  have hlow:=h.rebase hclock hsize
  have hnext : c.tickLru.lruClock=c.rebase.lruClock+1 := by
    have:=hlow.2
    simp only [tickLru,saturatingAdd]
    omega
  have hbound : ∀ x e, c.tickLru.entries.get x=some e → e.lru<c.tickLru.lruClock := by
    intro x e he
    have:=hlow.1.bound x e he
    omega
  refine ⟨⟨fun x e he => (hbound x e he).le,hlow.1.order,hlow.1.distinct⟩,hbound,?_⟩
  have:=hlow.2
  omega

theorem Ranked.touch (h : Ranked c uses) (hbound : ∀ x e, c.entries.get x=some e → e.lru<c.lruClock)
    (he : e.lru=c.lruClock) (hentries : c'.entries=c.entries.insert key e) (hclock : c'.lruClock=c.lruClock) :
    Ranked c' (some key::uses) := by
  have hget : ∀ x, c'.entries.get x=if x=key then some e else c.entries.get x := by
    intro x
    rw [hentries,OrderedMap.get_insert]
  constructor
  · intro x e1 h1
    rw [hget] at h1
    split at h1
    · cases h1
      omega
    · have:=hbound x e1 h1
      omega
  · intro x y e1 e2 h1 h2
    rw [hget] at h1 h2
    have hle (z : String) := lastUse_le uses z
    by_cases hx : x=key
    · rw [if_pos hx] at h1
      cases h1
      by_cases hy : y=key
      · rw [if_pos hy] at h2
        cases h2
        rw [hx,hy]
        simp
      · rw [if_neg hy] at h2
        have:=hbound y e2 h2
        have:=hle y
        rw [hx,lastUse_self,lastUse_other uses hy]
        omega
    · rw [if_neg hx] at h1
      by_cases hy : y=key
      · rw [if_pos hy] at h2
        cases h2
        have:=hbound x e1 h1
        have:=hle x
        rw [hy,lastUse_self,lastUse_other uses hx]
        omega
      · rw [if_neg hy] at h2
        rw [lastUse_other uses hx,lastUse_other uses hy]
        exact h.order x y e1 e2 h1 h2
  · intro x y e1 e2 h1 h2 hxy
    rw [hget] at h1 h2
    by_cases hx : x=key
    · rw [if_pos hx] at h1
      cases h1
      rw [if_neg (fun hy => hxy (hx.trans hy.symm))] at h2
      have:=hbound y e2 h2
      omega
    · rw [if_neg hx] at h1
      by_cases hy : y=key
      · rw [if_pos hy] at h2
        cases h2
        have:=hbound x e1 h1
        omega
      · rw [if_neg hy] at h2
        exact h.distinct x y e1 e2 h1 h2 hxy

/-- The invariant of any run, whatever the number of its keys. -/
structure Orderly (c : ResolveCache) (uses : List (Option String)) : Prop where
  ranked : Ranked c uses
  clock : c.lruClock≤u64Max
  size : c.entries.size≤c.capacity

theorem SameBut.size {m m' : OrderedMap String CacheEntry} (h : SameBut m m') : m'.size=m.size := by
  have hle : m'.keys.length=m.keys.length := by
    apply List.Perm.length_eq
    exact (List.perm_ext_iff_of_nodup m'.keys_nodup m.keys_nodup).mpr fun x => h.keys
  simpa [OrderedMap.keys,SortedMap.length_keys,OrderedMap.size] using hle

theorem Orderly.tick (h : Orderly c uses) (hcap : c.capacity<u64Max) : Ranked c.tickLru uses ∧
    (∀ x e, c.tickLru.entries.get x=some e → e.lru<c.tickLru.lruClock) ∧ c.tickLru.lruClock≤u64Max :=
  h.ranked.tick h.clock (by have := h.size; omega)

theorem Orderly.idle (h : Orderly c uses) : Orderly c (none::uses) := ⟨h.ranked.idle,h.clock,h.size⟩

theorem Orderly.sub (h : Orderly c uses) (hclock : c'.lruClock=c.lruClock) (hcap : c'.capacity=c.capacity)
    (hsub : ∀ x e', c'.entries.get x=some e' → ∃ e, c.entries.get x=some e ∧ e'.lru=e.lru) : Orderly c' uses := by
  refine ⟨h.ranked.sub hclock hsub,by rw [hclock]; exact h.clock,?_⟩
  have hkeys : c'.entries.size≤c.entries.keys.length := by
    apply OrderedMap.size_le_of_keys
    intro k hk
    obtain ⟨e',he'⟩:=OrderedMap.mem_keys.mp hk
    obtain ⟨e,he,-⟩:=hsub k e' he'
    exact OrderedMap.mem_keys.mpr ⟨e,he⟩
  have hsize:=h.size
  rw [OrderedMap.keys,SortedMap.length_keys] at hkeys
  rw [hcap]
  exact hkeys.trans hsize

theorem trimFloor_same (c : ResolveCache) (choice : ℕ) : (c.trimFloor choice).entries=c.entries ∧
    (c.trimFloor choice).lruClock=c.lruClock ∧ (c.trimFloor choice).capacity=c.capacity := by
  unfold trimFloor
  split
  · split <;> simp
  · simp

theorem invalidateVersioned_same (c : ResolveCache) (key : String) (version choice : ℕ) : (∀ x e',
    (c.invalidateVersioned key version choice).entries.get x=some e' → ∃ e, c.entries.get x=some e ∧ e'.lru=e.lru) ∧
    (c.invalidateVersioned key version choice).lruClock=c.lruClock ∧
    (c.invalidateVersioned key version choice).capacity=c.capacity := by
  unfold invalidateVersioned
  dsimp only
  refine ⟨?_,(trimFloor_same _ choice).2.1,(trimFloor_same _ choice).2.2⟩
  intro x e' he'
  rw [(trimFloor_same _ choice).1] at he'
  cases hget : c.entries.get key with
  | none =>
    simp only [hget] at he'
    exact ⟨e',he',rfl⟩
  | some e =>
    simp only [hget] at he'
    split at he'
    · rw [OrderedMap.get_insert] at he'
      split at he'
      · rename_i hx
        cases he'
        exact ⟨e,by rw [hx]; exact hget,rfl⟩
      · exact ⟨e',he',rfl⟩
    · exact ⟨e',he',rfl⟩

theorem Orderly.invalidate (h : Orderly c uses) (key : String) (version choice : ℕ) :
    Orderly (c.invalidateVersioned key version choice) (none::uses) := by
  obtain ⟨hentries,hclock,hcap⟩:=invalidateVersioned_same c key version choice
  exact (h.sub hclock hcap hentries).idle

theorem Orderly.dropped (h : Orderly c uses) (key : String) : Orderly (c.dropped key) uses := by
  have hclock : (c.dropped key).lruClock=c.lruClock := rfl
  have hcap : (c.dropped key).capacity=c.capacity := rfl
  apply h.sub hclock hcap
  intro x e' he'
  simp only [ResolveCache.dropped,OrderedMap.get_remove] at he'
  split at he'
  · contradiction
  · exact ⟨e',he',rfl⟩

theorem Orderly.get (h : Orderly c uses) (hcap : c.capacity<u64Max) (key : String) (now : ℕ) :
    Orderly (c.get key now).1 ((if (c.entries.get key).isSome then some key else none)::uses) := by
  obtain ⟨hranked,hbound,hclock⟩:=h.tick hcap
  have hsame:=tick_same c
  have hsize : c.tickLru.entries.size≤c.capacity := by
    rw [hsame.size]
    exact h.size
  unfold ResolveCache.get
  dsimp only
  split
  · rename_i hnone
    have hmiss : c.entries.get key=none := by
      cases hget : c.entries.get key with
      | none => rfl
      | some e =>
        obtain ⟨n,hn⟩:=hsame.get_of hget
        rw [hn] at hnone
        contradiction
    simp only [hmiss,Option.isSome_none,Bool.false_eq_true,if_false]
    refine ⟨(hranked.sub ?_ ?_).idle,hclock,by simpa using hsize⟩
    · rfl
    · exact fun x e' he' => ⟨e',he',rfl⟩
  · rename_i e he
    obtain ⟨e0,he0,-⟩:=hsame.get_some he
    simp only [he0,Option.isSome_some,if_true]
    have hsize' : (c.tickLru.entries.insert key {e with lru:=c.tickLru.lruClock}).size≤c.capacity := by
      rw [OrderedMap.size_insert_old he]
      exact hsize
    split
    · exact ⟨hranked.touch hbound rfl rfl rfl,hclock,by simpa using hsize'⟩
    · exact ⟨hranked.touch hbound rfl rfl rfl,hclock,by simpa using hsize'⟩

/-- What is given up first: the invalid entries, and among equals the one used longest ago. -/
def Precedes (uses : List (Option String)) (v : String) (e : CacheEntry) (x : String) (e' : CacheEntry) : Prop :=
  (e.state=.invalid ∧ e'.state ≠ .invalid) ∨
    ((e.state=.invalid ↔ e'.state=.invalid) ∧ lastUse uses v<lastUse uses x)

theorem Ranked.precedes (h : Ranked c uses) (hx : c.entries.get x=some e) (hy : c.entries.get y=some e')
    (hxy : x≠y) (hle : rank (x,e) ≤ rank (y,e')) : Precedes uses x e y e' := by
  have hne:=h.distinct x y e e' hx hy hxy
  have horder:=h.order x y e e' hx hy
  rcases Prod.Lex.le_iff.mp hle with hlt | ⟨heq,hle⟩
  · left
    have hlt' : decide (e.state ≠ .invalid)<decide (e'.state ≠ .invalid) := hlt
    obtain ⟨hfalse,htrue⟩:=Bool.lt_iff.mp hlt'
    exact ⟨by simpa using hfalse,by simpa using htrue⟩
  · right
    have heq' : decide (e.state ≠ .invalid)=decide (e'.state ≠ .invalid) := heq
    have hiff : e.state=.invalid ↔ e'.state=.invalid := by
      have:=decide_eq_decide.mp heq'
      tauto
    refine ⟨hiff,horder.mp ?_⟩
    rcases Prod.Lex.le_iff.mp hle with hlt | ⟨heq,-⟩
    · exact hlt
    · exact absurd heq hne

/-- What a put that stores its endpoints does to the entries. -/
structure Evicting (c c' : ResolveCache) (uses : List (Option String)) (key : String) (endpoints : List String)
    (version ttl now : ℕ) : Prop where
  orderly : Orderly c' (some key::uses)
  kept : 0<c.capacity → ∃ n, c'.entries.get key=some ⟨endpoints,version,.fresh,now,ttl,n⟩
  full : ∀ v e, c.entries.get v=some e → c'.entries.get v=none → c.entries.size=c.capacity ∧ c.entries.get key=none
  least : ∀ v e, c.entries.get v=some e → c'.entries.get v=none →
    ∀ x e', c.entries.get x=some e' → x≠v → c'.entries.get x≠none ∧ Precedes uses v e x e'

theorem Orderly.store (h : Orderly c uses) (hcap : c.capacity<u64Max) (key : String) (endpoints : List String)
    (version ttl now : ℕ) : Evicting c (c.store key endpoints version ttl now) uses key endpoints version ttl now := by
  obtain ⟨hranked,hbound,hclock⟩:=h.tick hcap
  have hsame:=tick_same c
  have hsizeTick:=hsame.size
  have hsizeC:=h.size
  unfold ResolveCache.store
  dsimp only
  generalize hstored : ({c.tickLru with
    entries := c.tickLru.entries.insert key ⟨endpoints,version,.fresh,now,ttl,c.tickLru.lruClock⟩
    invalidationFloor := c.tickLru.invalidationFloor.remove key} : ResolveCache)=stored
  have hentries : stored.entries=c.tickLru.entries.insert key ⟨endpoints,version,.fresh,now,ttl,c.tickLru.lruClock⟩ := by
    rw [← hstored]
  have hcapacity : stored.capacity=c.capacity := by
    rw [← hstored]
    exact tick_capacity c
  have hlru : stored.lruClock=c.tickLru.lruClock := by rw [← hstored]
  have hnew : stored.entries.get key=some ⟨endpoints,version,.fresh,now,ttl,c.tickLru.lruClock⟩ := by
    rw [hentries]
    exact OrderedMap.get_insert_self
  have hold : ∀ x, x≠key → ∀ e, c.entries.get x=some e → ∃ n, stored.entries.get x=some {e with lru:=n} := by
    intro x hx e he
    obtain ⟨n,hn⟩:=hsame.get_of he
    exact ⟨n,by rw [hentries,OrderedMap.get_insert_of_ne hx]; exact hn⟩
  have htouch : Ranked stored (some key::uses) := hranked.touch hbound rfl hentries hlru
  rcases Nat.lt_or_ge stored.capacity stored.entries.size with hover | hroom
  · -- the key was new and the cache full
    have hkey : c.entries.get key=none := by
      cases hget : c.entries.get key with
      | none => rfl
      | some e =>
        obtain ⟨n,hn⟩:=hsame.get_of hget
        have hsame' : stored.entries.size=c.tickLru.entries.size := by
          rw [hentries]
          exact OrderedMap.size_insert_old hn
        omega
    have hkey' : c.tickLru.entries.get key=none := by
      cases hget : c.tickLru.entries.get key with
      | none => rfl
      | some e =>
        obtain ⟨e0,he0,-⟩:=hsame.get_some hget
        rw [hkey] at he0
        contradiction
    have hone : stored.entries.size=c.tickLru.entries.size+1 := by
      rw [hentries]
      exact OrderedMap.size_insert_new hkey'
    have hfull : c.entries.size=c.capacity := by omega
    obtain ⟨gone,hgone,hevict⟩:=evictIfFull_one (c := stored) (by omega)
    obtain ⟨e,he,hleast⟩:=victim_spec hgone
    have hnotNew : 0<c.capacity → gone≠key := by
      intro hpos heq
      obtain ⟨y,hy⟩ : ∃ y, y∈c.entries.keys := by
        apply List.exists_mem_of_length_pos
        rw [OrderedMap.keys,SortedMap.length_keys]
        exact lt_of_lt_of_eq hpos hfull.symm
      obtain ⟨ey,hey⟩:=OrderedMap.mem_keys.mp hy
      have hyk : y≠key := by
        rintro rfl
        rw [hkey] at hey
        contradiction
      obtain ⟨n,hn⟩:=hold y hyk ey hey
      rw [heq] at he hleast
      have hp:=htouch.precedes he hn (Ne.symm hyk) (hleast y _ hn)
      obtain rfl:=Option.some.inj (hnew.symm.trans he)
      rcases hp with ⟨hstate,-⟩ | ⟨-,hlast⟩
      · simp at hstate
      · have:=lastUse_le uses y
        rw [lastUse_self,lastUse_other uses hyk] at hlast
        omega
    rw [hevict]
    refine ⟨⟨?_,?_,?_⟩,?_,?_,?_⟩
    · refine htouch.sub ?_ ?_
      · rfl
      intro x e1 h1
      rw [OrderedMap.get_remove] at h1
      split at h1
      · contradiction
      · exact ⟨e1,h1,rfl⟩
    · change stored.lruClock≤u64Max
      omega
    · have hsize:=size_remove he
      change (stored.entries.remove gone).size ≤ stored.capacity
      omega
    · intro hpos
      exact ⟨_,by rw [OrderedMap.get_remove_of_ne (Ne.symm (hnotNew hpos))]; exact hnew⟩
    · intro v e1 h1 h2
      exact ⟨hfull,hkey⟩
    · intro v e1 h1 h2 x e2 h3 hxv
      have hvk : v≠key := by
        rintro rfl
        rw [hkey] at h1
        contradiction
      have hxk : x≠key := by
        rintro rfl
        rw [hkey] at h3
        contradiction
      obtain ⟨n,hn⟩:=hold v hvk e1 h1
      obtain ⟨n',hn'⟩:=hold x hxk e2 h3
      have hv : v=gone := by
        rw [OrderedMap.get_remove] at h2
        split at h2
        · assumption
        · rw [hn] at h2
          contradiction
      subst hv
      obtain rfl:=Option.some.inj (hn.symm.trans he)
      refine ⟨?_,?_⟩
      · rw [OrderedMap.get_remove_of_ne hxv,hn']
        simp
      · have hp:=htouch.precedes hn hn' (Ne.symm hxv) (hleast x _ hn')
        unfold Precedes at hp ⊢
        rw [lastUse_other uses hvk,lastUse_other uses hxk] at hp
        exact hp
  · rw [evictIfFull_room hroom]
    have hstay : ∀ v e, c.entries.get v=some e → stored.entries.get v≠none := by
      intro v e he
      by_cases hv : v=key
      · subst hv
        rw [hnew]
        simp
      · obtain ⟨n,hn⟩:=hold v hv e he
        rw [hn]
        simp
    refine ⟨⟨htouch,by omega,hroom⟩,fun _ => ⟨_,hnew⟩,?_,?_⟩
    · intro v e he hnone
      exact absurd hnone (hstay v e he)
    · intro v e he hnone
      exact absurd hnone (hstay v e he)

end ResolveCache

open ResolveCache (Orderly Evicting)

variable {t : Trace}

theorem putWithTtl_orderly (h : Orderly t.cache t.uses) (hcap : t.cache.capacity<u64Max) (key : String)
    (endpoints : List String) (version ttl now choice : ℕ) :
    Orderly (t.putWithTtl key endpoints version ttl now choice).cache
      (t.putWithTtl key endpoints version ttl now choice).uses := by
  unfold Trace.putWithTtl ResolveCache.putWithTtl
  by_cases hr : t.cache.refuses key version=true
  · simp only [hr,if_true]
    exact h.idle
  · simp only [hr]
    by_cases httl : ttl=0
    · simp only [httl,if_true]
      exact (h.dropped key).invalidate key version choice
    · simp only [httl,if_false]
      exact (h.store hcap key endpoints version ttl now).orderly

theorem next_orderly (h : Orderly t.cache t.uses) (hcap : t.cache.capacity<u64Max) (op : Op) :
    Orderly (t.next op).cache (t.next op).uses := by
  cases op with
  | put key endpoints version now choice => exact putWithTtl_orderly h hcap key endpoints version t.cache.ttl now choice
  | putWithTtl key endpoints version ttl now choice => exact putWithTtl_orderly h hcap key endpoints version ttl now choice
  | get key now =>
    have hget:=h.get hcap key now
    unfold Trace.next Trace.get
    dsimp only
    split
    · rename_i hnone
      simpa [hnone] using hget
    · rename_i e he
      simpa [he] using hget
  | invalidateVersioned key version choice => exact h.invalidate key version choice

section capacities
variable {c : ResolveCache}

theorem evict_capacity (fuel : ℕ) (c : ResolveCache) : (c.evict fuel).capacity=c.capacity := by
  induction fuel generalizing c with
  | zero => simp [ResolveCache.evict]
  | succ fuel ih =>
    simp only [ResolveCache.evict]
    split
    · split
      · exact ih _
      · rfl
    · rfl

theorem invalidateVersioned_capacity (c : ResolveCache) (key : String) (version choice : ℕ) :
    (c.invalidateVersioned key version choice).capacity=c.capacity := by
  unfold ResolveCache.invalidateVersioned
  exact (ResolveCache.trimFloor_same _ choice).2.2

theorem putWithTtl_capacity (c : ResolveCache) (key : String) (endpoints : List String) (version ttl now choice : ℕ) :
    (c.putWithTtl key endpoints version ttl now choice).capacity=c.capacity := by
  unfold ResolveCache.putWithTtl
  split
  · rfl
  · split
    · exact invalidateVersioned_capacity _ key version choice
    · unfold ResolveCache.store ResolveCache.evictIfFull
      rw [evict_capacity]
      simp

end capacities

theorem next_capacity (t : Trace) (op : Op) : (t.next op).cache.capacity=t.cache.capacity := by
  cases op with
  | put | putWithTtl =>
    exact (congrArg ResolveCache.capacity (t.putWithTtl_cache ..)).trans (putWithTtl_capacity ..)
  | get key now =>
    exact (congrArg ResolveCache.capacity (t.get_cache key now)).trans (ResolveCache.get_capacity key now)
  | invalidateVersioned key version choice => exact invalidateVersioned_capacity t.cache key version choice

theorem run_orderly {ops : List Op} (h : Orderly t.cache t.uses) (hcap : t.cache.capacity<u64Max) :
    Orderly (t.run ops).cache (t.run ops).uses ∧ (t.run ops).cache.capacity=t.cache.capacity := by
  induction ops generalizing t with
  | nil => exact ⟨h,rfl⟩
  | cons op ops ih =>
    have hnext:=next_capacity t op
    obtain ⟨hrun,hcap'⟩:=ih (next_orderly h hcap op) (by rw [hnext]; exact hcap)
    exact ⟨hrun,hcap'.trans hnext⟩

/-- What a cache with room for every key promises. -/
structure Promised (keys : List String) (t : Trace) : Prop where
  answer : ∀ key now answer, (t.cache.get key now).2=some answer →
    ∃ e, t.cache.entries.get key=some e ∧ answer.1=e.endpoints ∧
      (∀ v, (key,v)∈t.invalidated → v≤e.version) ∧ ∀ v, (key,v)∈t.served → v≤e.version
  size : t.cache.entries.size≤t.cache.capacity
  /- Nothing is evicted, least of all the key just put. -/
  put : ∀ key∈keys, ∀ endpoints version ttl now choice, t.cache.refuses key version=false → ttl≠0 →
    (∃ n, (t.cache.putWithTtl key endpoints version ttl now choice).entries.get key =
      some ⟨endpoints,version,.fresh,now,ttl,n⟩) ∧
    ∀ x, t.cache.entries.get x≠none → (t.cache.putWithTtl key endpoints version ttl now choice).entries.get x≠none

theorem Kept.promised {keys : List String} (h : Kept keys t) (hroom : keys.length≤t.cache.capacity) :
    Promised keys t where
  answer := by
    intro key now answer hanswer
    obtain ⟨e,he,hendpoints,hvalid⟩:=ResolveCache.get_answer hanswer
    refine ⟨e,he,hendpoints,?_,?_⟩
    · intro v hv
      exact (h.invalidated _ hv).of_valid h.fenced he hvalid
    · intro v hv
      exact (h.served _ hv).of_valid h.fenced he hvalid
  size := entries_room hroom h.fenced
  put := by
    intro key hkey endpoints version ttl now choice hr httl
    have hspec:=@ResolveCache.store_spec t.cache key _ _ _ _
      fun n => insert_room hroom h.fenced hkey ⟨endpoints,version,.fresh,now,ttl,n⟩
    unfold ResolveCache.putWithTtl
    simp only [hr,httl,Bool.false_eq_true,if_false]
    refine ⟨hspec.entry,?_⟩
    intro x hx
    obtain ⟨e,he⟩:=Option.ne_none_iff_exists'.mp hx
    by_cases hxk : x=key
    · obtain ⟨n,hn⟩:=hspec.entry
      rw [hxk,hn]
      simp
    · obtain ⟨n,hn⟩:=hspec.others x hxk e he
      rw [hn]
      simp

/-- The version fence of a cache whose capacity is enough for all keys, after any run of
calls; and what goes when it is not enough. -/
theorem version_fence (ttl staleWindow capacity : ℕ) (ops : List Op) :
    (∀ keys : List String, keys.length≤capacity → (∀ op∈ops, op.key∈keys) →
      Promised keys ((Trace.start ttl staleWindow capacity).run ops)) ∧
    (capacity<u64Max →
      ((Trace.start ttl staleWindow capacity).run ops).cache.entries.size≤capacity ∧
      ∀ key endpoints version ttl' now,Evicting ((Trace.start ttl staleWindow capacity).run ops).cache
          (((Trace.start ttl staleWindow capacity).run ops).cache.store key endpoints version ttl' now)
          ((Trace.start ttl staleWindow capacity).run ops).uses key endpoints version ttl' now) := by
  constructor
  · intro keys hlen hkeys
    have hstart : Kept keys (Trace.start ttl staleWindow capacity) :=
      ⟨ResolveCache.fenced_empty keys ttl staleWindow capacity,by simp [Trace.start],by simp [Trace.start]⟩
    obtain ⟨hkept,hcap⟩:=run_kept hstart hlen hkeys
    exact hkept.promised (by rw [hcap]; exact hlen)
  · intro hcap
    obtain ⟨horderly,hcapacity⟩:=@run_orderly (Trace.start ttl staleWindow capacity) ops
      ⟨ResolveCache.ranked_empty ttl staleWindow capacity,Nat.zero_le _,Nat.zero_le _⟩ hcap
    have hsize:=horderly.size
    rw [hcapacity] at hsize
    exact ⟨hsize,fun key endpoints version ttl' now =>
      horderly.store (by rw [hcapacity]; exact hcap) key endpoints version ttl' now⟩

/- A fenced key with a put at the fence. -/
theorem version_fence_refilled : Promised ["a","b"] ((Trace.start 60 300 2).run
    [.put "a" ["x:1"] 4 0 0,.invalidateVersioned "a" 5 0,.put "a" ["y:1"] 5 0 0,.put "b" [] 1 0 0,.get "a" 7]) :=
  (version_fence 60 300 2 _).1 ["a","b"] (by decide) (by simp [Op.key])

end Parrot.Resolve
