import Parrot.Resolve.Fence

/-! # Runs of the resolve cache

The calls of a run in any order and with any times, what they invalidated and answered
so far, and when each key was used last. -/

namespace Parrot.Resolve
open Machine
open ResolveCache (Bounded Fenced)

inductive Op where
  | put (key : String) (endpoints : List String) (version now choice : ℕ)
  | putWithTtl (key : String) (endpoints : List String) (version ttl now choice : ℕ)
  | get (key : String) (now : ℕ)
  | invalidateVersioned (key : String) (version choice : ℕ)

def Op.key : Op → String
  | .put key .. => key
  | .putWithTtl key .. => key
  | .get key _ => key
  | .invalidateVersioned key .. => key

/-- A run: the newest call comes first in each list. -/
structure Trace where
  cache : ResolveCache
  /- The key each call used, if any: a lookup that finds an entry, or a put that stores one. -/
  uses : List (Option String)
  invalidated : List (String × ℕ)
  /- The versions of the entries that lookups answered from. -/
  served : List (String × ℕ)

namespace Trace

def start (ttl staleWindow capacity : ℕ) : Trace := ⟨ResolveCache.empty ttl staleWindow capacity,[],[],[]⟩

def putWithTtl (t : Trace) (key : String) (endpoints : List String) (version ttl now choice : ℕ) : Trace :=
  let cache:=t.cache.putWithTtl key endpoints version ttl now choice
  if t.cache.refuses key version then ⟨cache,none::t.uses,t.invalidated,t.served⟩
  else if ttl=0 then ⟨cache,none::t.uses,(key,version)::t.invalidated,t.served⟩
  else ⟨cache,some key::t.uses,t.invalidated,t.served⟩

def get (t : Trace) (key : String) (now : ℕ) : Trace :=
  let cache:=(t.cache.get key now).1
  match t.cache.entries.get key with
  | none => ⟨cache,none::t.uses,t.invalidated,t.served⟩
  | some e => ⟨cache,some key::t.uses,t.invalidated,
      if (t.cache.get key now).2.isSome then (key,e.version)::t.served else t.served⟩

def next (t : Trace) : Op → Trace
  | .put key endpoints version now choice => t.putWithTtl key endpoints version t.cache.ttl now choice
  | .putWithTtl key endpoints version ttl now choice => t.putWithTtl key endpoints version ttl now choice
  | .get key now => t.get key now
  | .invalidateVersioned key version choice =>
    ⟨t.cache.invalidateVersioned key version choice,none::t.uses,(key,version)::t.invalidated,t.served⟩

def run (t : Trace) (ops : List Op) : Trace := ops.foldl next t

theorem putWithTtl_cache (t : Trace) (key : String) (endpoints : List String) (version ttl now choice : ℕ) :
    (t.putWithTtl key endpoints version ttl now choice).cache=t.cache.putWithTtl key endpoints version ttl now choice := by
  unfold putWithTtl
  dsimp only
  split
  · rfl
  · split <;> rfl

theorem get_cache (t : Trace) (key : String) (now : ℕ) : (t.get key now).cache=(t.cache.get key now).1 := by
  unfold get
  dsimp only
  split <;> rfl

end Trace

structure Kept (keys : List String) (t : Trace) : Prop where
  fenced : Fenced keys t.cache
  invalidated : ∀ p∈t.invalidated, Bounded t.cache p.1 p.2
  served : ∀ p∈t.served, Bounded t.cache p.1 p.2

variable {keys : List String} {t : Trace} {key x : String} {v version : ℕ}

theorem entries_room (hroom : keys.length≤t.cache.capacity) (h : Fenced keys t.cache) :
    t.cache.entries.size≤t.cache.capacity := (OrderedMap.size_le_of_keys h.entries).trans hroom

theorem kept_of {t t' : Trace} (h : Kept keys t) (hfenced : Fenced keys t'.cache)
    (hbounded : ∀ x v, Bounded t.cache x v → Bounded t'.cache x v)
    (hinvalidated : ∀ p∈t'.invalidated, p∈t.invalidated ∨ Bounded t'.cache p.1 p.2)
    (hserved : ∀ p∈t'.served, p∈t.served ∨ Bounded t'.cache p.1 p.2) : Kept keys t' where
  fenced := hfenced
  invalidated := by
    intro p hp
    rcases hinvalidated p hp with hold | hnew
    · exact hbounded _ _ (h.invalidated p hold)
    · exact hnew
  served := by
    intro p hp
    rcases hserved p hp with hold | hnew
    · exact hbounded _ _ (h.served p hold)
    · exact hnew

theorem get_kept (h : Kept keys t) (key : String) (now : ℕ) : Kept keys (t.get key now) := by
  have hsame:=ResolveCache.get_same (c := t.cache) key now
  have hfloor:=ResolveCache.get_floor (c := t.cache) key now
  have hbounded : ∀ x v, Bounded t.cache x v → Bounded (t.cache.get key now).1 x v :=
    fun x v hb => ResolveCache.SameBut.bounded rfl hsame hfloor hb
  have hfenced:=ResolveCache.SameBut.fenced hsame hfloor h.fenced
  unfold Trace.get
  dsimp only
  split
  · exact kept_of h hfenced hbounded (fun p hp => .inl hp) (fun p hp => .inl hp)
  · rename_i e he
    refine kept_of h hfenced hbounded (fun p hp => .inl hp) ?_
    intro p hp
    dsimp only at hp
    split at hp
    · rcases List.mem_cons.mp hp with rfl | hp
      · exact .inr (hbounded key e.version (.inl ⟨e,he,le_rfl⟩))
      · exact .inl hp
    · exact .inl hp

theorem floor_room (hroom : keys.length≤t.cache.capacity) (h : Fenced keys t.cache) (hkey : key∈keys) (n : ℕ) :
    (t.cache.invalidationFloor.insert key n).size≤t.cache.capacity := by
  refine (OrderedMap.size_le_of_keys ?_).trans hroom
  intro k hk
  rcases OrderedMap.mem_keys_insert.mp hk with rfl | hk
  · exact hkey
  · exact h.floors k hk

theorem invalidate_kept (h : Kept keys t) (hroom : keys.length≤t.cache.capacity) (hkey : key∈keys)
    (version choice : ℕ) : Kept keys (t.next (.invalidateVersioned key version choice)) ∧
      (t.cache.invalidateVersioned key version choice).capacity=t.cache.capacity := by
  have hspec:=@ResolveCache.invalidateVersioned_spec t.cache key version choice (floor_room hroom h.fenced hkey _)
  refine ⟨?_,hspec.capacity⟩
  refine kept_of h (hspec.fenced hkey h.fenced) (fun x v hb => hspec.bounded hb) ?_ (fun p hp => .inl hp)
  intro p hp
  rcases List.mem_cons.mp hp with rfl | hp
  · exact .inr hspec.raised
  · exact .inl hp

theorem insert_room (hroom : keys.length≤t.cache.capacity) (h : Fenced keys t.cache) (hkey : key∈keys)
    (e : CacheEntry) : (t.cache.tickLru.entries.insert key e).size≤t.cache.capacity := by
  refine (OrderedMap.size_le_of_keys ?_).trans hroom
  intro k hk
  rcases OrderedMap.mem_keys_insert.mp hk with rfl | hk
  · exact hkey
  · exact h.entries k ((ResolveCache.tick_same t.cache).keys.mp hk)

theorem putWithTtl_kept (h : Kept keys t) (hroom : keys.length≤t.cache.capacity) (hkey : key∈keys)
    (endpoints : List String) (version ttl now choice : ℕ) :
    Kept keys (t.putWithTtl key endpoints version ttl now choice) ∧
      (t.cache.putWithTtl key endpoints version ttl now choice).capacity=t.cache.capacity := by
  unfold Trace.putWithTtl ResolveCache.putWithTtl
  by_cases hr : t.cache.refuses key version=true
  · simp only [hr,if_true]
    exact ⟨⟨h.fenced,h.invalidated,h.served⟩,trivial⟩
  · simp only [Bool.not_eq_true] at hr
    by_cases httl : ttl=0
    · simp only [hr,httl,if_true,Bool.false_eq_true,if_false]
      have hspec:=@ResolveCache.invalidateVersioned_spec (t.cache.dropped key) key version choice
        (floor_room hroom h.fenced hkey _)
      refine ⟨?_,hspec.capacity⟩
      refine kept_of h (hspec.fenced hkey (ResolveCache.dropped_fenced h.fenced))
        (fun x v hb => ResolveCache.dropped_bounded hspec hr hb) ?_ (fun p hp => .inl hp)
      intro p hp
      rcases List.mem_cons.mp hp with rfl | hp
      · exact .inr hspec.raised
      · exact .inl hp
    · simp only [hr,httl,Bool.false_eq_true,if_false]
      have hspec:=@ResolveCache.store_spec t.cache key version endpoints ttl now
        fun n => insert_room hroom h.fenced hkey ⟨endpoints,version,.fresh,now,ttl,n⟩
      exact ⟨kept_of h (hspec.fenced hkey h.fenced) (fun x v hb => hspec.bounded hr hb) (fun p hp => .inl hp)
        (fun p hp => .inl hp),hspec.capacity⟩

theorem next_kept (h : Kept keys t) (hroom : keys.length≤t.cache.capacity) {op : Op} (hkey : op.key∈keys) :
    Kept keys (t.next op) ∧ (t.next op).cache.capacity=t.cache.capacity := by
  cases op with
  | put key endpoints version now choice =>
    obtain ⟨hkept,hcap⟩:=putWithTtl_kept h hroom hkey endpoints version t.cache.ttl now choice
    exact ⟨hkept,by rw [← hcap]; exact congrArg ResolveCache.capacity (t.putWithTtl_cache ..)⟩
  | putWithTtl key endpoints version ttl now choice =>
    obtain ⟨hkept,hcap⟩:=putWithTtl_kept h hroom hkey endpoints version ttl now choice
    exact ⟨hkept,by rw [← hcap]; exact congrArg ResolveCache.capacity (t.putWithTtl_cache ..)⟩
  | get key now =>
    refine ⟨get_kept h key now,?_⟩
    rw [← ResolveCache.get_capacity (c := t.cache) key now]
    exact congrArg ResolveCache.capacity (t.get_cache key now)
  | invalidateVersioned key version choice => exact invalidate_kept h hroom hkey version choice

theorem run_kept {ops : List Op} (h : Kept keys t) (hroom : keys.length≤t.cache.capacity)
    (hkeys : ∀ op∈ops, op.key∈keys) : Kept keys (t.run ops) ∧ (t.run ops).cache.capacity=t.cache.capacity := by
  induction ops generalizing t with
  | nil => exact ⟨h,rfl⟩
  | cons op ops ih =>
    obtain ⟨hnext,hcap⟩:=next_kept h hroom (hkeys op (List.mem_cons_self ..))
    obtain ⟨hrun,hcap'⟩:=ih hnext (by rw [hcap]; exact hroom) fun o ho => hkeys o (List.mem_cons_of_mem _ ho)
    exact ⟨hrun,hcap'.trans hcap⟩

end Parrot.Resolve
