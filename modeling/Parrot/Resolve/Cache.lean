import Mathlib.Data.List.MinMax
import Mathlib.Data.List.Sort
import Mathlib.Data.Prod.Lex
import Mathlib.Data.String.Basic
import Parrot.Lib.Machine
import Parrot.Lib.OrderedMap

/-! # The resolve cache (`cache.rs`)

Endpoints by key, with the version the directory gave them, and the fences that invalidations
leave behind. -/

namespace Parrot.Resolve
open Machine

inductive CacheState where
  | fresh
  | stale
  | invalid
  deriving DecidableEq

structure CacheEntry where
  endpoints : List String
  version : ℕ
  state : CacheState
  fetchedAt : ℕ
  ttl : ℕ
  lru : ℕ

structure ResolveCache where
  entries : OrderedMap String CacheEntry
  invalidationFloor : OrderedMap String ℕ
  ttl : ℕ
  staleWindow : ℕ
  capacity : ℕ
  lruClock : ℕ
  hits : ℕ
  misses : ℕ

def seconds (n : ℕ) : ℕ := n*10^9

namespace ResolveCache

def empty (ttl staleWindow capacity : ℕ) : ResolveCache :=
  ⟨OrderedMap.empty,OrderedMap.empty,ttl,staleWindow,capacity,0,0,0⟩

def new : ResolveCache := empty (seconds 60) (seconds 300) 65536
def withCapacity (capacity : ℕ) : ResolveCache := empty (seconds 60) (seconds 300) (max capacity 1)

def byRecency (m : OrderedMap String CacheEntry) : List String :=
  (m.entries.insertionSort fun a b => a.2.lru≤b.2.lru).map Prod.fst

def setLru (m : OrderedMap String CacheEntry) (key : String) (n : ℕ) : OrderedMap String CacheEntry :=
  match m.get key with
  | some e => m.insert key {e with lru:=n}
  | none => m

def renumber : List String → ℕ → OrderedMap String CacheEntry → OrderedMap String CacheEntry × ℕ
  | [],next,m => (m,next)
  | key::order,next,m => renumber order (saturatingAdd next 1) (setLru m key (saturatingAdd next 1))

/-- The first half of `tick_lru`. -/
def rebase (c : ResolveCache) : ResolveCache :=
  if c.lruClock=u64Max then
    {c with
      entries := (renumber (byRecency c.entries) 0 c.entries).1
      lruClock := (renumber (byRecency c.entries) 0 c.entries).2}
  else c

def tickLru (c : ResolveCache) : ResolveCache := {c.rebase with lruClock:=saturatingAdd c.rebase.lruClock 1}

/-- What makes an entry stay: an invalid one goes first, then the least recently used. -/
def rank (e : String × CacheEntry) : Bool ×ₗ (ℕ ×ₗ ℕ) := toLex (e.2.state ≠ .invalid,toLex (e.2.lru,e.2.fetchedAt))

def victim (c : ResolveCache) : Option String := (c.entries.entries.argmin rank).map Prod.fst

/- Each turn of the loop takes an entry away. -/
def evict : ℕ → ResolveCache → ResolveCache
  | 0,c => c
  | fuel+1,c =>
    if c.entries.size>c.capacity then
      match c.victim with
      | some key => evict fuel {c with entries:=c.entries.remove key}
      | none => c
    else c

def evictIfFull (c : ResolveCache) : ResolveCache := evict c.entries.size c

def ageState (staleWindow : ℕ) (e : CacheEntry) (now : ℕ) : CacheState :=
  if e.state=.invalid then .invalid
  else if now-e.fetchedAt≤e.ttl then .fresh
  else if now-e.fetchedAt ≤ staleWindow then .stale
  else .invalid

def get (c : ResolveCache) (key : String) (now : ℕ) : ResolveCache × Option (List String × CacheState) :=
  let c:=c.tickLru
  match c.entries.get key with
  | none => ({c with misses:=saturatingAdd c.misses 1},none)
  | some e =>
    let c:={c with entries := c.entries.insert key {e with lru:=c.lruClock}}
    match ageState c.staleWindow e now with
    | .invalid => ({c with misses:=saturatingAdd c.misses 1},none)
    | state => ({c with hits:=saturatingAdd c.hits 1},some (e.endpoints,state))

def invalidate (c : ResolveCache) (key : String) : ResolveCache :=
  match c.entries.get key with
  | some e => {c with entries := c.entries.insert key {e with state:=.invalid}}
  | none => c

/- `keys().next()` of a hash map: any key. -/
def anyKey (choice : ℕ) (keys : List String) : Option String := keys[choice%keys.length]?

def trimFloor (c : ResolveCache) (choice : ℕ) : ResolveCache :=
  if c.invalidationFloor.size>c.capacity then
    match anyKey choice c.invalidationFloor.keys with
    | some oldest => {c with invalidationFloor:=c.invalidationFloor.remove oldest}
    | none => c
  else c

def invalidateVersioned (c : ResolveCache) (key : String) (version choice : ℕ) : ResolveCache :=
  let entries:=match c.entries.get key with
    | some e =>
      if version≥e.version then c.entries.insert key {e with state:=.invalid,version:=version}
      else c.entries
    | none => c.entries
  let floor:=max ((c.invalidationFloor.get key).getD 0) version
  trimFloor {c with entries:=entries,invalidationFloor:=c.invalidationFloor.insert key floor} choice

/-- What `put_with_ttl` returns early for. -/
def refuses (c : ResolveCache) (key : String) (version : ℕ) : Bool :=
  ((c.entries.get key).any fun existing => existing.version>version) ||
    ((c.invalidationFloor.get key).any fun floor => version<floor)

def store (c : ResolveCache) (key : String) (endpoints : List String) (version ttl now : ℕ) : ResolveCache :=
  let c:=c.tickLru
  evictIfFull {c with
    entries := c.entries.insert key ⟨endpoints,version,.fresh,now,ttl,c.lruClock⟩
    invalidationFloor := c.invalidationFloor.remove key}

def putWithTtl (c : ResolveCache) (key : String) (endpoints : List String) (version ttl now choice : ℕ) :
    ResolveCache :=
  if c.refuses key version then c
  else if ttl=0 then invalidateVersioned {c with entries:=c.entries.remove key} key version choice
  else c.store key endpoints version ttl now

def put (c : ResolveCache) (key : String) (endpoints : List String) (version now choice : ℕ) : ResolveCache :=
  c.putWithTtl key endpoints version c.ttl now choice

variable {c c' : ResolveCache} {m : OrderedMap String CacheEntry} {key x y : String} {e e' : CacheEntry}

def SameBut (m m' : OrderedMap String CacheEntry) : Prop :=
  ∃ number : String → ℕ, ∀ x, m'.get x=(m.get x).map fun e => {e with lru:=number x}

theorem SameBut.refl (m : OrderedMap String CacheEntry) : SameBut m m := by
  refine ⟨fun x => (m.get x).elim 0 CacheEntry.lru,?_⟩
  intro x
  cases h : m.get x <;> simp [h]

theorem SameBut.trans {m m' m'' : OrderedMap String CacheEntry} (h : SameBut m m') (h' : SameBut m' m'') :
    SameBut m m'' := by
  obtain ⟨number,hnumber⟩:=h
  obtain ⟨number',hnumber'⟩:=h'
  refine ⟨number',?_⟩
  intro x
  rw [hnumber',hnumber,Option.map_map]
  rfl

theorem SameBut.renumbered {m : OrderedMap String CacheEntry} (h : m.get key=some e) (n : ℕ) :
    SameBut m (m.insert key {e with lru:=n}) := by
  refine ⟨fun x => if x=key then n else (m.get x).elim 0 CacheEntry.lru,?_⟩
  intro x
  rw [OrderedMap.get_insert]
  by_cases hx : x=key
  · subst hx
    simp [h]
  · cases hget : m.get x <;> simp [hx,hget]

theorem SameBut.get_some {m m' : OrderedMap String CacheEntry} (h : SameBut m m') (hget : m'.get x=some e') :
    ∃ e, m.get x=some e ∧ e'={e with lru:=e'.lru} := by
  obtain ⟨number,hnumber⟩:=h
  rw [hnumber] at hget
  obtain ⟨e,he,rfl⟩:=Option.map_eq_some_iff.mp hget
  exact ⟨e,he,rfl⟩

theorem SameBut.get_of {m m' : OrderedMap String CacheEntry} (h : SameBut m m') (hget : m.get x=some e) :
    ∃ n, m'.get x=some {e with lru:=n} := by
  obtain ⟨number,hnumber⟩:=h
  exact ⟨number x,by rw [hnumber,hget]; rfl⟩

theorem SameBut.keys {m m' : OrderedMap String CacheEntry} (h : SameBut m m') : x∈m'.keys ↔ x∈m.keys := by
  rw [OrderedMap.mem_keys,OrderedMap.mem_keys]
  constructor
  · rintro ⟨e',he'⟩
    obtain ⟨e,he,-⟩:=h.get_some he'
    exact ⟨e,he⟩
  · rintro ⟨e,he⟩
    obtain ⟨n,hn⟩:=h.get_of he
    exact ⟨_,hn⟩

theorem setLru_same (m : OrderedMap String CacheEntry) (key : String) (n : ℕ) : SameBut m (setLru m key n) := by
  unfold setLru
  split
  · rename_i e he
    exact SameBut.renumbered he n
  · exact SameBut.refl m

theorem renumber_same (order : List String) (next : ℕ) (m : OrderedMap String CacheEntry) :
    SameBut m (renumber order next m).1 := by
  induction order generalizing next m with
  | nil => exact SameBut.refl m
  | cons key order ih => exact (setLru_same m key _).trans (ih _ _)

theorem tick_same (c : ResolveCache) : SameBut c.entries c.tickLru.entries := by
  unfold tickLru rebase
  split
  · exact renumber_same _ _ _
  · exact SameBut.refl _

@[simp] theorem tick_floor (c : ResolveCache) : c.tickLru.invalidationFloor=c.invalidationFloor := by
  unfold tickLru rebase
  split <;> simp
@[simp] theorem tick_capacity (c : ResolveCache) : c.tickLru.capacity=c.capacity := by
  unfold tickLru rebase
  split <;> simp
theorem victim_spec (h : c.victim=some key) : ∃ e, c.entries.get key=some e ∧
    ∀ x e', c.entries.get x=some e' → rank (key,e) ≤ rank (x,e') := by
  obtain ⟨p,hp,rfl⟩:=Option.map_eq_some_iff.mp h
  refine ⟨p.2,OrderedMap.get_eq_some.mpr (List.argmin_mem hp),?_⟩
  intro x e' hx
  exact List.le_of_mem_argmin (OrderedMap.get_eq_some.mp hx) hp

theorem victim_some (h : 0<c.entries.size) : ∃ key, c.victim=some key := by
  have hne : c.entries.entries≠[] := List.length_pos_iff.mp h
  have hsome : c.entries.entries.argmin rank≠none := fun hn => hne ((List.argmin_eq_none (f := rank)).mp hn)
  obtain ⟨p,hp⟩:=Option.ne_none_iff_exists'.mp hsome
  exact ⟨p.1,by rw [victim,hp]; rfl⟩

theorem size_remove (h : c.entries.get key=some e) : (c.entries.remove key).size+1=c.entries.size := by
  have htotal:=OrderedMap.total_remove (fun _ _ => 1) h
  rwa [← OrderedMap.size_eq_total,← OrderedMap.size_eq_total] at htotal

theorem evictIfFull_room (h : c.entries.size≤c.capacity) : c.evictIfFull=c := by
  unfold evictIfFull
  cases hfuel : c.entries.size with
  | zero => simp [evict]
  | succ fuel =>
    simp only [evict]
    rw [if_neg (by omega)]

theorem evictIfFull_one (h : c.entries.size=c.capacity+1) : ∃ key, c.victim=some key ∧
    c.evictIfFull={c with entries:=c.entries.remove key} := by
  obtain ⟨key,hkey⟩:=victim_some (c := c) (by omega)
  obtain ⟨e,he,-⟩:=victim_spec hkey
  have hsize:=size_remove he
  refine ⟨key,hkey,?_⟩
  unfold evictIfFull
  rw [h]
  simp only [evict,hkey]
  rw [if_pos (by omega)]
  cases hcap : c.capacity with
  | zero => simp [evict]
  | succ n =>
    simp only [evict]
    rw [if_neg]
    omega

end ResolveCache
end Parrot.Resolve
