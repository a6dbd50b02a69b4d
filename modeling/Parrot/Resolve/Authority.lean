import Parrot.Lib.Text
import Parrot.Resolve.Fence
import Parrot.Resolve.Payload

/-! # Authorities (`security.rs:24-63`, `ingress.rs:318-325`)

What a connection has shown of its peer, what it may do, and the key that an answer of this
peer is cached under. -/

namespace Parrot.Resolve
open Machine

inductive PeerAuthentication where
  | unauthenticated
  | inProcess
  | mutualTls
  deriving DecidableEq

/- `{:?}` -/
def PeerAuthentication.debug : PeerAuthentication → String
  | .unauthenticated => "Unauthenticated"
  | .inProcess => "InProcess"
  | .mutualTls => "MutualTls"

/-- What a connection says of its peer, for as long as it lives. The node is `?` where it
has no name. -/
structure Peer where
  authentication : PeerAuthentication
  nodeId : String

inductive ControlPolicy where
  | localOnly
  | authenticatedNodes (nodes : List String)
  | insecureDevelopment
  deriving DecidableEq

def ControlPolicy.allowsCluster : ControlPolicy → Peer → Bool
  | .localOnly,peer => peer.authentication=.inProcess
  | .authenticatedNodes _,peer => peer.authentication=.mutualTls
  | .insecureDevelopment,_ => true

def resolveCacheKey (source : Peer) (key : String) : String :=
  source.authentication.debug++":"++(toString source.nodeId.utf8ByteSize++":"++(source.nodeId++key))

theorem debug_inj {a b : PeerAuthentication} (h : a.debug=b.debug) : a=b := by
  cases a <;> cases b <;> first | rfl | (revert h; decide)

theorem debug_colon (a : PeerAuthentication) : ':'∉a.debug.toList := by
  cases a <;> decide

theorem append_inj_of_size {a b x y : String} (hsize : a.utf8ByteSize=b.utf8ByteSize) (h : a++x=b++y) :
    a=b ∧ x=y := by
  have hbytes:=congrArg Bincode.utf8 h
  have happend (s t : String) : Bincode.utf8 (s++t)=Bincode.utf8 s++Bincode.utf8 t := by
    simp [Bincode.utf8]
  rw [happend,happend] at hbytes
  obtain ⟨hab,hxy⟩:=List.append_inj hbytes (by rw [Bincode.utf8_length,Bincode.utf8_length,hsize])
  exact ⟨Bincode.utf8_inj hab,Bincode.utf8_inj hxy⟩

theorem resolveCacheKey_inj {p q : Peer} {key key' : String} (h : resolveCacheKey p key=resolveCacheKey q key') :
    p=q ∧ key=key' := by
  have hcolon : ":".toList=[':'] := by decide
  obtain ⟨hdebug,hrest⟩:=Text.separator_text_inj hcolon (debug_colon _) (debug_colon _) h
  obtain ⟨hlen,htail⟩:=Text.separator_text_inj hcolon (Text.not_mem_repr rfl _) (Text.not_mem_repr rfl _) hrest
  obtain ⟨hnode,hkey⟩:=append_inj_of_size (Text.repr_inj hlen) htail
  rcases p with ⟨pa,pn⟩
  rcases q with ⟨qa,qn⟩
  obtain rfl:=debug_inj hdebug
  obtain rfl : pn=qn := hnode
  exact ⟨rfl,hkey⟩

/-- Under `x` nothing new is to be found, only what was there, or less. -/
structure Spared (c c' : ResolveCache) (x : String) : Prop where
  entry : ∀ e', c'.entries.get x=some e' → ∃ e, c.entries.get x=some e ∧ e'={e with lru:=e'.lru}
  floor : ∀ f, c'.invalidationFloor.get x=some f → c.invalidationFloor.get x=some f

variable {c c' : ResolveCache} {key x : String}

theorem spared_refl (c : ResolveCache) (x : String) : Spared c c x where
  entry := fun e' he' => ⟨e',he',rfl⟩
  floor := fun _ hf => hf

theorem evict_get {fuel : ℕ} {e : CacheEntry} (h : (c.evict fuel).entries.get x=some e) : c.entries.get x=some e := by
  induction fuel generalizing c with
  | zero => exact h
  | succ fuel ih =>
    simp only [ResolveCache.evict] at h
    split at h
    · split at h
      · have hremove:=ih h
        rw [OrderedMap.get_remove] at hremove
        split at hremove
        · contradiction
        · exact hremove
      · exact h
    · exact h

theorem evict_floor (fuel : ℕ) (c : ResolveCache) : (c.evict fuel).invalidationFloor=c.invalidationFloor := by
  induction fuel generalizing c with
  | zero => simp [ResolveCache.evict]
  | succ fuel ih =>
    simp only [ResolveCache.evict]
    split
    · split
      · exact ih _
      · rfl
    · rfl

theorem trimFloor_get {choice f : ℕ} (h : (c.trimFloor choice).invalidationFloor.get x=some f) :
    c.invalidationFloor.get x=some f := by
  unfold ResolveCache.trimFloor at h
  split at h
  · split at h
    · rw [OrderedMap.get_remove] at h
      split at h
      · contradiction
      · exact h
    · exact h
  · exact h

theorem trimFloor_entries (c : ResolveCache) (choice : ℕ) : (c.trimFloor choice).entries=c.entries := by
  unfold ResolveCache.trimFloor
  split
  · split <;> simp
  · simp

theorem get_spared (key : String) (now : ℕ) : Spared c (c.get key now).1 x where
  entry := fun e' he' => (ResolveCache.get_same key now).get_some he'
  floor := by
    intro f hf
    rwa [ResolveCache.get_floor] at hf

theorem invalidate_spared (hx : x≠key) : Spared c (c.invalidate key) x where
  entry := by
    intro e' he'
    unfold ResolveCache.invalidate at he'
    split at he'
    · rw [OrderedMap.get_insert_of_ne hx] at he'
      exact ⟨e',he',rfl⟩
    · exact ⟨e',he',rfl⟩
  floor := by
    intro f hf
    unfold ResolveCache.invalidate at hf
    split at hf <;> exact hf

theorem invalidateVersioned_spared (hx : x≠key) (version choice : ℕ) :
    Spared c (c.invalidateVersioned key version choice) x where
  entry := by
    intro e' he'
    unfold ResolveCache.invalidateVersioned at he'
    rw [trimFloor_entries] at he'
    dsimp only at he'
    split at he'
    · split at he'
      · rw [OrderedMap.get_insert_of_ne hx] at he'
        exact ⟨e',he',rfl⟩
      · exact ⟨e',he',rfl⟩
    · exact ⟨e',he',rfl⟩
  floor := by
    intro f hf
    unfold ResolveCache.invalidateVersioned at hf
    have hget:=trimFloor_get hf
    rwa [OrderedMap.get_insert_of_ne hx] at hget

theorem store_spared (hx : x≠key) (endpoints : List String) (version ttl now : ℕ) :
    Spared c (c.store key endpoints version ttl now) x where
  entry := by
    intro e' he'
    unfold ResolveCache.store ResolveCache.evictIfFull at he'
    have hget:=evict_get he'
    rw [OrderedMap.get_insert_of_ne hx] at hget
    exact (ResolveCache.tick_same c).get_some hget
  floor := by
    intro f hf
    unfold ResolveCache.store ResolveCache.evictIfFull at hf
    rw [evict_floor,OrderedMap.get_remove_of_ne hx,ResolveCache.tick_floor] at hf
    exact hf

theorem putWithTtl_spared (hx : x≠key) (endpoints : List String) (version ttl now choice : ℕ) :
    Spared c (c.putWithTtl key endpoints version ttl now choice) x := by
  unfold ResolveCache.putWithTtl
  split
  · exact spared_refl c x
  · split
    · have hdrop:=invalidateVersioned_spared (c := c.dropped key) hx version choice
      constructor
      · intro e' he'
        obtain ⟨e,he,heq⟩:=hdrop.entry e' he'
        rw [ResolveCache.dropped,OrderedMap.get_remove_of_ne hx] at he
        exact ⟨e,he,heq⟩
      · exact hdrop.floor
    · exact store_spared hx endpoints version ttl now

end Parrot.Resolve
