import Parrot.Directory.Shards
import Parrot.Lib.Circle

/-! # Consistency of the hash ring (`sharding.rs:19-67`)

The node of a key is the owner of the virtual node that is met first from the key's hash on. -/

namespace Parrot.Sharding
open Directory Directory.HashRing

/-- The virtual nodes of the nodes, before they are sorted. -/
def points (nodes : List String) (vnodesPerNode : ℕ) : List (UInt64 × String) :=
  nodes.flatMap fun n => (List.range vnodesPerNode).map fun i => (fnv1a (Bincode.utf8 (n++"#"++toString i)),n)

def place (v : UInt64 × String) : ℕ := v.1.toNat

def start (key : String) : ℕ := (fnv1a (Bincode.utf8 key)).toNat

variable {sort : SortByHash} {nodes : List String} {k : ℕ} {key id : String}

theorem mem_points {v : UInt64 × String} : v∈points nodes k ↔
    v.2∈nodes ∧ ∃ i<k, v.1=fnv1a (Bincode.utf8 (v.2++"#"++toString i)) := by
  simp only [points,List.mem_flatMap,List.mem_map,List.mem_range]
  constructor
  · rintro ⟨n,hn,i,hi,rfl⟩
    exact ⟨hn,i,hi,rfl⟩
  · rintro ⟨hn,i,hi,hv⟩
    exact ⟨v.2,hn,i,hi,Prod.ext hv.symm rfl⟩

theorem points_subset {part : List String} (h : ∀ n∈part, n∈nodes) : ∀ v∈points part k, v∈points nodes k := by
  intro v hv
  have hpart:=mem_points.mp hv
  exact mem_points.mpr ⟨h v.2 hpart.1,hpart.2⟩

theorem node_eq_pick (r : HashRing) (key : String) :
    r.node key=(Circle.pick place (start key) r.vnodes).map Prod.snd := rfl

theorem node_first (h : (new sort nodes k).node key=some id) :
    ∃ v, v.2=id ∧ Circle.First place (start key) (points nodes k) v := by
  rw [node_eq_pick] at h
  obtain ⟨v,hv,rfl⟩:=Option.map_eq_some_iff.mp h
  have hsorted : (new sort nodes k).vnodes.Pairwise fun a b => place a≤place b := sort.sorted _
  have hfirst:=Circle.pick_first hsorted hv
  have hmem (w : UInt64 × String) : w∈(new sort nodes k).vnodes ↔ w∈points nodes k := (sort.perm _).mem_iff
  exact ⟨v,rfl,(hmem v).mp hfirst.mem,fun w hw => hfirst.least w ((hmem w).mpr hw)⟩

theorem node_some (h : points nodes k≠[]) : ∃ id, (new sort nodes k).node key=some id := by
  have hne : (new sort nodes k).vnodes≠[] := by
    intro hnil
    have hperm:=sort.perm (points nodes k)
    rw [show sort.sort (points nodes k)=[] from hnil] at hperm
    exact h hperm.symm.eq_nil
  obtain ⟨v,hv⟩ : ∃ v, Circle.pick place (start key) (new sort nodes k).vnodes=some v := Circle.pick_isSome hne
  exact ⟨v.2,by rw [node_eq_pick,hv]; rfl⟩

theorem node_none (h : points nodes k=[]) : (new sort nodes k).node key=none := by
  have hnil : (new sort nodes k).vnodes=[] := by
    have hperm:=sort.perm (points nodes k)
    rw [h] at hperm
    exact (congrArg sort.sort h).trans hperm.eq_nil
  rw [node_eq_pick,hnil]
  rfl

theorem owner_unique (hdistinct : ((points nodes k).map Prod.fst).Nodup) {v w : UInt64 × String}
    (hv : v∈points nodes k) (hw : w∈points nodes k) (h : place v=place w) : v=w :=
  List.inj_on_of_nodup_map hdistinct hv hw (UInt64.toNat_inj.mp h)

section rings
variable {sort' : SortByHash} {part : List String}

section
variable (hdistinct : ((points nodes k).map Prod.fst).Nodup)
include hdistinct

theorem node_part (hpart : ∀ n∈part, n∈nodes)
    (hid : id∈part) (h : (new sort nodes k).node key=some id) : (new sort' part k).node key=some id := by
  obtain ⟨v,rfl,hfirst⟩:=node_first h
  have hv : v∈points part k := mem_points.mpr ⟨hid,(mem_points.mp hfirst.mem).2⟩
  have hfirst':=hfirst.part hv (points_subset hpart)
  obtain ⟨id',hid'⟩ : ∃ id', (new sort' part k).node key=some id' := node_some (List.ne_nil_of_mem hv)
  obtain ⟨w,rfl,hw⟩:=node_first hid'
  rw [hid',owner_unique hdistinct (points_subset hpart w hw.mem) hfirst.mem (hw.place_eq hfirst')]

theorem node_grown (hpart : ∀ n∈part, n∈nodes) (h : (new sort' part k).node key=some id) : ∃ id',
    (new sort nodes k).node key=some id' ∧ (id'=id ∨ id'∉part) := by
  obtain ⟨v,-,hfirst⟩:=node_first h
  have hv:=points_subset hpart v hfirst.mem
  obtain ⟨id',hid'⟩ : ∃ id', (new sort nodes k).node key=some id' := node_some (List.ne_nil_of_mem hv)
  refine ⟨id',hid',?_⟩
  by_cases hmem : id'∈part
  · left
    exact Option.some.inj ((node_part hdistinct hpart hmem hid').symm.trans h)
  · exact .inr hmem

theorem node_same (hpart : ∀ n, n∈part ↔ n∈nodes) : (new sort' part k).node key=(new sort nodes k).node key := by
  by_cases hempty : points nodes k=[]
  · have hempty' : points part k=[] := by
      refine List.eq_nil_iff_forall_not_mem.mpr fun v hv => ?_
      have hmem:=points_subset (fun n hn => (hpart n).mp hn) v hv
      rw [hempty] at hmem
      exact List.not_mem_nil hmem
    rw [node_none hempty,node_none hempty']
  · obtain ⟨id,hid⟩ : ∃ id, (new sort nodes k).node key=some id := node_some hempty
    have hmem : id∈part := (hpart id).mpr (node_mem hid)
    rw [hid,node_part hdistinct (fun n hn => (hpart n).mp hn) hmem hid]

end

end rings

/-- Where the virtual nodes of some nodes have different hashes, however they are sorted, the node
of a key depends on the set of nodes only. A key that these nodes give to one of a part has the
same node in the ring of that part, so a key of the part's ring stays or goes to a node outside. -/
theorem ring_consistent (nodes : List String) (k : ℕ) (hdistinct : ((points nodes k).map Prod.fst).Nodup)
    (sort sort' : SortByHash) (key : String) :
    (∀ again, (∀ n, n∈again ↔ n∈nodes) → (new sort' again k).node key=(new sort nodes k).node key) ∧ ∀ part,
    (∀ n∈part, n∈nodes) → (∀ id∈part, (new sort nodes k).node key=some id → (new sort' part k).node key=some id) ∧
    ∀ id, (new sort' part k).node key=some id → ∃ id', (new sort nodes k).node key=some id' ∧ (id'=id ∨ id'∉part) :=
  ⟨fun _ hsame => node_same hdistinct hsame,fun _ hpart =>
    ⟨fun _ hid => node_part hdistinct hpart hid,fun _ => node_grown hdistinct hpart⟩⟩

theorem ring_consistent_three :
    (new SortByHash.stable ["c","a","b"] 2).node "k" = (new SortByHash.stable ["a","b","c"] 2).node "k" :=
  (ring_consistent ["a","b","c"] 2 (by decide +kernel) SortByHash.stable SortByHash.stable "k").1 ["c","a","b"]
    (by simp; tauto)

end Parrot.Sharding
