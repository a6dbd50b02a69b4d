import Mathlib.Algebra.BigOperators.Group.Finset.Basic
import Mathlib.Order.Lattice.Nat
import Parrot.Raft.Capacity

/-! # The size that a log is charged (`raft/storage.rs:338-368`, `raft/storage.rs:465-489`)

The snapshot that `check_log_capacity` counts names the local member before its peers, with the
largest term and commit index and a vote for the longest name. -/

namespace Parrot.Raft
open Machine

/-- A string of `n` bytes behind its length. -/
def textSize (n : ℕ) : ℕ := (Bincode.u64.encode n).length+n

def membersOf (s : Saved) : Finset NodeId := insert s.id s.peers.toFinset

def longestName (members : Finset NodeId) : ℕ := members.sup String.utf8ByteSize

def nameSizes (members : Finset NodeId) : ℕ := ∑ m∈members, textSize m.utf8ByteSize

/-- The header, the version, the cluster, the members, the term, the vote, the log and the
commit index. -/
def logSize (cluster : String) (members : Finset NodeId) (log : List LogEntry) : ℕ :=
  40+(1+textSize cluster.utf8ByteSize+((Bincode.u64.encode (members.card-1)).length+nameSizes members)+9+
    (1+textSize (longestName members))+(entryCodec.list.encode log).length+9)

def Fits (cluster : String) (members : Finset NodeId) (log : List LogEntry) : Prop :=
  log.length ≤ maxEntries ∧ logSize cluster members log ≤ maxSnapshot

structure Normal (s : Saved) : Prop where
  nodup : s.peers.Nodup
  other : s.id∉s.peers

variable {s : Saved}

theorem encodedText_length (t : String) : (Bincode.string.encode t).length=textSize t.utf8ByteSize :=
  Bincode.string_length t

theorem longestVoter_size (s : Saved) : (DurableRaft.longestVoter s).utf8ByteSize=longestName (membersOf s) := by
  have hbest:=longest_fold (P := fun p => p∈membersOf s) s.peers (Finset.mem_insert_self s.id _)
    fun p hp => Finset.mem_insert_of_mem (List.mem_toFinset.mpr hp)
  obtain ⟨hmem,hid,hpeers⟩:=hbest
  apply le_antisymm
  · exact Finset.le_sup (f := String.utf8ByteSize) hmem
  · apply Finset.sup_le
    intro m hm
    rcases Finset.mem_insert.mp hm with rfl | hm
    · exact hid
    · exact hpeers m (List.mem_toFinset.mp hm)

theorem Normal.card (h : Normal s) : (membersOf s).card-1=s.peers.length := by
  have hnew : s.id∉s.peers.toFinset := by simpa using h.other
  rw [membersOf,Finset.card_insert_of_notMem hnew,List.toFinset_card_of_nodup h.nodup]
  omega

theorem Normal.names (h : Normal s) : nameSizes (membersOf s) =
    textSize s.id.utf8ByteSize+(s.peers.flatMap Bincode.string.encode).length := by
  have hnew : s.id∉s.peers.toFinset := by simpa using h.other
  rw [nameSizes,membersOf,Finset.sum_insert hnew,List.sum_toFinset _ h.nodup,List.length_flatMap]
  simp only [encodedText_length]

theorem Normal.reserved_length (h : Normal s) (kept added : List LogEntry) :
    40+(savedCodec.encode (DurableRaft.reserved s kept added)).length =
      logSize s.cluster (membersOf s) (kept++added) := by
  have hvote : (Bincode.string.option.encode (some (DurableRaft.longestVoter s))).length =
      1+textSize (longestName (membersOf s)) := by
    rw [← longestVoter_size,← encodedText_length]
    simp only [Bincode.Codec.option,List.length_cons]
    omega
  have hpeers : (Bincode.string.list.encode s.peers).length =
      (Bincode.u64.encode s.peers.length).length+(s.peers.flatMap Bincode.string.encode).length := by
    simp only [Bincode.Codec.list,List.length_append]
  rw [saved_length]
  simp only [DurableRaft.reserved,logSize,max_length,hvote,hpeers,encodedText_length,h.card,h.names]
  omega

theorem checkLogCapacity_iff (h : DurableRaft) (hn : Normal h.saved) (kept added : List LogEntry) :
    DurableRaft.checkLogCapacity .bounded h kept added=true ↔
      Fits h.saved.cluster (membersOf h.saved) (kept++added) := by
  have hlen:=hn.reserved_length kept added
  have hroom : 40+(SnapshotCodec.bounded.encode (DurableRaft.reserved h.saved kept added)).length =
      logSize h.saved.cluster (membersOf h.saved) (kept++added) := hlen
  unfold DurableRaft.checkLogCapacity Fits
  rw [hroom,← List.length_append,Bool.and_eq_true,decide_eq_true_eq,decide_eq_true_eq]

theorem entries_mono {l l' : List LogEntry} (hl : l<+:l') (hlen : l'.length ≤ maxEntries) :
    (entryCodec.list.encode l).length≤(entryCodec.list.encode l').length := by
  obtain ⟨rest,rfl⟩:=hl
  rw [List.length_append] at hlen
  have hmax : maxEntries<256^8 := by decide
  have hcount:=Bincode.u64_mono (n := l.length) (m := (l++rest).length) (by simp) (by
    rw [List.length_append]
    omega)
  simp only [Bincode.Codec.list,List.length_append,List.flatMap_append] at hcount ⊢
  omega

theorem Fits.prefix {cluster : String} {members : Finset NodeId} {l l' : List LogEntry}
    (h : Fits cluster members l') (hl : l<+:l') : Fits cluster members l := by
  have hlen:=hl.length_le
  have hmono:=entries_mono hl h.1
  have hsize:=h.2
  refine ⟨hlen.trans h.1,?_⟩
  unfold logSize at hsize ⊢
  omega

end Parrot.Raft
