import Parrot.Raft.Simulated
import Parrot.Raft.Storage

/-! # A cluster of durable hosts

The hosts share a cluster name and a member set and nothing else. -/

namespace Parrot.Raft
open Machine CrashFs ReplicatedLog

structure Slot where
  disk : Disk RaftFile
  host : Option DurableRaft

structure Cluster where
  slot : NodeId → Slot
  sent : List (NodeId × NodeId × RaftRpc)
  handed : List (NodeId × LogEntry)

namespace Cluster

def start : Cluster := ⟨fun _ => ⟨Disk.empty,none⟩,[],[]⟩

def set (c : Cluster) (i : NodeId) (s : Slot) : Cluster := {c with slot:=Function.update c.slot i s}

end Cluster

def Slot.after {α : Type} (s : Slot) : Except Panic (Outcome α) → Slot
  | .error _ => {s with host:=none}
  | .ok o => ⟨o.disk,some o.host⟩

def Slot.opened : Disk RaftFile × Except RaftStorageError DurableRaft → Slot
  | (d,.error _) => ⟨d,none⟩
  | (d,.ok h) => ⟨d,some h⟩

section cluster
variable (codec : SnapshotCodec) (name : String) (members : Finset NodeId)

inductive Step : Cluster → Cluster → Prop where
  | opened (c : Cluster) (i : NodeId) (clock : Clock) (peers : List NodeId)
      (validateCommand : Bytes → Except String Unit) (budget : ℕ) (hi : i∈members)
      (hpeers : ∀ x, x≠i → (x∈peers ↔ x∈members)) (hdown : (c.slot i).host=none) :
      Step c (c.set i (.opened (DurableRaft.openValidated codec clock name i peers validateCommand
        budget (c.slot i).disk)))
  | tick (c : Cluster) (i : NodeId) (h : DurableRaft) (clock : Clock) (budget : ℕ)
      (hhost : (c.slot i).host=some h) :
      Step c (c.set i ((c.slot i).after (h.tick codec clock budget (c.slot i).disk)))
  | propose (c : Cluster) (i : NodeId) (h : DurableRaft) (cmd : Bytes) (budget : ℕ)
      (hhost : (c.slot i).host=some h) :
      Step c (c.set i ((c.slot i).after (h.propose codec cmd budget (c.slot i).disk)))
  | step (c : Cluster) (i : NodeId) (h : DurableRaft) (clock : Clock) (src : NodeId) (rpc : RaftRpc)
      (budget : ℕ) (hhost : (c.slot i).host=some h) (hsent : (src,i,rpc)∈c.sent) :
      Step c (c.set i ((c.slot i).after (h.step codec clock src rpc budget (c.slot i).disk)))
  | outbox (c : Cluster) (i : NodeId) (h : DurableRaft) (msgs : List (NodeId × RaftRpc))
      (hhost : (c.slot i).host=some h) (hout : h.outbox.1=.ok msgs) :
      Step c {c.set i {c.slot i with host:=some h.outbox.2} with
        sent := c.sent++msgs.map fun m => (i,m.1,m.2)}
  | committed (c : Cluster) (i : NodeId) (h : DurableRaft) (entries : List LogEntry)
      (hhost : (c.slot i).host=some h) (hout : h.committed.1=.ok entries) :
      Step c {c.set i {c.slot i with host:=some h.committed.2} with
        handed := c.handed++entries.map fun e => (i,e)}
  | exit (c : Cluster) (i : NodeId) : Step c (c.set i {c.slot i with host:=none})
  | crash (c : Cluster) (i : NodeId) (kept : ℕ) (cut : ℕ → ℕ) :
      Step c (c.set i ⟨(c.slot i).disk.crash kept cut,none⟩)

abbrev Run := Relation.ReflTransGen (Step codec name members)

/-- A content of `raft.state` from which node `i` may come back: nothing if it never
acted, or the snapshot of a state it can still be moved to. The node's commit index
never falls below `low`. -/
def Recoverable (a : Ghost) (low : ℕ) (i : NodeId) (o : Option Bytes) : Prop :=
  (o=none ∧ low=0 ∧ a.term i=0 ∧ a.log i=[] ∧ a.voted i 0=none) ∨
  ∃ n inp n', NodeOk members a i n ∧ low≤n.commitIndex ∧ InputOk members a i inp ∧
    Moves inp n n' ∧ o=some (image codec (snapshot n' name))

structure HostOk (a : Ghost) (low : ℕ) (i : NodeId) (d : Disk RaftFile) (h : DurableRaft) : Prop where
  saved : ∃ n, NodeOk members a i n ∧ h.saved=snapshot n name
  low_le : low≤h.saved.commit
  live : h.failed=false → NodeOk members a i h.node ∧ h.saved=snapshot h.node name ∧
    d.Settled .state (· = some (image codec h.saved))

structure SlotOk (a : Ghost) (low : ℕ) (i : NodeId) (s : Slot) : Prop where
  bounded : s.disk.Bounded
  settled : s.disk.Settled .state (Recoverable codec name members a low i)
  host : ∀ h, s.host=some h → HostOk codec name members a low i s.disk h

structure Inv (a : Ghost) (low : NodeId → ℕ) (c : Cluster) : Prop where
  sound : Sound members a
  slots : ∀ i∈members, SlotOk codec name members a (low i) i (c.slot i)
  others : ∀ i, i∉members → (c.slot i).host=none
  sent : ∀ m∈c.sent, MsgOk members a m.1 m.2.1 m.2.2
  handed : ∀ x∈c.handed, 0<x.2.index ∧ ∃ T l, Fixed members a T l ∧ l[x.2.index-1]? = some x.2

variable {codec name members} {a a' : Ghost} {low : ℕ} {i j : NodeId} {c c' : Cluster}

theorem Recoverable.frame (hl : Local i a a') (hij : j≠i) {o : Option Bytes}
    (h : Recoverable codec name members a low j o) : Recoverable codec name members a' low j o := by
  rcases h with ⟨ho,hlow,h1,h2,h3⟩ | ⟨n,inp,n',hn,hlow,hin,hm,ho⟩
  · left
    rw [hl.term j hij,hl.log j hij,hl.voted j hij]
    exact ⟨ho,hlow,h1,h2,h3⟩
  · exact .inr ⟨n,inp,n',hn.frame hl hij,hlow,hin.mono hl.grows,hm,ho⟩

theorem SlotOk.frame (hl : Local i a a') (hij : j≠i) {s : Slot}
    (h : SlotOk codec name members a low j s) : SlotOk codec name members a' low j s := by
  refine ⟨h.bounded,h.settled.imp fun o ho => ho.frame hl hij,?_⟩
  intro x hx
  obtain ⟨⟨n,hn,hsaved⟩,hlow,hlive⟩:=h.host x hx
  refine ⟨⟨n,hn.frame hl hij,hsaved⟩,hlow,?_⟩
  intro hf
  obtain ⟨h1,h2,h3⟩:=hlive hf
  exact ⟨h1.frame hl hij,h2,h3⟩

theorem recoverable_saved {n : RaftNode} (hn : NodeOk members a i n) (hlow : low≤n.commitIndex) :
    Recoverable codec name members a low i (some (image codec (snapshot n name))) :=
  .inr ⟨n,.clock,n,hn,hlow,nofun,.refl,rfl⟩

theorem NodeOk.live (codec : SnapshotCodec) (name : String) {n : RaftNode}
    (hn : NodeOk members a i n) (hlow : low≤n.commitIndex) {d : Disk RaftFile} (hb : d.Bounded)
    (hd : d.Settled .state (· = some (image codec (snapshot n name)))) :
    SlotOk codec name members a low i ⟨d,some ⟨n,snapshot n name,false⟩⟩ := by
  refine ⟨hb,hd.imp fun o ho => ho ▸ recoverable_saved hn hlow,?_⟩
  intro h hh
  cases hh
  exact ⟨⟨n,hn,rfl⟩,hlow,fun _ => ⟨hn,rfl,hd⟩⟩

theorem load_image {s s' : Saved} (h : load codec (image codec s)=.ok s') : s'=s := by
  have hdrop : (image codec s).drop 40=codec.encode s := by
    have hlen : (magic++codec.digest (codec.encode s)).length=40 := by
      rw [List.length_append,codec.digest_length]
      rfl
    simp only [image,chunks,List.flatten_cons,List.flatten_nil,List.append_nil]
    rw [← List.append_assoc,List.drop_append_of_le_length hlen.ge,List.drop_of_length_le hlen.le,List.nil_append]
  unfold load at h
  split at h
  · contradiction
  · rw [hdrop] at h
    split at h
    · contradiction
    · rename_i x hx
      rw [← Except.ok.inj h]
      exact codec.decode_encode s x hx

theorem accept_image {node : RaftNode} {validateCommand : Bytes → Except String Unit} {s s' : Saved}
    (h : accept codec name node validateCommand (image codec s)=.ok s') : s'=s ∧ s.peers=node.peers := by
  unfold accept at h
  cases hl : load codec (image codec s) with
  | error e =>
    rw [hl] at h
    contradiction
  | ok x =>
    have hx:=load_image hl
    rw [hl] at h
    simp only [bind,Except.bind] at h
    split at h
    · contradiction
    · rename_i hcond
      push Not at hcond
      rw [hx] at h hcond
      split at h
      · contradiction
      · split at h
        · contradiction
        · exact ⟨(Except.ok.inj h).symm,hcond.2.2.2⟩

theorem move_identity {inp : Input} {n n' : RaftNode} (hm : Move inp n n') : n'.id=n.id ∧ n'.peers=n.peers := by
  cases hm with
  | observe term hlt =>
    rw [observeTerm_of_lt hlt]
    exact ⟨rfl,rfl⟩
  | _ => exact ⟨rfl,rfl⟩

theorem moves_identity {inp : Input} {n n' : RaftNode} (hm : Moves inp n n') : n'.id=n.id ∧ n'.peers=n.peers := by
  induction hm with
  | refl => exact ⟨rfl,rfl⟩
  | tail _ hstep ih =>
    obtain ⟨h1,h2⟩:=move_identity hstep
    exact ⟨h1.trans ih.1,h2.trans ih.2⟩

theorem normalizePeers_eq (id : NodeId) (peers : List NodeId) : normalizePeers id peers =
    ((peers.filter fun peer => peer≠id).mergeSort fun a b => decide (a≤b)).dedup := by
  have hsorted : ((peers.filter fun peer => peer≠id).mergeSort
      fun a b => decide (a≤b)).Pairwise (·≤·) := by
    refine (List.pairwise_mergeSort ?_ ?_ _).imp (fun h => of_decide_eq_true h)
    · intro a b c hab hbc
      exact decide_eq_true (String.le_trans (of_decide_eq_true hab) (of_decide_eq_true hbc))
    · intro a b
      rcases String.le_total a b with h | h <;> simp [h]
  exact hsorted.destutter_eq_dedup

theorem mem_normalizePeers {id x : NodeId} {peers : List NodeId} : x∈normalizePeers id peers ↔ x∈peers ∧ x≠id := by
  rw [normalizePeers_eq,List.mem_dedup,List.mem_mergeSort,List.mem_filter]
  simp

theorem nodup_normalizePeers (id : NodeId) (peers : List NodeId) : (normalizePeers id peers).Nodup := by
  rw [normalizePeers_eq]
  exact List.nodup_dedup _

end cluster
end Parrot.Raft
