import Mathlib.Data.Finset.Card
import Parrot.Lib.ReplicatedLogSafety
import Parrot.Raft.Robust

/-! # Nodes of a cluster and the abstract protocol

A cluster of nodes with one member set is followed by a state of the abstract protocol. -/

namespace Parrot.Raft
open ReplicatedLog

def Majority (members Q : Finset NodeId) : Prop := Q⊆members ∧ members.card/2+1≤Q.card

theorem majority_inter (members P Q : Finset NodeId) (hP : Majority members P)
    (hQ : Majority members Q) : ∃ i∈P, i∈Q := by
  by_contra h
  push Not at h
  have hdisj : Disjoint P Q := Finset.disjoint_left.mpr h
  have hcard:=Finset.card_union_of_disjoint hdisj
  have hle:=Finset.card_le_card (Finset.union_subset hP.1 hQ.1)
  have h1:=hP.2
  have h2:=hQ.2
  omega

/- The ghost state that follows a cluster. -/
abbrev Ghost := State NodeId LogEntry
abbrev Sound (members : Finset NodeId) (a : Ghost) := Coherent LogEntry.term (Majority members) a
abbrev Fixed (members : Finset NodeId) (a : Ghost) (T : ℕ) (l : List LogEntry) :=
  Decided LogEntry.term (Majority members) a T l
abbrev Acts (members : Finset NodeId) (i : NodeId) :=
  Relation.ReflTransGen (ReplicatedLog.Step LogEntry.term (Majority members) i)

section cluster
variable (members : Finset NodeId)

def MsgOk (a : Ghost) (src dst : NodeId) : RaftRpc → Prop
  | .requestVote term candidate lastLogIndex lastLogTerm => candidate=src ∧
    ∃ l, a.cand src term=some l ∧ lastLogIndex=l.length ∧ lastLogTerm=lastTerm LogEntry.term l
  | .requestVoteResp term granted => granted=true → a.voted src term=some dst
  | .appendEntries term leader prev prevTerm entries commit => leader=src ∧
    a.leader term=some src ∧ prev+entries.length≤(a.lead term).length ∧
    entries=((a.lead term).drop prev).take entries.length ∧
    prevTerm=termAt (a.lead term) prev ∧ commit≤(a.lead term).length ∧
    Fixed members a term ((a.lead term).take commit)
  | .appendEntriesResp term success matched => success=true → matched≤a.acked src term

structure NodeOk (a : Ghost) (i : NodeId) (n : RaftNode) : Prop where
  wf : WellFormed n
  published : ∃ handed, Published handed n
  id : n.id=i
  member : i∈members
  peers : ∀ x, x∈n.peers ↔ x∈members ∧ x≠i
  nodup : n.peers.Nodup
  term : a.term i=n.currentTerm
  log : a.log i=n.log
  vote : a.voted i n.currentTerm=n.votedFor
  campaigning : n.role=.candidate → a.cand i n.currentTerm=some n.log ∧
    a.leader n.currentTerm≠some i ∧ n.votesReceived.Nodup ∧
    ∀ v∈n.votesReceived, v∈members ∧ a.voted v n.currentTerm=some i
  leading : n.role=.leader → a.leader n.currentTerm=some i ∧ a.lead n.currentTerm=n.log ∧
    ∀ p m, n.matchIndex p=some m → m≤a.acked p n.currentTerm
  committed : Fixed members a n.currentTerm (n.log.take n.commitIndex)
  outbox : ∀ m∈n.outbox, MsgOk members a i m.1 m.2

def InputOk (a : Ghost) (i : NodeId) (inp : Input) : Prop :=
  ∀ src rpc, inp=.message src rpc → MsgOk members a src i rpc

variable {members} {a a' : Ghost} {i j : NodeId} {n n' : RaftNode}
  {inp : Input}

theorem termAt_mono {l l' : List LogEntry} (h : l<+:l') {k : ℕ} (hk : k≤l.length) : termAt l' k=termAt l k := by
  obtain ⟨r,rfl⟩:=h
  unfold termAt
  split
  · rfl
  · rw [List.getElem?_append_left (by omega)]

theorem MsgOk.mono (hg : Grows a a') {src dst : NodeId} {rpc : RaftRpc}
    (h : MsgOk members a src dst rpc) : MsgOk members a' src dst rpc := by
  cases rpc with
  | requestVote term candidate lastLogIndex lastLogTerm =>
    obtain ⟨hc,l,hl,h1,h2⟩:=h
    exact ⟨hc,l,hg.cand _ _ _ hl,h1,h2⟩
  | requestVoteResp term granted => exact fun hgr => hg.voted _ _ _ (h hgr)
  | appendEntries term leader prev prevTerm entries commit =>
    obtain ⟨hc,hl,hlen,hent,hprev,hcom,hfix⟩:=h
    have hp:=hg.lead term
    have hlen':=hp.length_le
    refine ⟨hc,hg.leader _ _ hl,hlen.trans hlen',?_,?_,hcom.trans hlen',?_⟩
    · obtain ⟨r,hr⟩:=hp
      rw [← hr,List.drop_append_of_le_length (by omega),
        List.take_append_of_le_length (by rw [List.length_drop]; omega)]
      exact hent
    · rw [termAt_mono hp (by omega)]
      exact hprev
    · rw [hg.take_lead hcom]
      exact hfix.mono hg (le_rfl)
  | appendEntriesResp term success matched => exact fun hs => (h hs).trans (hg.acked_le _ _)

theorem InputOk.mono (hg : Grows a a') (h : InputOk members a i inp) : InputOk members a' i inp :=
  fun src rpc hsrc => (h src rpc hsrc).mono hg

theorem NodeOk.frame (hl : Local i a a') (hij : j≠i) (h : NodeOk members a j n) : NodeOk members a' j n := by
  refine {h with
    term := (hl.term j hij).trans h.term
    log := (hl.log j hij).trans h.log
    vote := by rw [hl.voted j hij]; exact h.vote
    campaigning := ?_
    leading := ?_
    committed := h.committed.mono hl.grows (le_rfl)
    outbox := fun m hm => (h.outbox m hm).mono hl.grows}
  · intro hrole
    obtain ⟨hc,hne,hnd,hv⟩:=h.campaigning hrole
    refine ⟨hl.grows.cand _ _ _ hc,?_,hnd,fun v hvm => ⟨(hv v hvm).1,hl.grows.voted _ _ _ (hv v hvm).2⟩⟩
    rcases hl.leader n.currentTerm with h1 | h1
    · rwa [h1]
    · rw [h1]
      intro heq
      exact hij (Option.some.inj heq).symm
  · intro hrole
    obtain ⟨hlead,hlog,hm⟩:=h.leading hrole
    refine ⟨hl.grows.leader _ _ hlead,?_,fun p m hp => (hm p m hp).trans (hl.grows.acked_le _ _)⟩
    rw [hl.lead _ (by simp [hlead]) (by rw [hlead]; intro heq; exact hij (Option.some.inj heq)),hlog]

end cluster
end Parrot.Raft
