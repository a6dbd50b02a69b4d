import Parrot.Raft.Append

/-! # The moves a handler is made of

Every public operation of `RaftNode` is a short sequence of moves. -/

namespace Parrot.Raft
open Machine

inductive Input where
  | clock
  | message (src : NodeId) (rpc : RaftRpc)
  | command (cmd : Bytes)

variable (n : RaftNode)

def Refusal (rpc : RaftRpc) : Prop :=
  rpc=.requestVoteResp n.currentTerm false ∨
  rpc=.appendEntriesResp n.currentTerm false n.lastLogIndex

def RaftNode.indexes : List ℕ :=
  n.peers.map (fun p => min ((n.matchIndex p).getD 0) n.lastLogIndex)++[n.lastLogIndex]

def RaftNode.crowned (now : ℕ) : RaftNode :=
  {n with
    role := .leader
    leaderHint := some n.id
    nextIndex := fun p => if p∈n.peers then some (n.log.length+1) else none
    matchIndex := fun p => if p∈n.peers then some 0 else none
    sentUpper := fun p => if p∈n.peers then some 0 else none
    lastHeartbeatMs := now}

def RaftNode.accepted (sender : NodeId) (prev : ℕ) (entries : List LogEntry)
    (leaderCommit : ℕ) : RaftNode :=
  let matched:=prev+entries.length
  let log:=if n.log.take matched=n.log.take prev++entries then n.log
    else n.log.take prev++entries
  let commit:=max n.commitIndex (min leaderCommit matched)
  {n with
    log := log
    commitIndex := commit
    lastApplied := commit
    pendingApply := n.pendingApply++(log.take commit).drop n.commitIndex
    outbox := n.outbox++[(sender,.appendEntriesResp n.currentTerm true matched)]}

def RaftNode.advanced (m : ℕ) : RaftNode :=
  {n with
    commitIndex := m
    pendingApply := n.pendingApply++(n.log.take m).drop n.commitIndex
    lastApplied := m}

inductive Move (inp : Input) : RaftNode → RaftNode → Prop where
  | timing (n : RaftNode) (now : ℕ) : Move inp n {n with lastHeartbeatMs:=now}
  | observe (n : RaftNode) (term : ℕ) (h : n.currentTerm<term)
      (hinp : ∃ src rpc, inp=.message src rpc ∧ rpc.term=term) : Move inp n (n.observeTerm term)
  | refuse (n : RaftNode) (dest : NodeId) (rpc : RaftRpc) (h : Refusal n rpc) :
      Move inp n (n.reply dest rpc)
  | grant (n : RaftNode) (c : NodeId) (li lt now : ℕ)
      (hinp : inp=.message c (.requestVote n.currentTerm c li lt)) (hpeer : c∈n.peers)
      (hlog : n.upToDate li lt=true) (hfree : n.votedFor=none ∨ n.votedFor=some c) :
      Move inp n (RaftNode.reply {n with votedFor:=some c,lastHeartbeatMs:=now} c
        (.requestVoteResp n.currentTerm true))
  | campaign (n : RaftNode) (clock : Clock) (hinp : inp=.clock) (hrole : n.role ≠ .leader)
      (hmax : n.currentTerm+1≤u64Max) : Move inp n (n.campaign clock)
  | collect (n : RaftNode) (v : NodeId)
      (hinp : inp=.message v (.requestVoteResp n.currentTerm true)) (hrole : n.role=.candidate)
      (hpeer : v∈n.peers) (hnew : v∉n.votesReceived) :
      Move inp n {n with votesReceived:=n.votesReceived++[v]}
  | crown (n : RaftNode) (now : ℕ) (hrole : n.role=.candidate)
      (hquorum : n.quorum≤n.votesReceived.length) : Move inp n (n.crowned now)
  | send (n : RaftNode) (su : NodeId → Option ℕ) (msgs : List (NodeId × RaftRpc))
      (hrole : n.role=.leader) (hmsg : ∀ m∈msgs, m.1∈n.peers ∧ AppendMsg n m.2) :
      Move inp n {n with sentUpper:=su,outbox:=n.outbox++msgs}
  | follow (n : RaftNode) (clock : Clock) (c : NodeId) (prev prevTerm : ℕ)
      (entries : List LogEntry) (commit : ℕ)
      (hinp : inp=.message c (.appendEntries n.currentTerm c prev prevTerm entries commit))
      (hpeer : c∈n.peers) : Move inp n (n.follow clock c)
  | accept (n : RaftNode) (c : NodeId) (prev prevTerm : ℕ) (entries : List LogEntry)
      (commit : ℕ) (plan : ℕ × ℕ)
      (hinp : inp=.message c (.appendEntries n.currentTerm c prev prevTerm entries commit))
      (hpeer : c∈n.peers) (hrole : n.role=.follower)
      (hpos : position prev prevTerm n.currentTerm=true)
      (hval : validateEntries n.currentTerm prev prevTerm entries=true)
      (hplan : n.appendPlan prev prevTerm entries=some plan)
      (hcap : 40*(n.accepted c prev entries commit).log.length ≤ isizeMax) :
      Move inp n (n.accepted c prev entries commit)
  | record (n : RaftNode) (v : NodeId) (m : ℕ)
      (hinp : inp=.message v (.appendEntriesResp n.currentTerm true m)) (hrole : n.role=.leader)
      (hpeer : v∈n.peers) (hm : m≤n.log.length) : Move inp n (n.recordMatch v m)
  | commit (n : RaftNode) (m : ℕ) (hrole : n.role=.leader) (hnew : n.commitIndex < m)
      (hlen : m≤n.log.length) (hterm : termAt n.log m=n.currentTerm)
      (hmaj : n.quorum≤(n.indexes.filter (m ≤ ·)).length) : Move inp n (n.advanced m)
  | retry (n : RaftNode) (v : NodeId) (k : ℕ) (hrole : n.role=.leader)
      (hle : k≤(n.nextIndex v).getD 1) :
      Move inp n {n with nextIndex:=Function.update n.nextIndex v (some k)}
  | append (n : RaftNode) (cmd : Bytes) (hinp : inp=.command cmd) (hrole : n.role=.leader)
      (hcap : 40*(n.log.length+1) ≤ isizeMax) :
      Move inp n {n with log:=n.log++[⟨n.currentTerm,n.log.length+1,cmd⟩]}

abbrev Moves (inp : Input) := Relation.ReflTransGen (Move inp)

end Parrot.Raft
