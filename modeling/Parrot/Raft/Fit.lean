import Parrot.Raft.Robust
import Parrot.Raft.Storage

/-! # What a node holds and sends, whatever it is given

`Fit` adds to the local invariants what the storage and the wire rely on: 64-bit terms, a vote
for a member, bounded commands, and messages that any receiver accepts. -/

namespace Parrot.Raft
open Machine

def RaftRpc.InRange : RaftRpc → Prop
  | .requestVote term _ lastLogIndex lastLogTerm =>
    term≤u64Max ∧ lastLogIndex≤u64Max ∧ lastLogTerm≤u64Max
  | .requestVoteResp term _ => term≤u64Max
  | .appendEntries term _ prevLogIndex prevLogTerm entries leaderCommit =>
    term≤u64Max ∧ prevLogIndex≤u64Max ∧ prevLogTerm≤u64Max ∧ leaderCommit≤u64Max ∧
      ∀ e∈entries, e.term≤u64Max ∧ e.index≤u64Max
  | .appendEntriesResp term _ matchIndex => term≤u64Max ∧ matchIndex≤u64Max

def RaftRpc.entries : RaftRpc → List LogEntry
  | .appendEntries _ _ _ _ entries _ => entries
  | _ => []

def RaftRpc.claimed : RaftRpc → Option NodeId
  | .requestVote _ candidate _ _ => some candidate
  | .appendEntries _ leader _ _ _ _ => some leader
  | _ => none

theorem RaftRpc.InRange.term_le {rpc : RaftRpc} (h : rpc.InRange) : rpc.term≤u64Max := by
  cases rpc with
  | requestVote | appendEntries | appendEntriesResp => exact h.1
  | requestVoteResp term granted => exact h

def batchBytes (entries : List LogEntry) : ℕ := (entries.map fun e => e.cmd.length+32).sum

structure Sendable (good : Bytes → Prop) (id : NodeId) (rpc : RaftRpc) : Prop where
  shape : rpc.validateShape=.ok ()
  range : rpc.InRange
  claimed : ∀ c, rpc.claimed=some c → c=id
  few : rpc.entries.length≤1024
  small : batchBytes rpc.entries≤3*1024*1024
  commands : ∀ e∈rpc.entries, e.cmd.length ≤ maxCommand ∧ good e.cmd

def InputFit (good : Bytes → Prop) : Input → Prop
  | .clock => True
  | .message _ rpc => rpc.InRange ∧ rpc.validateShape=.ok () ∧
    ∀ e∈rpc.entries, e.cmd.length ≤ maxCommand ∧ good e.cmd
  | .command cmd => cmd.length ≤ maxCommand ∧ good cmd

structure Fit (good : Bytes → Prop) (n : RaftNode) : Prop where
  wf : WellFormed n
  term_le : n.currentTerm≤u64Max
  voted : ∀ v, n.votedFor=some v → 0<n.currentTerm ∧ (v=n.id ∨ v∈n.peers)
  commands : ∀ e∈n.log, e.cmd.length ≤ maxCommand ∧ good e.cmd
  outbox : ∀ m∈n.outbox, Sendable good n.id m.2

variable {good : Bytes → Prop} {n n' : RaftNode} {inp : Input}

theorem fit_new (good : Bytes → Prop) (clock : Clock) (id : NodeId) (peers : List NodeId) :
    Fit good (RaftNode.new clock id peers) where
  wf := wellFormed_new clock id peers
  term_le := Nat.zero_le _
  voted := nofun
  commands := nofun
  outbox := nofun

variable {entries : List LogEntry}

theorem validateEntries_intro {term : ℕ} {index previousTerm : ℕ} (hidx : ∀ k e, entries[k]? = some e →
    e.index=index+k+1 ∧ e.index≤u64Max) (hterm : ∀ e∈entries, 0<e.term ∧ e.term≤term ∧ previousTerm≤e.term)
    (hord : entries.Pairwise fun a b => a.term≤b.term) : validateEntries term index previousTerm entries=true := by
  induction entries generalizing index previousTerm with
  | nil => rfl
  | cons x xs ih =>
    obtain ⟨hx,hmax⟩:=hidx 0 x rfl
    obtain ⟨hpos,hle,hprev⟩:=hterm x List.mem_cons_self
    obtain ⟨hfirst,hrest⟩:=List.pairwise_cons.mp hord
    have hnext : checkedAdd index 1=some x.index := checkedAdd_eq_some.mpr ⟨by omega,by omega⟩
    have htail : validateEntries term x.index x.term xs=true := by
      refine ih ?_ ?_ hrest
      · intro k e he
        obtain ⟨h1,h2⟩:=hidx (k+1) e (by simpa using he)
        exact ⟨by omega,h2⟩
      · intro e he
        obtain ⟨h1,h2,-⟩:=hterm e (List.mem_cons_of_mem x he)
        exact ⟨h1,h2,hfirst e he⟩
    rw [validateEntries,if_neg]
    · exact htail
    · push Not
      exact ⟨hnext,by omega,hle,hprev⟩

theorem batchCount_bytes {bytes : ℕ} {l : List LogEntry} (hbytes : bytes≤3*1024*1024)
    (h : ∀ e∈l, e.cmd.length ≤ maxCommand) : bytes+batchBytes (l.take (RaftNode.batchCount bytes l))≤3*1024*1024 := by
  induction l generalizing bytes with
  | nil =>
    simp only [batchBytes,List.take_nil,List.map_nil,List.sum_nil]
    omega
  | cons e l ih =>
    have he:=h e List.mem_cons_self
    unfold maxCommand at he
    have hnext : saturatingAdd (saturatingAdd bytes e.cmd.length) 32=bytes+e.cmd.length+32 := by
      unfold saturatingAdd u64Max
      omega
    simp only [RaftNode.batchCount,hnext]
    split
    · simp only [batchBytes,List.take_zero,List.map_nil,List.sum_nil]
      omega
    · rename_i hmore
      push Not at hmore
      have hsmall : bytes+e.cmd.length+32≤3*1024*1024 := by
        by_cases h0 : bytes=0
        · omega
        · exact hmore h0
      have:=ih hsmall fun x hx => h x (List.mem_cons_of_mem e hx)
      simp only [List.take_succ_cons,batchBytes,List.map_cons,List.sum_cons] at this ⊢
      omega

theorem termAt_le_of_mem (h : WellFormed n) (prev : ℕ) {e : LogEntry} (he : e∈n.log.drop prev) :
    termAt n.log prev≤e.term := by
  obtain ⟨k,hk⟩:=List.getElem?_of_mem he
  rw [List.getElem?_drop] at hk
  obtain ⟨hlt,hek⟩:=List.getElem?_eq_some_iff.mp hk
  unfold termAt
  split
  · exact Nat.zero_le _
  · have hprev : prev-1<n.log.length := by omega
    have hle:=List.pairwise_iff_getElem.mp h.ordered (prev-1) (prev+k) hprev hlt (by omega)
    rw [List.getElem?_eq_getElem hprev]
    simp only [Option.map_some,Option.getD_some]
    rwa [hek] at hle

theorem termAt_position (h : WellFormed n) {prev : ℕ} (hprev : prev≤n.log.length) :
    position prev (termAt n.log prev) n.currentTerm=true := by
  unfold termAt
  split
  · rename_i h0
    subst h0
    simp [position]
  · rename_i h0
    have hlt : prev-1<n.log.length := by omega
    have hmem:=List.getElem_mem hlt
    rw [List.getElem?_eq_getElem hlt]
    simp only [Option.map_some,Option.getD_some,position]
    have hpos:=h.positive _ hmem
    have hle:=h.bounded _ hmem
    simp only [h0,decide_false,show (n.log[prev-1].term=0)=False by simp; omega,hle]
    rfl

theorem lastLog_position (h : WellFormed n) : position n.lastLogIndex n.lastLogTerm n.currentTerm=true := by
  have hp:=termAt_position h (Nat.le_refl n.log.length)
  have hlast : n.lastLogTerm=termAt n.log n.log.length := by
    unfold RaftNode.lastLogTerm termAt
    rw [List.getLast?_eq_getElem?]
    split
    · rename_i h0
      rw [List.getElem?_eq_none (by omega)]
      rfl
    · rfl
  rw [hlast]
  exact hp

theorem slice_shape (h : Fit good n) (hactive : 0<n.currentTerm) {prev commit : ℕ}
    (hlen : prev+entries.length≤n.log.length) (hentries : entries=(n.log.drop prev).take entries.length)
    (hcommit : commit≤n.log.length) :
    (RaftRpc.appendEntries n.currentTerm n.id prev (termAt n.log prev) entries commit).validateShape=.ok () ∧
    (RaftRpc.appendEntries n.currentTerm n.id prev (termAt n.log prev) entries commit).InRange := by
  have hmax:=h.wf.length_lt
  have hterm:=h.term_le
  have hmem : ∀ e∈entries, e∈n.log.drop prev := by
    intro e he
    rw [hentries] at he
    exact List.mem_of_mem_take he
  have hlog : ∀ e∈entries, e∈n.log := fun e he => List.mem_of_mem_drop (hmem e he)
  have hget : ∀ k e, entries[k]? = some e → n.log[prev+k]? = some e := by
    intro k e he
    have hk:=(List.getElem?_eq_some_iff.mp he).1
    rw [hentries,List.getElem?_take_of_lt hk,List.getElem?_drop] at he
    exact he
  have hidx : ∀ k e, entries[k]? = some e → e.index=prev+k+1 ∧ e.index≤u64Max := by
    intro k e he
    have h1:=h.wf.indexed _ _ (hget k e he)
    have h2:=(List.getElem?_eq_some_iff.mp (hget k e he)).1
    exact ⟨h1,by omega⟩
  have hval : validateEntries n.currentTerm prev (termAt n.log prev) entries=true := by
    refine validateEntries_intro hidx ?_ ?_
    · intro e he
      exact ⟨h.wf.positive e (hlog e he),h.wf.bounded e (hlog e he),termAt_le_of_mem h.wf prev (hmem e he)⟩
    · rw [hentries]
      exact h.wf.ordered.sublist ((List.take_sublist _ _).trans (List.drop_sublist _ _))
  have hpos:=termAt_position h.wf (show prev≤n.log.length by omega)
  constructor
  · simp only [RaftRpc.validateShape,hpos,hval]
    rw [if_neg (by simp; omega)]
    rfl
  · refine ⟨hterm,by omega,?_,by omega,?_⟩
    · simp only [position,Bool.and_eq_true,decide_eq_true_eq] at hpos
      omega
    · intro e he
      obtain ⟨k,hk⟩:=List.getElem?_of_mem he
      exact ⟨(h.wf.bounded e (hlog e he)).trans hterm,(hidx k e hk).2⟩

theorem AppendMsg.sendable (h : Fit good n) (hactive : 0<n.currentTerm) {rpc : RaftRpc}
    (hmsg : AppendMsg n rpc) : Sendable good n.id rpc := by
  obtain ⟨prev,entries,hlen,hentries,hcount,rfl⟩:=hmsg
  obtain ⟨hshape,hrange⟩:=slice_shape h hactive hlen hentries h.wf.commit_le
  have htake : entries=((n.log.drop prev).take 1024).take
      (RaftNode.batchCount 0 ((n.log.drop prev).take 1024)) := by
    have hle:=batchCount_le 0 ((n.log.drop prev).take 1024)
    rw [List.length_take] at hle
    rw [List.take_take,Nat.min_eq_left (by omega),← hcount]
    exact hentries
  refine ⟨hshape,hrange,?_,?_,?_,?_⟩
  · intro c hc
    exact (Option.some.inj hc).symm
  · have hle:=batchCount_le 0 ((n.log.drop prev).take 1024)
    rw [List.length_take] at hle
    change entries.length≤1024
    omega
  · have hbytes:=@batchCount_bytes 0 ((n.log.drop prev).take 1024) (Nat.zero_le _)
      fun e he => (h.commands e (List.mem_of_mem_drop (List.mem_of_mem_take he))).1
    rw [← htake] at hbytes
    change batchBytes entries≤_
    omega
  · intro e he
    change e∈entries at he
    rw [hentries] at he
    exact h.commands e (List.mem_of_mem_drop (List.mem_of_mem_take he))

theorem vote_sendable (h : Fit good n) (hmax : n.currentTerm+1≤u64Max) :
    Sendable good n.id (.requestVote (n.currentTerm+1) n.id n.lastLogIndex n.lastLogTerm) := by
  have hpos:=lastLog_position h.wf
  have hlen:=h.wf.length_lt
  have hterm : n.lastLogTerm≤n.currentTerm := by
    simp only [position,Bool.and_eq_true,decide_eq_true_eq] at hpos
    exact hpos.2
  have hnext : position n.lastLogIndex n.lastLogTerm (n.currentTerm+1)=true := by
    simp only [position,Bool.and_eq_true,decide_eq_true_eq] at hpos ⊢
    exact ⟨hpos.1,by omega⟩
  have hlast : n.lastLogIndex≤u64Max := Nat.le_of_succ_le hlen
  refine ⟨?_,⟨hmax,hlast,by omega⟩,?_,Nat.zero_le _,Nat.zero_le _,nofun⟩
  · simp only [RaftRpc.validateShape,hnext]
    rw [if_neg (by simp)]
  · intro c hc
    exact (Option.some.inj hc).symm

theorem voteResp_sendable {term : ℕ} (id : NodeId) (h : term≤u64Max) (granted : Bool) :
    Sendable good id (.requestVoteResp term granted) :=
  ⟨rfl,h,nofun,Nat.zero_le _,Nat.zero_le _,nofun⟩

theorem appendResp_sendable {term m : ℕ} (id : NodeId) (h : term≤u64Max) (hm : m≤u64Max)
    (success : Bool) : Sendable good id (.appendEntriesResp term success m) :=
  ⟨rfl,⟨h,hm⟩,nofun,Nat.zero_le _,Nat.zero_le _,nofun⟩

theorem outbox_append {out msgs : List (NodeId × RaftRpc)} {id : NodeId} (h : ∀ m∈out, Sendable good id m.2)
    (hmsgs : ∀ m∈msgs, Sendable good id m.2) : ∀ m∈out++msgs, Sendable good id m.2 := by
  intro m hm
  rcases List.mem_append.mp hm with hm | hm
  · exact h m hm
  · exact hmsgs m hm

theorem outbox_reply {out : List (NodeId × RaftRpc)} {id : NodeId} {x : NodeId × RaftRpc}
    (h : ∀ m∈out, Sendable good id m.2) (hx : Sendable good id x.2) : ∀ m∈out++[x], Sendable good id m.2 := by
  refine outbox_append h ?_
  intro m hm
  rw [List.mem_singleton.mp hm]
  exact hx

theorem Refusal.sendable (h : Fit good n) {rpc : RaftRpc} (hr : Refusal n rpc) : Sendable good n.id rpc := by
  have hlen : n.lastLogIndex≤u64Max := Nat.le_of_succ_le h.wf.length_lt
  rcases hr with rfl | rfl
  · exact voteResp_sendable n.id h.term_le false
  · exact appendResp_sendable n.id h.term_le hlen false

theorem accepted_fit (h : Fit good n) {c : NodeId} {prev prevTerm : ℕ}
    {commit : ℕ} {plan : ℕ × ℕ} (hrole : n.role=.follower)
    (hval : validateEntries n.currentTerm prev prevTerm entries=true)
    (hplan : n.appendPlan prev prevTerm entries=some plan)
    (hcap : 40*(n.accepted c prev entries commit).log.length ≤ isizeMax)
    (hcmds : ∀ e∈entries, e.cmd.length ≤ maxCommand ∧ good e.cmd) :
    Fit good (n.accepted c prev entries commit) where
  wf := accepted_wellFormed h.wf hrole hval hplan hcap
  term_le := h.term_le
  voted := h.voted
  commands := fun e he => (accepted_mem he).elim (h.commands e) (hcmds e)
  outbox := by
    have hm:=matched_le c commit hval hplan
    have hmax:=(accepted_wellFormed h.wf hrole hval hplan hcap).length_lt
    exact outbox_reply h.outbox (appendResp_sendable n.id h.term_le (by omega) true)

theorem move_fit (hm : Move inp n n') (hin : InputFit good inp) (h : Fit good n) : Fit good n' := by
  have hwf:=move_wellFormed hm h.wf
  cases hm with
  | timing | collect | crown | follow | record | commit | retry => exact ⟨hwf,h.term_le,h.voted,h.commands,h.outbox⟩
  | observe term hlt hinp =>
    obtain ⟨src,rpc,rfl,rfl⟩:=hinp
    rw [observeTerm_of_lt hlt] at hwf ⊢
    exact ⟨hwf,hin.1.term_le,nofun,h.commands,nofun⟩
  | refuse dest rpc hr =>
    exact ⟨hwf,h.term_le,h.voted,h.commands,outbox_reply h.outbox (hr.sendable h)⟩
  | grant c li lt now hinp hpeer hlog hfree =>
    subst hinp
    have hpos : 0<n.currentTerm := by
      have hshape:=hin.2.1
      simp only [RaftRpc.validateShape] at hshape
      split at hshape
      · contradiction
      · rename_i hcond
        push Not at hcond
        exact Nat.pos_of_ne_zero hcond.1
    refine ⟨hwf,h.term_le,?_,h.commands,outbox_reply h.outbox (voteResp_sendable n.id h.term_le true)⟩
    intro v hv
    cases hv
    exact ⟨hpos,.inr hpeer⟩
  | campaign clock hinp hrole hmax =>
    refine ⟨hwf,hmax,?_,h.commands,outbox_append h.outbox ?_⟩
    · intro v hv
      cases hv
      exact ⟨Nat.succ_pos _,.inl rfl⟩
    · intro m hmem
      obtain ⟨p,-,rfl⟩:=List.mem_map.mp hmem
      exact vote_sendable h hmax
  | send su msgs hrole hmsg =>
    have hactive:=h.wf.active (by rw [hrole]; decide)
    exact ⟨hwf,h.term_le,h.voted,h.commands,
      outbox_append h.outbox fun m hmem => (hmsg m hmem).2.sendable h hactive⟩
  | accept c prev prevTerm entries commit plan hinp hpeer hrole hpos hval hplan hcap =>
    subst hinp
    exact accepted_fit h hrole hval hplan hcap hin.2.2
  | append cmd hinp hrole hcap =>
    subst hinp
    refine ⟨hwf,h.term_le,h.voted,?_,h.outbox⟩
    intro e he
    rcases List.mem_append.mp he with he | he
    · exact h.commands e he
    · rw [List.mem_singleton.mp he]
      exact hin

theorem moves_fit (hm : Moves inp n n') (hin : InputFit good inp) (h : Fit good n) : Fit good n' := by
  induction hm with
  | refl => exact h
  | tail _ hstep ih => exact move_fit hstep hin ih

end Parrot.Raft
