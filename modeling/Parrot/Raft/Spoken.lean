import Parrot.Raft.Capacity

/-! # What a message rests on

Every message a call leaves in the outbox was there before, or says only what the
snapshot taken at the end of the call says: the term, the vote, the entries and the
commit index it names are in it. -/

namespace Parrot.Raft
open Machine

/-- What `rpc`, sent to `dest`, promises is recorded in the snapshot `s`. -/
def Backed (s : Saved) (dest : NodeId) : RaftRpc → Prop
  | .requestVote term candidate lastLogIndex _ =>
    term=s.term ∧ candidate=s.id ∧ s.vote=some candidate ∧ lastLogIndex ≤ s.log.length
  | .requestVoteResp term voteGranted => term=s.term ∧ (voteGranted=true → s.vote=some dest)
  | .appendEntries term leader prevLogIndex _ entries leaderCommit =>
    term=s.term ∧ leader=s.id ∧ prevLogIndex+entries.length ≤ s.log.length ∧
      entries=(s.log.drop prevLogIndex).take entries.length ∧ leaderCommit ≤ s.commit
  | .appendEntriesResp term _ matchIndex => term=s.term ∧ matchIndex ≤ s.log.length

def Spoken (cluster : String) (n n' : RaftNode) : Prop :=
  ∀ m∈n'.outbox, m∈n.outbox ∨ Backed (snapshot n' cluster) m.1 m.2

structure Grown (n n' : RaftNode) : Prop where
  id : n'.id=n.id
  term : n'.currentTerm=n.currentTerm
  vote : ∀ v, n.votedFor=some v → n'.votedFor=some v
  log : n.log<+:n'.log
  commit : n.commitIndex≤n'.commitIndex

variable {cluster : String} {n n' : RaftNode} {inp : Input} {A : NodeId × RaftRpc → Prop}

variable {rpc : RaftRpc} {dest : NodeId}

theorem Backed.grown (h : Backed (snapshot n cluster) dest rpc) (hg : Grown n n') :
    Backed (snapshot n' cluster) dest rpc := by
  have hlen:=hg.log.length_le
  cases rpc with
  | requestVote term candidate li lt =>
    obtain ⟨h1,h2,h3,h4⟩:=h
    exact ⟨h1.trans hg.term.symm,h2.trans hg.id.symm,hg.vote _ h3,h4.trans hlen⟩
  | requestVoteResp term granted =>
    obtain ⟨h1,h2⟩:=h
    exact ⟨h1.trans hg.term.symm,fun hgr => hg.vote _ (h2 hgr)⟩
  | appendEntries term leader prev prevTerm entries commit =>
    obtain ⟨h1,h2,h3,h4,h5⟩:=h
    refine ⟨h1.trans hg.term.symm,h2.trans hg.id.symm,h3.trans hlen,?_,h5.trans hg.commit⟩
    obtain ⟨rest,hrest⟩:=hg.log
    simp only [snapshot] at h3 h4 ⊢
    rw [← hrest,List.drop_append_of_le_length (by omega),
      List.take_append_of_le_length (by rw [List.length_drop]; omega)]
    exact h4
  | appendEntriesResp term success matched =>
    obtain ⟨h1,h2⟩:=h
    exact ⟨h1.trans hg.term.symm,h2.trans hlen⟩

theorem backed_outbox (hg : Grown n n') {msgs : List (NodeId × RaftRpc)} (hout : n'.outbox=n.outbox++msgs)
    (hnew : ∀ m∈msgs, Backed (snapshot n' cluster) m.1 m.2) (h : ∀ m∈n.outbox, A m ∨
    Backed (snapshot n cluster) m.1 m.2) : ∀ m∈n'.outbox, A m ∨ Backed (snapshot n' cluster) m.1 m.2 := by
  intro m hm
  rw [hout] at hm
  rcases List.mem_append.mp hm with hm | hm
  · exact (h m hm).imp_right fun hb => hb.grown hg
  · exact .inr (hnew m hm)

theorem backed_same (hg : Grown n n') (hout : n'.outbox=n.outbox) (h : ∀ m∈n.outbox, A m ∨
    Backed (snapshot n cluster) m.1 m.2) : ∀ m∈n'.outbox, A m ∨ Backed (snapshot n' cluster) m.1 m.2 := by
  have hnone : n'.outbox=n.outbox++[] := by rw [hout,List.append_nil]
  exact backed_outbox hg hnone nofun h

theorem AppendMsg.backed (h : AppendMsg n rpc) : Backed (snapshot n cluster) dest rpc := by
  obtain ⟨prev,entries,hlen,hentries,-,rfl⟩:=h
  exact ⟨rfl,rfl,hlen,hentries,le_rfl⟩

theorem Refusal.backed (h : Refusal n rpc) : Backed (snapshot n cluster) dest rpc := by
  rcases h with rfl | rfl
  · exact ⟨rfl,nofun⟩
  · exact ⟨rfl,le_rfl⟩

def Input.steady : Input → Bool
  | .clock => false
  | .message _ (.appendEntries ..) => false
  | _ => true

theorem move_backed (hm : Move inp n n') (hs : inp.steady=true) (h : ∀ m∈n.outbox, A m ∨
    Backed (snapshot n cluster) m.1 m.2) : ∀ m∈n'.outbox, A m ∨ Backed (snapshot n' cluster) m.1 m.2 := by
  cases hm with
  | timing | collect | crown | record | retry => exact h
  | observe term hlt hinp =>
    rw [observeTerm_of_lt hlt]
    nofun
  | refuse dest rpc hr =>
    refine backed_outbox (n := n) ⟨rfl,rfl,fun _ hv => hv,List.prefix_rfl,le_rfl⟩ rfl ?_ h
    intro m hm
    rw [List.mem_singleton.mp hm]
    exact hr.backed
  | grant c li lt now hinp hpeer hlog hfree =>
    refine backed_outbox (n := n) ⟨rfl,rfl,?_,List.prefix_rfl,le_rfl⟩ rfl ?_ h
    · intro v hv
      rcases hfree with hnone | hsome
      · rw [hnone] at hv
        contradiction
      · rw [← hv,hsome]
        rfl
    · intro m hm
      rw [List.mem_singleton.mp hm]
      exact ⟨rfl,fun _ => rfl⟩
  | campaign clock hinp hrole hmax =>
    rw [hinp] at hs
    contradiction
  | send su msgs hrole hmsg =>
    refine backed_outbox (n := n) ⟨rfl,rfl,fun _ hv => hv,List.prefix_rfl,le_rfl⟩ rfl ?_ h
    intro m hm
    exact (hmsg m hm).2.backed
  | follow clock c prev prevTerm entries commit hinp hpeer =>
    rw [hinp] at hs
    contradiction
  | accept c prev prevTerm entries commit plan hinp hpeer hrole hpos hval hplan hcap =>
    rw [hinp] at hs
    contradiction
  | commit m hrole hnew hlen hterm hmaj =>
    exact backed_same (n := n) ⟨rfl,rfl,fun _ hv => hv,List.prefix_rfl,hnew.le⟩ rfl h
  | append cmd hinp hrole hcap =>
    exact backed_same (n := n) ⟨rfl,rfl,fun _ hv => hv,List.prefix_append _ _,le_rfl⟩ rfl h

theorem moves_backed (hm : Moves inp n n') (hs : inp.steady=true) (h : ∀ m∈n.outbox, A m ∨
    Backed (snapshot n cluster) m.1 m.2) : ∀ m∈n'.outbox, A m ∨ Backed (snapshot n' cluster) m.1 m.2 := by
  induction hm with
  | refl => exact h
  | tail _ hstep ih => exact move_backed hstep hs ih

theorem moves_spoken (hm : Moves inp n n') (hs : inp.steady=true) : Spoken cluster n n' :=
  moves_backed hm hs fun _ h => .inl h

theorem tick_spoken (h : WellFormed n) (clock : Clock) (ht : n.tick clock=.ok n') : Spoken cluster n n' := by
  unfold RaftNode.tick at ht
  split at ht
  · rename_i hrole
    split at ht
    · have hwf:=@move_wellFormed .clock _ _ (.timing n (clock.nowMs 0)) h
      obtain ⟨x,hx,hm⟩:=@broadcastAppend_moved (.command []) _ hwf hrole
      obtain rfl:=Except.ok.inj (hx.symm.trans ht)
      exact moves_backed hm rfl fun _ hmem => .inl hmem
    · cases ht
      exact fun _ hm => .inl hm
  · rename_i hrole
    split at ht
    · unfold RaftNode.startElection at ht
      split at ht
      · rename_i hmax
        -- the candidate's own requests rest on its new term and its vote for itself
        have hcamp : ∀ m∈(n.campaign clock).outbox,
            m∈n.outbox ∨ Backed (snapshot (n.campaign clock) cluster) m.1 m.2 := by
          intro m hm
          rcases List.mem_append.mp hm with hm | hm
          · exact .inl hm
          · obtain ⟨p,-,rfl⟩:=List.mem_map.mp hm
            exact .inr ⟨rfl,rfl,rfl,le_rfl⟩
        dsimp only at ht
        split at ht
        · rename_i hq
          have hwf:=move_wellFormed (.campaign n clock rfl hrole hmax) h
          obtain ⟨x,hx,hm⟩:=@becomeLeader_moved (.command []) _ hwf rfl hq (clock.nowMs 2)
          obtain rfl:=Except.ok.inj (hx.symm.trans ht)
          exact moves_backed hm rfl hcamp
        · cases ht
          exact hcamp
      · cases ht
        exact fun _ hm => .inl hm
    · cases ht
      exact fun _ hm => .inl hm

theorem observeTerm_outbox (n : RaftNode) (term : ℕ) : (n.observeTerm term).outbox⊆n.outbox := by
  unfold RaftNode.observeTerm
  split
  · exact fun _ h => h
  · nofun

theorem reply_spoken {x : RaftNode} (hx : x.outbox⊆n.outbox)
    (hb : Backed (snapshot x cluster) dest rpc) : Spoken cluster n (x.reply dest rpc) := by
  intro m hm
  rcases List.mem_append.mp hm with hm | hm
  · exact .inl (hx hm)
  · rw [List.mem_singleton.mp hm]
    exact .inr hb

theorem stepAppend_spoken (h : WellFormed n) (clock : Clock) {sender leader : NodeId} {term prev prevTerm commit : ℕ}
    {entries : List LogEntry}
    (hshape : (RaftRpc.appendEntries term leader prev prevTerm entries commit).validateShape=.ok ())
    (hs : n.stepAppend clock sender term leader prev prevTerm entries commit=.ok n') : Spoken cluster n n' := by
  obtain ⟨hpos,hval⟩:=validateShape_append hshape
  unfold RaftNode.stepAppend at hs
  split at hs
  · cases hs
    exact fun _ hm => .inl hm
  · rename_i hsender
    push Not at hsender
    obtain ⟨rfl,hpeer⟩:=hsender
    split at hs
    · cases hs
      exact reply_spoken (fun _ hm => hm) ⟨rfl,le_rfl⟩
    · rename_i hle
      obtain ⟨hmoves,hterm,hpeers⟩:=@observeTerm_moves
        (.message sender (.appendEntries term sender prev prevTerm entries commit)) n sender _ _ rfl rfl
        (Nat.le_of_not_lt hle)
      have hwf : WellFormed ((n.observeTerm term).follow clock sender) :=
        moves_wellFormed (hmoves.tail (.follow _ clock sender prev prevTerm entries commit
          (by rw [hterm]; rfl) (by rw [hpeers]; exact hpeer))) h
      have hout : ((n.observeTerm term).follow clock sender).outbox⊆n.outbox := observeTerm_outbox n term
      generalize hx : (n.observeTerm term).follow clock sender=x at hwf hout hs
      have hxterm : x.currentTerm=term := by rw [← hx]; exact hterm
      subst hxterm
      dsimp only at hs
      split at hs
      · cases hs
        exact reply_spoken hout ⟨rfl,le_rfl⟩
      · rename_i plan hplan
        rcases applyPlan_eq hwf sender commit hval hplan with ⟨heq,-⟩ | heq
        · rw [heq] at hs
          cases hs
          intro m hm
          rcases List.mem_append.mp hm with hm | hm
          · exact .inl (hout hm)
          · rw [List.mem_singleton.mp hm]
            exact .inr ⟨rfl,matched_le sender commit hval hplan⟩
        · rw [heq] at hs
          contradiction

theorem step_spoken (h : WellFormed n) (clock : Clock) {sender : NodeId}
    (hshape : rpc.validateShape=.ok ()) (hs : n.step clock sender rpc=.ok n') : Spoken cluster n n' := by
  have hmoves : Moves (.message sender rpc) n n' := by
    rcases step_handled h clock sender rpc with ⟨x,hx,hm⟩ | herr
    · obtain rfl:=Except.ok.inj (hx.symm.trans hs)
      exact hm
    · rw [herr] at hs
      contradiction
  cases rpc with
  | requestVote | requestVoteResp | appendEntriesResp => exact moves_spoken hmoves rfl
  | appendEntries term leader prev prevTerm entries commit =>
    unfold RaftNode.step at hs
    rw [hshape] at hs
    exact stepAppend_spoken h clock hshape hs

end Parrot.Raft
