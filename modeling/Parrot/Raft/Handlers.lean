import Parrot.Lib.Median
import Parrot.Raft.WellFormed

/-! # Every operation is a sequence of moves, and none panics

For a well-formed node each handler returns after a sequence of moves. -/

namespace Parrot.Raft
open Machine

def Moved (inp : Input) (n : RaftNode) (r : Except Panic RaftNode) : Prop := ∃ n', r=.ok n' ∧ Moves inp n n'

def Handled (inp : Input) (n : RaftNode) (r : Except Panic RaftNode) : Prop :=
  Moved inp n r ∨ r=.error .capacityOverflow

variable {inp : Input} {n : RaftNode}

theorem moved_refl (n : RaftNode) : Moved inp n (.ok n) := ⟨n,rfl,.refl⟩

variable {n' : RaftNode}

theorem moved_move (h : Move inp n n') : Moved inp n (.ok n') := ⟨n',rfl,.single h⟩

theorem Moved.after {r : Except Panic RaftNode} (hm : Moves inp n n') (h : Moved inp n' r) : Moved inp n r := by
  obtain ⟨x,hx,hx'⟩:=h
  exact ⟨x,hx,hm.trans hx'⟩

theorem broadcastAppend_moved (h : WellFormed n) (hrole : n.role=.leader) : Moved inp n n.broadcastAppend := by
  obtain ⟨su,msgs,heq,hmsg⟩:=broadcastAppend_spec hrole h.indexed fun p _ => h.next_le hrole p
  rw [heq]
  exact moved_move (.send n su msgs hrole hmsg)

theorem sendAppend_moved (h : WellFormed n) (hrole : n.role=.leader) {p : NodeId}
    (hpeer : p∈n.peers) : Moved inp n (n.sendAppend p) := by
  obtain ⟨su,msg,heq,hmsg⟩:=sendAppend_spec hrole h.indexed (h.next_le hrole p)
  rw [heq]
  refine moved_move (.send n su [(p,msg)] hrole ?_)
  intro m hm
  rw [List.mem_singleton.mp hm]
  exact ⟨hpeer,hmsg⟩

theorem quorum_le_indexes (n : RaftNode) : n.quorum≤n.indexes.length := by
  simp only [RaftNode.quorum,RaftNode.indexes,List.length_append,List.length_map,List.length_singleton]
  omega

theorem mem_indexes_le {v : ℕ} (hv : v∈n.indexes) : v≤n.log.length := by
  simp only [RaftNode.indexes,List.mem_append,List.mem_map,List.mem_singleton,RaftNode.lastLogIndex] at hv
  rcases hv with ⟨p,-,rfl⟩ | rfl
  · omega
  · exact le_rfl

section
variable (h : WellFormed n)
include h

theorem commitTo_eq {m : ℕ} (hm : n.commitIndex ≤ m) (hlen : m≤n.log.length) : n.commitTo m=.ok (n.advanced m) := by
  have happ:=h.applied
  unfold RaftNode.commitTo RaftNode.advanced
  rw [slice_ok (by omega) hlen,happ]
  rfl

theorem advanceCommit_moved (hrole : n.role=.leader) : Moved inp n n.advanceCommit := by
  unfold RaftNode.advanceCommit
  change Moved inp n (index (n.indexes.mergeSort fun a b => decide (a≤b))
    ((n.indexes.mergeSort fun a b => decide (a≤b)).length-n.quorum) >>= _)
  have hq:=quorum_le_indexes n
  have hlen:=(List.mergeSort_perm n.indexes fun a b => decide (a≤b)).length_eq
  have hpos : 0<n.quorum := Nat.succ_pos _
  have hin : (n.indexes.mergeSort fun a b => decide (a≤b)).length-n.quorum <
      (n.indexes.mergeSort fun a b => decide (a≤b)).length := by omega
  have hget:=List.getElem?_eq_getElem hin
  obtain ⟨hmaj,hmem⟩:=Median.quorum_reaches hq hget
  rw [index_ok hget]
  simp only [bind,Except.bind]
  split
  · rename_i hcond
    have hle:=mem_indexes_le hmem
    set m:=(n.indexes.mergeSort fun a b => decide (a≤b))[
      (n.indexes.mergeSort fun a b => decide (a≤b)).length-n.quorum] with hmdef
    have hterm : termAt n.log m=n.currentTerm := by
      simp only [termAt,show m≠0 by omega,ite_false,hcond.2,Option.getD_some]
    have hmove : Move inp n (n.advanced m) := .commit n m hrole hcond.1 hle hterm hmaj
    rw [commitTo_eq h (Nat.le_of_lt hcond.1) hle]
    exact (broadcastAppend_moved (move_wellFormed hmove h) hrole).after (.single hmove)
  · exact moved_refl n

theorem advanceCommit_term (hrole : n.role=.leader) (ha : n.advanceCommit=.ok n') : n'.currentTerm=n.currentTerm := by
  unfold RaftNode.advanceCommit at ha
  change (index (n.indexes.mergeSort fun a b => decide (a≤b))
    ((n.indexes.mergeSort fun a b => decide (a≤b)).length-n.quorum) >>= _)=_ at ha
  cases hi : index (n.indexes.mergeSort fun a b => decide (a≤b))
      ((n.indexes.mergeSort fun a b => decide (a≤b)).length-n.quorum) with
  | error e =>
    rw [hi] at ha
    contradiction
  | ok m =>
    rw [hi] at ha
    simp only [bind,Except.bind] at ha
    split at ha
    · cases hc : n.commitTo m with
      | error e =>
        rw [hc] at ha
        contradiction
      | ok x =>
        rw [hc] at ha
        unfold RaftNode.commitTo at hc
        cases hs : slice n.log n.lastApplied m with
        | error e => simp [hs,Except.map] at hc
        | ok entries =>
          rw [hs] at hc
          cases hc
          obtain ⟨su,msgs,heq,-⟩:=broadcastAppend_spec (n := {n with
            commitIndex := m,lastApplied := m,pendingApply := n.pendingApply++entries})
            hrole h.indexed fun p _ => h.next_le hrole p
          dsimp only at ha
          rw [heq] at ha
          rw [← Except.ok.inj ha]
    · rw [← Except.ok.inj ha]

theorem becomeLeader_moved (hrole : n.role=.candidate)
    (hq : n.quorum≤n.votesReceived.length) (now : ℕ) : Moved inp n (n.becomeLeader now) := by
  have hmove : Move inp n (n.crowned now) := .crown n now hrole hq
  have hadd : add n.lastLogIndex 1=.ok (n.log.length+1) := add_ok h.length_lt
  unfold RaftNode.becomeLeader
  rw [hadd]
  exact (broadcastAppend_moved (move_wellFormed hmove h) rfl).after (.single hmove)

theorem startElection_moved (hrole : n.role ≠ .leader) (clock : Clock) : Moved .clock n (n.startElection clock) := by
  unfold RaftNode.startElection
  split
  · rename_i hmax
    have hmove : Move .clock n (n.campaign clock) := .campaign n clock rfl hrole hmax
    dsimp only
    split
    · rename_i hq
      exact (becomeLeader_moved (move_wellFormed hmove h) rfl hq _).after (.single hmove)
    · exact moved_move hmove
  · exact moved_refl n

end

theorem observeTerm_moves (n : RaftNode) {src : NodeId} {rpc : RaftRpc} {term : ℕ} (hinp : inp=.message src rpc)
    (hrpc : rpc.term=term) (hle : n.currentTerm≤term) : Moves inp n (n.observeTerm term) ∧
    (n.observeTerm term).currentTerm=term ∧ (n.observeTerm term).peers=n.peers := by
  by_cases hlt : n.currentTerm<term
  · refine ⟨.single (.observe n term hlt ⟨src,rpc,hinp,hrpc⟩),?_,?_⟩ <;> rw [observeTerm_of_lt hlt]
  · have heq : n.observeTerm term=n := if_pos (by omega)
    rw [heq]
    exact ⟨.refl,by omega,rfl⟩

theorem stepRequestVote_moves (clock : Clock) {sender candidate : NodeId} {term li lt : ℕ}
    (hinp : inp=.message sender (.requestVote term candidate li lt)) :
    Moves inp n (n.stepRequestVote clock sender term candidate li lt) := by
  unfold RaftNode.stepRequestVote
  split
  · exact .refl
  · rename_i hs
    push Not at hs
    obtain ⟨rfl,hpeer⟩:=hs
    split
    · exact .single (.refuse n _ _ (.inl rfl))
    · rename_i hle
      obtain ⟨hmoves,hterm,hpeers⟩:=observeTerm_moves n hinp rfl (Nat.le_of_not_lt hle)
      refine hmoves.tail ?_
      unfold RaftNode.castVote
      split
      · rename_i hgrant
        exact .grant _ sender li lt _ (by rw [hterm]; exact hinp) (by rw [hpeers]; exact hpeer)
          hgrant.1 hgrant.2
      · exact .refuse _ _ _ (.inl rfl)

theorem stepVoteResp_moved (h : WellFormed n) (clock : Clock) {sender : NodeId} {term : ℕ}
    {granted : Bool} (hinp : inp=.message sender (.requestVoteResp term granted)) :
    Moved inp n (n.stepVoteResp clock sender term granted) := by
  unfold RaftNode.stepVoteResp
  split
  · exact moved_refl n
  · rename_i hpeer
    push Not at hpeer
    split
    · rename_i hlt
      exact moved_move (.observe n term hlt ⟨sender,_,hinp,rfl⟩)
    · split
      · exact moved_refl n
      · rename_i hcond
        push Not at hcond
        obtain ⟨hrole,rfl,hg⟩:=hcond
        have hgt : granted=true := by simpa using hg
        subst hgt
        -- the vote is counted once, then the quorum is checked
        have hcount : ∃ x, x=(if sender∈n.votesReceived then n
            else {n with votesReceived:=n.votesReceived++[sender]}) ∧ Moves inp n x ∧
            x.role=.candidate := by
          refine ⟨_,rfl,?_⟩
          split
          · exact ⟨.refl,hrole⟩
          · rename_i hnew
            exact ⟨.single (.collect n sender hinp hrole hpeer hnew),hrole⟩
        obtain ⟨x,hx,hmoves,hxrole⟩:=hcount
        dsimp only
        rw [← hx]
        split
        · rename_i hq
          exact (becomeLeader_moved (moves_wellFormed hmoves h) hxrole hq _).after hmoves
        · exact ⟨x,rfl,hmoves⟩

variable {entries : List LogEntry} {prev prevTerm : ℕ} {plan : ℕ × ℕ}

section
variable (h : WellFormed n)
include h

theorem matched_max (hval : validateEntries n.currentTerm prev prevTerm entries=true)
    (hplan : n.appendPlan prev prevTerm entries=some plan) : prev+entries.length≤u64Max := by
  have hprev:=(appendPlan_spec (validated_index hval) hplan).1
  by_cases he : entries=[]
  · have hl:=h.length_lt
    simp only [he,List.length_nil]
    omega
  · have hpos : 0<entries.length := List.length_pos_of_ne_nil he
    have hlast:=validateEntries_get hval (entries.length-1) _ (List.getElem?_eq_getElem (by omega))
    omega

theorem applyPlan_ok (sender : NodeId) (commit : ℕ) (hval : validateEntries n.currentTerm prev prevTerm entries=true)
    (hplan : n.appendPlan prev prevTerm entries=some plan)
    (hcap : 40*(n.accepted sender prev entries commit).log.length ≤ isizeMax) :
    n.applyPlan sender prev entries commit plan=.ok (n.accepted sender prev entries commit) := by
  have hidx:=validated_index hval
  have hlog:=applied_log hidx hplan
  have hmatched:=matched_le sender commit hval hplan
  have hacc : (n.accepted sender prev entries commit).log=n.log.take plan.1++entries.drop plan.2 := hlog.symm
  rw [hacc] at hmatched hcap
  have hext : extend 40 (n.log.take plan.1) (entries.drop plan.2) =
      .ok (n.log.take plan.1++entries.drop plan.2) := if_pos (by rwa [List.length_append] at hcap)
  unfold RaftNode.applyPlan
  rw [add_ok (matched_max h hval hplan)]
  simp only [bind,Except.bind]
  rw [hext]
  dsimp only
  unfold RaftNode.followCommit
  by_cases hc : min commit (prev+entries.length)>n.commitIndex
  · rw [if_pos hc]
    unfold RaftNode.commitTo
    rw [slice_ok (by rw [← h.applied]; exact Nat.le_of_lt hc) (by dsimp only; omega)]
    simp only [Except.map,pure,Except.pure,RaftNode.reply,RaftNode.accepted,hlog,← h.applied]
    rw [Nat.max_eq_right (Nat.le_of_lt hc)]
  · rw [if_neg hc]
    simp only [pure,Except.pure,RaftNode.reply,RaftNode.accepted,hlog]
    rw [Nat.max_eq_left (by omega),List.drop_eq_nil_of_le (List.length_take_le _ _),List.append_nil,h.applied]

theorem applyPlan_eq (sender : NodeId) (commit : ℕ)
    (hval : validateEntries n.currentTerm prev prevTerm entries=true)
    (hplan : n.appendPlan prev prevTerm entries=some plan) :
    (n.applyPlan sender prev entries commit plan=.ok (n.accepted sender prev entries commit) ∧
      40*(n.accepted sender prev entries commit).log.length ≤ isizeMax) ∨
    n.applyPlan sender prev entries commit plan=.error .capacityOverflow := by
  by_cases hcap : 40*(n.accepted sender prev entries commit).log.length ≤ isizeMax
  · exact .inl ⟨applyPlan_ok h sender commit hval hplan hcap,hcap⟩
  · right
    have hidx:=validated_index hval
    have hacc : (n.accepted sender prev entries commit).log =
        n.log.take plan.1++entries.drop plan.2 := (applied_log hidx hplan).symm
    rw [hacc,List.length_append] at hcap
    unfold RaftNode.applyPlan
    rw [add_ok (matched_max h hval hplan)]
    simp only [bind,Except.bind,extend,if_neg hcap]

theorem stepAppend_handled (clock : Clock) {sender leader : NodeId} {term prev prevTerm commit : ℕ}
    (hinp : inp=.message sender (.appendEntries term leader prev prevTerm entries commit))
    (hpos : position prev prevTerm term=true) (hval : validateEntries term prev prevTerm entries=true) :
    Handled inp n (n.stepAppend clock sender term leader prev prevTerm entries commit) := by
  unfold RaftNode.stepAppend
  split
  · exact .inl (moved_refl n)
  · rename_i hs
    push Not at hs
    obtain ⟨rfl,hpeer⟩:=hs
    split
    · exact .inl (moved_move (.refuse n _ _ (.inr rfl)))
    · rename_i hle
      obtain ⟨hmoves,hterm,hpeers⟩:=observeTerm_moves n hinp rfl (Nat.le_of_not_lt hle)
      have hfollow : Moves inp n ((n.observeTerm term).follow clock sender) :=
        hmoves.tail (.follow _ clock sender prev prevTerm entries commit
          (by rw [hterm]; exact hinp) (by rw [hpeers]; exact hpeer))
      dsimp only
      generalize hx : (n.observeTerm term).follow clock sender=x at hfollow ⊢
      have hxterm : x.currentTerm=term := by rw [← hx]; exact hterm
      have hxpeer : sender∈x.peers := by rw [← hx]; exact hpeers ▸ hpeer
      have hxrole : x.role=.follower := by rw [← hx]; rfl
      have hxwf:=moves_wellFormed hfollow h
      subst hxterm
      split
      · exact .inl (Moved.after hfollow (moved_move (.refuse x _ _ (.inr rfl))))
      · rename_i plan hplan
        rcases applyPlan_eq hxwf sender commit hval hplan with
          ⟨heq,hcap⟩ | heq
        · rw [heq]
          exact .inl (Moved.after hfollow (moved_move
            (.accept x sender prev prevTerm entries commit plan hinp hxpeer hxrole hpos hval hplan
              hcap)))
        · exact .inr heq

theorem stepAppendResp_moved {sender : NodeId} {term matched : ℕ}
    {success : Bool} (hinp : inp=.message sender (.appendEntriesResp term success matched)) :
    Moved inp n (n.stepAppendResp sender term success matched) := by
  unfold RaftNode.stepAppendResp
  split
  · exact moved_refl n
  · rename_i hpeer
    push Not at hpeer
    split
    · rename_i hlt
      exact moved_move (.observe n term hlt ⟨sender,_,hinp,rfl⟩)
    · split
      · exact moved_refl n
      · rename_i hcond
        push Not at hcond
        obtain ⟨hrole,rfl⟩:=hcond
        split
        · rename_i hsucc
          subst hsucc
          split
          · exact moved_refl n
          · rename_i hbound
            push Not at hbound
            have hmove : Move inp n (n.recordMatch sender matched) :=
              .record n sender matched hinp hrole hpeer hbound.1
            exact (advanceCommit_moved (move_wellFormed hmove h) hrole).after (.single hmove)
        · dsimp only
          split
          · exact moved_move (.retry n sender _ hrole (le_rfl))
          · rename_i hretry
            set k:=max ((n.nextIndex sender).getD 1-1)
              (saturatingAdd ((n.matchIndex sender).getD 0) 1) with hk
            have hmove : Move inp n {n with nextIndex:=Function.update n.nextIndex sender (some k)} :=
              .retry n sender k hrole (by omega)
            exact (sendAppend_moved (move_wellFormed hmove h) hrole hpeer).after (.single hmove)

end

theorem refuseMalformed_moves (n : RaftNode) (sender : NodeId) (rpc : RaftRpc) :
    Moves inp n (n.refuseMalformed sender rpc) := by
  unfold RaftNode.refuseMalformed
  split
  · split
    · split
      · exact .single (.refuse n _ _ (.inl rfl))
      · exact .refl
    · split
      · exact .single (.refuse n _ _ (.inr rfl))
      · exact .refl
    · exact .refl
  · exact .refl

theorem step_handled (h : WellFormed n) (clock : Clock) (sender : NodeId) (rpc : RaftRpc) :
    Handled (.message sender rpc) n (n.step clock sender rpc) := by
  unfold RaftNode.step
  split
  · exact .inl ⟨_,rfl,refuseMalformed_moves n sender rpc⟩
  · rename_i hshape
    cases rpc with
    | requestVote term candidate li lt =>
      exact .inl ⟨_,rfl,stepRequestVote_moves clock rfl⟩
    | requestVoteResp term granted => exact .inl (stepVoteResp_moved h clock rfl)
    | appendEntries term leader prev prevTerm entries commit =>
      simp only [RaftRpc.validateShape] at hshape
      split at hshape
      · contradiction
      · rename_i hpos
        push Not at hpos
        split at hshape
        · contradiction
        · rename_i hval
          exact stepAppend_handled h clock rfl (by simpa using hpos.2) (by simpa using hval)
    | appendEntriesResp term success matched => exact .inl (stepAppendResp_moved h rfl)

theorem tick_moved (h : WellFormed n) (clock : Clock) : Moved .clock n (n.tick clock) := by
  unfold RaftNode.tick
  split
  · rename_i hrole
    split
    · have hmove : Move .clock n {n with lastHeartbeatMs:=clock.nowMs 0} := .timing n _
      exact (broadcastAppend_moved (move_wellFormed hmove h) hrole).after (.single hmove)
    · exact moved_refl n
  · rename_i hrole
    split
    · exact startElection_moved h hrole clock
    · exact moved_refl n

theorem propose_handled (h : WellFormed n) (cmd : Bytes) :
    (∃ r n', n.propose cmd=.ok (r,n') ∧ Moves (.command cmd) n n') ∨ n.propose cmd=.error .capacityOverflow := by
  unfold RaftNode.propose
  split
  · exact .inl ⟨_,n,rfl,.refl⟩
  · rename_i hrole
    push Not at hrole
    rw [add_ok h.length_lt]
    simp only [bind,Except.bind]
    rcases extend_cases 40 n.log [⟨n.currentTerm,n.log.length+1,cmd⟩] with ⟨hext,hcap⟩ | hext
    · rw [hext]
      have hmove : Move (.command cmd) n {n with log:=n.log++[⟨n.currentTerm,n.log.length+1,cmd⟩]} :=
        .append n cmd rfl hrole (by simpa using hcap)
      have hwf:=move_wellFormed hmove h
      dsimp only
      generalize hx : ({n with log:=n.log++[⟨n.currentTerm,n.log.length+1,cmd⟩]} : RaftNode)=x
        at hmove hwf ⊢
      have hxrole : x.role=.leader := by rw [← hx]; exact hrole
      obtain ⟨su,msgs,heq,hmsg⟩:=broadcastAppend_spec hxrole hwf.indexed
        fun p _ => hwf.next_le hxrole p
      have hsend : Move (.command cmd) x {x with sentUpper:=su,outbox:=x.outbox++msgs} :=
        .send x su msgs hxrole hmsg
      have hwf':=move_wellFormed hsend hwf
      rw [heq]
      dsimp only
      split
      · obtain ⟨x,hx,hmoves⟩ : Moved (.command cmd) _ _ := advanceCommit_moved hwf' hxrole
        rw [hx]
        exact .inl ⟨_,x,rfl,((Relation.ReflTransGen.single hmove).tail hsend).trans hmoves⟩
      · exact .inl ⟨_,_,rfl,(Relation.ReflTransGen.single hmove).tail hsend⟩
    · rw [hext]
      exact .inr rfl

theorem propose_leader (h : WellFormed n) (hrole : n.role=.leader) {cmd : Bytes} {r : Except (Option NodeId) ℕ}
    (hp : n.propose cmd=.ok (r,n')) : r=.ok (n.log.length+1) ∧ n'.currentTerm=n.currentTerm := by
  unfold RaftNode.propose at hp
  rw [if_neg (by simp [hrole]),add_ok h.length_lt] at hp
  simp only [bind,Except.bind] at hp
  rcases extend_cases 40 n.log [⟨n.currentTerm,n.log.length+1,cmd⟩] with ⟨hext,hcap⟩ | hext
  · rw [hext] at hp
    have hmove : Move (.command cmd) n {n with log:=n.log++[⟨n.currentTerm,n.log.length+1,cmd⟩]} :=
      .append n cmd rfl hrole (by simpa using hcap)
    have hwf:=move_wellFormed hmove h
    dsimp only at hp
    generalize hx : ({n with log:=n.log++[⟨n.currentTerm,n.log.length+1,cmd⟩]} : RaftNode)=x
      at hmove hwf hp
    have hxrole : x.role=.leader := by rw [← hx]; exact hrole
    have hxterm : x.currentTerm=n.currentTerm := by rw [← hx]
    obtain ⟨su,msgs,heq,hmsg⟩:=broadcastAppend_spec hxrole hwf.indexed
      fun p _ => hwf.next_le hxrole p
    have hsend : Move (.command cmd) x {x with sentUpper:=su,outbox:=x.outbox++msgs} :=
      .send x su msgs hxrole hmsg
    have hwf':=move_wellFormed hsend hwf
    rw [heq] at hp
    dsimp only at hp
    split at hp
    · cases ha : RaftNode.advanceCommit {x with sentUpper:=su,outbox:=x.outbox++msgs} with
      | error e =>
        rw [ha] at hp
        contradiction
      | ok y =>
        rw [ha] at hp
        cases hp
        exact ⟨rfl,(advanceCommit_term hwf' hxrole ha).trans hxterm⟩
    · cases hp
      exact ⟨rfl,hxterm⟩
  · rw [hext] at hp
    contradiction

end Parrot.Raft
