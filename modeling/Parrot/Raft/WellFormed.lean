import Parrot.Raft.Moves

/-! # Local invariants of a node

`WellFormed` holds of a new node and after every move, whatever the input: no
move trusts a field of a message that the guards of `validate_shape` and
`append_plan` have not checked. -/

namespace Parrot.Raft
open List (take_take length_take length_append)
open Machine

structure WellFormed (n : RaftNode) : Prop where
  indexed : Indexed n.log
  positive : ∀ e∈n.log, 0<e.term
  ordered : n.log.Pairwise fun a b => a.term≤b.term
  bounded : ∀ e∈n.log, e.term≤n.currentTerm
  applied : n.commitIndex=n.lastApplied
  commit_le : n.commitIndex≤n.log.length
  active : n.role ≠ .follower → 0<n.currentTerm
  next_le : n.role=.leader → ∀ p, (n.nextIndex p).getD 1≤n.log.length+1
  capacity : 40*n.log.length ≤ isizeMax

theorem wellFormed_new (clock : Clock) (id : NodeId) (peers : List NodeId) :
    WellFormed (RaftNode.new clock id peers) := by
  constructor <;> simp [RaftNode.new,Indexed]

theorem WellFormed.length_lt {n : RaftNode} (h : WellFormed n) : n.log.length+1≤u64Max := by
  have hc:=h.capacity
  simp only [isizeMax,u64Max] at hc ⊢
  omega

section accept
variable {n : RaftNode} {prev prevTerm : ℕ} {entries : List LogEntry} {plan : ℕ × ℕ}
  {c : NodeId} {commit : ℕ}

theorem validated_index (hval : validateEntries n.currentTerm prev prevTerm entries=true) :
    ∀ k e, entries[k]? = some e → e.index=prev+k+1 :=
  fun k e he => (validateEntries_get hval k e he).1

theorem accepted_log (n : RaftNode) (c : NodeId) (prev : ℕ) (entries : List LogEntry) (commit : ℕ) :
    (n.accepted c prev entries commit).log=n.log ∧ n.log.take (prev+entries.length)=n.log.take prev++entries ∨
    (n.accepted c prev entries commit).log=n.log.take prev++entries := by
  unfold RaftNode.accepted
  dsimp only
  split
  · exact .inl ⟨rfl,by assumption⟩
  · exact .inr rfl

theorem accepted_keeps (c : NodeId) (commit : ℕ) (hval : validateEntries n.currentTerm prev prevTerm entries=true)
    (hplan : n.appendPlan prev prevTerm entries=some plan) :
    (n.accepted c prev entries commit).log.take n.commitIndex=n.log.take n.commitIndex := by
  obtain ⟨hlen,-,⟨-,hsame⟩ | ⟨k,e,he,-,hc,htake,-⟩⟩:=appendPlan_spec (validated_index hval) hplan
  · rw [RaftNode.accepted]
    dsimp only
    rw [if_pos hsame]
  · rcases accepted_log n c prev entries commit with ⟨h,-⟩ | h
    · rw [h]
    · have hk : k<entries.length := (List.getElem?_eq_some_iff.mp he).1
      have hboth : (n.log.take prev++entries).take (prev+k)=n.log.take (prev+k) := by
        rw [htake,List.take_append,take_take,length_take]
        congr 2 <;> omega
      calc (n.accepted c prev entries commit).log.take n.commitIndex
          = ((n.log.take prev++entries).take (prev+k)).take n.commitIndex := by
            rw [h,take_take,Nat.min_eq_left hc]
        _ = n.log.take n.commitIndex := by rw [hboth,take_take,Nat.min_eq_left hc]

theorem matched_le (c : NodeId) (commit : ℕ) (hval : validateEntries n.currentTerm prev prevTerm entries=true)
    (hplan : n.appendPlan prev prevTerm entries=some plan) :
    prev+entries.length≤(n.accepted c prev entries commit).log.length := by
  have hlen:=(appendPlan_spec (validated_index hval) hplan).1
  rcases accepted_log n c prev entries commit with ⟨h,hsame⟩ | h
  · have hl:=congrArg List.length hsame
    simp only [length_take,length_append] at hl
    rw [h]
    omega
  · rw [h,length_append,length_take]
    omega

theorem accepted_mem {e : LogEntry} (he : e∈(n.accepted c prev entries commit).log) : e∈n.log ∨ e∈entries := by
  rcases accepted_log n c prev entries commit with ⟨h,-⟩ | h
  · exact .inl (h ▸ he)
  · rw [h,List.mem_append] at he
    exact he.imp List.mem_of_mem_take id

theorem accepted_indexed (h : Indexed n.log) (hval : validateEntries n.currentTerm prev prevTerm entries=true)
    (hplan : n.appendPlan prev prevTerm entries=some plan) : Indexed (n.accepted c prev entries commit).log := by
  have hlen:=(appendPlan_spec (validated_index hval) hplan).1
  rcases accepted_log n c prev entries commit with ⟨hl,-⟩ | hl
  · rw [hl]
    exact h
  · rw [hl]
    intro i e he
    by_cases hi : i<prev
    · rw [List.getElem?_append_left (by rw [length_take]; omega),List.getElem?_take_of_lt hi] at he
      exact h i e he
    · rw [List.getElem?_append_right (by rw [length_take]; omega),length_take,Nat.min_eq_left hlen] at he
      have hidx:=validated_index hval _ e he
      omega

theorem accepted_ordered (h : WellFormed n) (hval : validateEntries n.currentTerm prev prevTerm entries=true)
    (hplan : n.appendPlan prev prevTerm entries=some plan) :
    (n.accepted c prev entries commit).log.Pairwise fun a b => a.term≤b.term := by
  obtain ⟨hlen,hprev,-⟩:=appendPlan_spec (validated_index hval) hplan
  rcases accepted_log n c prev entries commit with ⟨hl,-⟩ | hl
  · rw [hl]
    exact h.ordered
  · rw [hl,List.pairwise_append]
    refine ⟨h.ordered.sublist (List.take_sublist _ _),validateEntries_pairwise hval,?_⟩
    -- the kept prefix ends at the entry whose term the batch was checked against
    intro a ha b hb
    obtain ⟨k,hk⟩:=List.getElem?_of_mem hb
    have hb1:=(validateEntries_get hval k b hk).2.2.2.2
    obtain ⟨i,hi⟩:=List.getElem?_of_mem ha
    have hip : i<prev := by
      have:=(List.getElem?_eq_some_iff.mp hi).1
      rw [length_take] at this
      omega
    rw [List.getElem?_take_of_lt hip] at hi
    obtain ⟨o,ho,hot⟩:=Option.map_eq_some_iff.mp (hprev (by omega))
    obtain ⟨hi1,hi2⟩:=List.getElem?_eq_some_iff.mp hi
    obtain ⟨ho1,ho2⟩:=List.getElem?_eq_some_iff.mp ho
    have hao : a.term≤o.term := by
      by_cases heq : i=prev-1
      · subst heq
        rw [← hi2,← ho2]
      · have:=List.pairwise_iff_getElem.mp h.ordered i (prev-1) hi1 ho1 (by omega)
        rwa [hi2,ho2] at this
    omega

theorem accepted_wellFormed (h : WellFormed n) (hrole : n.role=.follower)
    (hval : validateEntries n.currentTerm prev prevTerm entries=true)
    (hplan : n.appendPlan prev prevTerm entries=some plan)
    (hcap : 40*(n.accepted c prev entries commit).log.length ≤ isizeMax) :
    WellFormed (n.accepted c prev entries commit) := by
  have hentry : ∀ e∈entries, 0<e.term ∧ e.term≤n.currentTerm := by
    intro e he
    obtain ⟨k,hk⟩:=List.getElem?_of_mem he
    have:=validateEntries_get hval k e hk
    exact ⟨this.2.2.1,this.2.2.2.1⟩
  have hprefix:=congrArg List.length (accepted_keeps c commit hval hplan)
  have hmatched:=matched_le c commit hval hplan
  have hcommit:=h.commit_le
  rw [length_take,length_take] at hprefix
  refine ⟨accepted_indexed h.indexed hval hplan,?_,accepted_ordered h hval hplan,?_,rfl,?_,
    fun hr => absurd hrole hr,fun hr => ?_,hcap⟩
  · intro e he
    exact (accepted_mem he).elim (h.positive e) fun hx => (hentry e hx).1
  · intro e he
    exact (accepted_mem he).elim (h.bounded e) fun hx => (hentry e hx).2
  · change max n.commitIndex (min commit (prev+entries.length))≤_
    omega
  · have : n.role=.leader := hr
    rw [hrole] at this
    contradiction

end accept

theorem observeTerm_of_lt {n : RaftNode} {term : ℕ} (h : n.currentTerm<term) :
    n.observeTerm term={n with
      currentTerm := term
      role := .follower
      votedFor := none
      leaderHint := none
      votesReceived := []
      nextIndex := fun _ => none
      matchIndex := fun _ => none
      sentUpper := fun _ => none
      outbox := []} := if_neg (by omega)

theorem WellFormed.append {n : RaftNode} (h : WellFormed n) (cmd : Bytes) (hrole : n.role=.leader)
    (hcap : 40*(n.log.length+1) ≤ isizeMax) :
    WellFormed {n with log:=n.log++[⟨n.currentTerm,n.log.length+1,cmd⟩]} := by
  have hterm:=h.active (by rw [hrole]; decide)
  refine ⟨?_,?_,?_,?_,h.applied,?_,h.active,?_,?_⟩
  · intro i e he
    by_cases hi : i<n.log.length
    · exact h.indexed i e (by rwa [List.getElem?_append_left hi] at he)
    · rw [List.getElem?_append_right (by omega)] at he
      obtain ⟨hlt,rfl⟩:=List.getElem?_eq_some_iff.mp he
      have : i-n.log.length=0 := by simpa using hlt
      simp only [this,List.getElem_cons_zero]
      omega
  · intro e he
    rcases List.mem_append.mp he with he | he
    · exact h.positive e he
    · rw [List.mem_singleton.mp he]
      exact hterm
  · refine List.pairwise_append.mpr ⟨h.ordered,List.pairwise_singleton _ _,?_⟩
    intro a ha b hb
    rw [List.mem_singleton.mp hb]
    exact h.bounded a ha
  · intro e he
    rcases List.mem_append.mp he with he | he
    · exact h.bounded e he
    · rw [List.mem_singleton.mp he]
  · have:=h.commit_le
    simp only [length_append,List.length_singleton]
    omega
  · intro hr p
    have:=h.next_le hr p
    simp only [length_append,List.length_singleton]
    omega
  · simp only [length_append,List.length_singleton]
    exact hcap

theorem move_wellFormed {inp : Input} {n n' : RaftNode} (hm : Move inp n n') (h : WellFormed n) : WellFormed n' := by
  obtain ⟨hix,hpos,hord,hbd,happ,hcl,hact,hnext,hcap⟩:=h
  have h : WellFormed n := ⟨hix,hpos,hord,hbd,happ,hcl,hact,hnext,hcap⟩
  cases hm with
  | timing | refuse | grant | collect | send => exact ⟨hix,hpos,hord,hbd,happ,hcl,hact,hnext,hcap⟩
  | observe term hlt =>
    rw [observeTerm_of_lt hlt]
    exact ⟨hix,hpos,hord,fun e he => (hbd e he).trans hlt.le,happ,hcl,fun hr => absurd rfl hr,
      fun hr => by contradiction,hcap⟩
  | campaign clock _ _ =>
    exact ⟨hix,hpos,hord,fun e he => (hbd e he).trans (Nat.le_succ _),happ,hcl,
      fun _ => Nat.succ_pos _,fun hr => by contradiction,hcap⟩
  | crown now hrole _ =>
    refine ⟨hix,hpos,hord,hbd,happ,hcl,fun _ => hact (by rw [hrole]; decide),?_,hcap⟩
    intro _ p
    simp only [RaftNode.crowned]
    split
    · exact le_rfl
    · simp
  | follow clock c prev prevTerm entries commit _ _ =>
    exact ⟨hix,hpos,hord,hbd,happ,hcl,fun hr => absurd rfl hr,fun hr => by contradiction,hcap⟩
  | accept c prev prevTerm entries commit plan _ _ hrole _ hval hplan hcap' =>
    exact accepted_wellFormed h hrole hval hplan hcap'
  | record v m _ hrole _ hm =>
    refine ⟨hix,hpos,hord,hbd,happ,hcl,hact,?_,hcap⟩
    intro hr p
    have hp:=hnext hr p
    simp only [RaftNode.recordMatch,Function.update_apply]
    split
    · rename_i hpv
      subst hpv
      simp only [Option.getD_some,saturatingAdd]
      omega
    · exact hp
  | commit m hrole _ hlen _ _ => exact ⟨hix,hpos,hord,hbd,rfl,hlen,hact,hnext,hcap⟩
  | retry v k hrole hle =>
    refine ⟨hix,hpos,hord,hbd,happ,hcl,hact,?_,hcap⟩
    intro hr p
    have hp:=hnext hr p
    simp only [Function.update_apply]
    split
    · rename_i hpv
      subst hpv
      simp only [Option.getD_some]
      omega
    · exact hp
  | append cmd _ hrole hcap' => exact h.append cmd hrole hcap'

theorem moves_wellFormed {inp : Input} {n n' : RaftNode} (hm : Moves inp n n')
    (h : WellFormed n) : WellFormed n' := by
  induction hm with
  | refl => exact h
  | tail _ hstep ih => exact move_wellFormed hstep ih

end Parrot.Raft
