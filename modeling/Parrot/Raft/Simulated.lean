import Parrot.Raft.Simulation

/-! # Every move is matched by the abstract protocol

One lemma for each move that changes what the protocol knows; `move_simulated`
and `moves_simulated` put them together. -/

namespace Parrot.Raft
open Function (update_self)
open ReplicatedLog

variable {members : Finset NodeId} {a a' : Ghost} {i : NodeId} {n n' : RaftNode}
  {inp : Input}

theorem lastTerm_log (n : RaftNode) : lastTerm LogEntry.term n.log=n.lastLogTerm := rfl

theorem quorum_eq (h : NodeOk members a i n) : n.quorum=members.card/2+1 := by
  have heq : n.peers.toFinset=members.erase i := by
    ext x
    simp only [List.mem_toFinset,Finset.mem_erase]
    rw [h.peers x]
    exact and_comm
  have hcard : n.peers.length=members.card-1 := by
    rw [← List.toFinset_card_of_nodup h.nodup,heq,Finset.card_erase_of_mem h.member]
  have hpos : 0 < members.card := Finset.card_pos.mpr ⟨i,h.member⟩
  simp only [RaftNode.quorum,hcard]
  omega

theorem observe_simulated (hs : Sound members a) (h : NodeOk members a i n) {term : ℕ} (hlt : n.currentTerm<term)
    (hwf : WellFormed (n.observeTerm term)) (hpub : ∃ handed, Published handed (n.observeTerm term)) : ∃ a',
    Acts members i a a' ∧ NodeOk members a' i (n.observeTerm term) := by
  have hstep : ReplicatedLog.Step LogEntry.term (Majority members) i a _ :=
    .advance a term (by rw [h.term]; exact hlt)
  refine ⟨_,.single hstep,?_⟩
  have hg:=step_grows hs hstep
  rw [observeTerm_of_lt hlt] at hwf hpub ⊢
  exact {h with
    wf := hwf
    published := hpub
    term := update_self ..
    vote := by
      by_contra hne
      have:=hs.voted_le i term hne
      rw [h.term] at this
      omega
    campaigning := nofun
    leading := nofun
    committed := h.committed.mono hg hlt.le
    outbox := nofun}

theorem upToDate_iff {l : List LogEntry} :
    n.upToDate l.length (lastTerm LogEntry.term l)=true ↔ UpToDate LogEntry.term l n.log := by
  unfold RaftNode.upToDate UpToDate
  rw [lastTerm_log]
  simp only [RaftNode.lastLogIndex,gt_iff_lt,ge_iff_le,Bool.or_eq_true,decide_eq_true_eq,
    Bool.and_eq_true,beq_iff_eq]
  constructor <;> rintro (h | ⟨h1,h2⟩)
  · exact .inl h
  · exact .inr ⟨h1.symm,h2⟩
  · exact .inl h
  · exact .inr ⟨h1.symm,h2⟩

theorem grant_simulated (hs : Sound members a) (h : NodeOk members a i n)
    (hin : InputOk members a i inp) {c : NodeId} {li lt now : ℕ}
    (hinp : inp=.message c (.requestVote n.currentTerm c li lt)) (hlog : n.upToDate li lt=true)
    (hfree : n.votedFor=none ∨ n.votedFor=some c)
    (hwf : WellFormed (RaftNode.reply {n with votedFor:=some c,lastHeartbeatMs:=now} c
      (.requestVoteResp n.currentTerm true)))
    (hpub : ∃ handed, Published handed (RaftNode.reply
      {n with votedFor:=some c,lastHeartbeatMs:=now} c
      (.requestVoteResp n.currentTerm true))) :
    ∃ a', Acts members i a a' ∧ NodeOk members a' i (RaftNode.reply
      {n with votedFor:=some c,lastHeartbeatMs:=now} c
      (.requestVoteResp n.currentTerm true)) := by
  obtain ⟨-,l,hcand,hli,hlt⟩:=hin c _ hinp
  subst hli hlt
  rw [upToDate_iff] at hlog
  rcases hfree with hfree | hfree
  · have hstep : ReplicatedLog.Step LogEntry.term (Majority members) i a _ :=
      .vote a c l (by rw [h.term,h.vote,hfree]) (by rw [h.term]; exact hcand)
        (by rw [h.log]; exact hlog)
    refine ⟨_,.single hstep,?_⟩
    have hg:=step_grows hs hstep
    have hvoted : set2 a.voted i (a.term i) (some c) i n.currentTerm=some c := by
      rw [← h.term]
      exact set2_self ..
    refine {h with
      wf := hwf
      published := hpub
      vote := hvoted
      campaigning := ?_
      leading := h.leading
      committed := h.committed.mono hg (le_rfl)
      outbox := ?_}
    · intro hrole
      obtain ⟨h1,h2,h3,h4⟩:=h.campaigning hrole
      exact ⟨h1,h2,h3,fun v hv => ⟨(h4 v hv).1,hg.voted _ _ _ (h4 v hv).2⟩⟩
    · intro m hm
      rcases List.mem_append.mp hm with hm | hm
      · exact (h.outbox m hm).mono hg
      · rw [List.mem_singleton.mp hm]
        exact fun _ => hvoted
  · -- a repeated request for a vote already given
    refine ⟨a,.refl,{h with wf:=hwf,published:=hpub,vote:=h.vote.trans hfree,outbox:=?_}⟩
    intro m hm
    rcases List.mem_append.mp hm with hm | hm
    · exact h.outbox m hm
    · rw [List.mem_singleton.mp hm]
      exact fun _ => h.vote.trans hfree

theorem campaign_simulated (hs : Sound members a) (h : NodeOk members a i n) (clock : Clock)
    (hwf : WellFormed (n.campaign clock)) (hpub : ∃ handed, Published handed (n.campaign clock)) :
    ∃ a', Acts members i a a' ∧ NodeOk members a' i (n.campaign clock) := by
  have hstep : ReplicatedLog.Step LogEntry.term (Majority members) i a _ :=
    .campaign a (n.currentTerm+1) (by rw [h.term]; exact Nat.lt_succ_self _)
  refine ⟨_,.single hstep,?_⟩
  have hg:=step_grows hs hstep
  refine {h with
    wf := hwf
    published := hpub
    term := update_self ..
    vote := (set2_self ..).trans (by rw [RaftNode.campaign,h.id])
    campaigning := ?_
    leading := nofun
    committed := h.committed.mono hg (Nat.le_succ _)
    outbox := ?_}
  · intro _
    refine ⟨(set2_self ..).trans (by rw [h.log]; rfl),?_,List.nodup_singleton _,?_⟩
    · -- this node never led the term it has just entered
      intro hlead
      obtain ⟨-,-,l,hl,-⟩:=hs.elected _ _ hlead
      have:=(hs.cand_le i _ (by rw [hl]; simp)).2
      rw [h.term] at this
      simp only [RaftNode.campaign] at this
      omega
    · intro v hv
      rw [List.mem_singleton.mp hv,h.id]
      exact ⟨h.member,set2_self ..⟩
  · intro m hm
    rcases List.mem_append.mp hm with hm | hm
    · exact (h.outbox m hm).mono hg
    · obtain ⟨p,-,rfl⟩:=List.mem_map.mp hm
      exact ⟨h.id,n.log,(set2_self ..).trans (by rw [h.log]),rfl,rfl⟩

theorem crown_simulated (hs : Sound members a) (h : NodeOk members a i n) (now : ℕ) (hrole : n.role=.candidate)
    (hq : n.quorum≤n.votesReceived.length) (hwf : WellFormed (n.crowned now)) (hpub : ∃ handed,
    Published handed (n.crowned now)) : ∃ a', Acts members i a a' ∧ NodeOk members a' i (n.crowned now) := by
  obtain ⟨hcand,hnot,hnd,hvotes⟩:=h.campaigning hrole
  have hmaj : Majority members n.votesReceived.toFinset := by
    refine ⟨?_,?_⟩
    · intro v hv
      exact (hvotes v (List.mem_toFinset.mp hv)).1
    · rw [List.toFinset_card_of_nodup hnd,← quorum_eq h]
      exact hq
  have hV : ∀ v∈n.votesReceived.toFinset, a.voted v n.currentTerm=some i :=
    fun v hv => (hvotes v (List.mem_toFinset.mp hv)).2
  -- another leader of this term would share a voter with this node
  have hfree : a.leader n.currentTerm=none := by
    by_contra hne
    obtain ⟨c,hc⟩:=Option.ne_none_iff_exists'.mp hne
    obtain ⟨hmaj',hv',-⟩:=hs.elected _ c hc
    obtain ⟨v,hv1,hv2⟩:=majority_inter members _ _ hmaj' hmaj
    have heq:=(hv' v hv1).symm.trans (hV v hv2)
    exact hnot (hc.trans heq)
  have hstep : ReplicatedLog.Step LogEntry.term (Majority members) i a _ :=
    .elect a n.votesReceived.toFinset (by rw [h.term]; exact hfree)
      (by rw [h.term,h.log]; exact hcand) hmaj (by rw [h.term]; exact hV)
  refine ⟨_,.single hstep,?_⟩
  have hg:=step_grows hs hstep
  refine {h with
    wf := hwf
    published := hpub
    campaigning := nofun
    leading := ?_
    committed := h.committed.mono hg (le_rfl)
    outbox := fun m hm => (h.outbox m hm).mono hg}
  intro _
  simp only [RaftNode.crowned,h.term,h.log,update_self]
  refine ⟨trivial,trivial,?_⟩
  intro p m hm
  split at hm
  · rw [← Option.some.inj hm]
    exact Nat.zero_le _
  · contradiction

theorem take_of_termAt {l l' : List LogEntry} (hl : Traced LogEntry.term a l) (hl' : Traced LogEntry.term a l')
    {prev : ℕ} (hlen : prev≤l.length) (hlen' : prev≤l'.length) (hterm : termAt l prev=termAt l' prev) :
    l.take prev=l'.take prev := by
  cases prev with
  | zero => simp
  | succ k =>
    have h1 : l[k]? = some l[k] := List.getElem?_eq_getElem (by omega)
    have h2 : l'[k]? = some l'[k] := List.getElem?_eq_getElem (by omega)
    refine hl.matching hl' h1 h2 ?_
    simpa [termAt,h1,h2] using hterm

theorem accepted_adopt (hs : Sound members a) (h : NodeOk members a i n) {c : NodeId} {prev prevTerm commit : ℕ}
    {entries : List LogEntry} {plan : ℕ × ℕ}
    (hmsg : MsgOk members a c i (.appendEntries n.currentTerm c prev prevTerm entries commit))
    (hval : validateEntries n.currentTerm prev prevTerm entries=true)
    (hplan : n.appendPlan prev prevTerm entries=some plan) : (n.accepted c prev entries commit).log =
    adopt n.log (a.lead n.currentTerm) (prev+entries.length) := by
  obtain ⟨-,-,hlen,hent,hprev,-⟩:=hmsg
  obtain ⟨hle,hterm,-⟩:=appendPlan_spec (validated_index hval) hplan
  have htake : n.log.take prev=(a.lead n.currentTerm).take prev := by
    refine take_of_termAt (h.log ▸ hs.log_traced i) (hs.lead_traced _) hle (by omega) ?_
    by_cases h0 : prev=0
    · subst h0
      rfl
    · rw [← hprev]
      simp [termAt,h0,hterm h0]
  have hbatch : n.log.take prev++entries=(a.lead n.currentTerm).take (prev+entries.length) := by
    rw [htake,List.take_add,← hent]
  have hiff : n.log.take (prev+entries.length)=n.log.take prev++entries ↔
      (a.lead n.currentTerm).take (prev+entries.length)<+:n.log := by
    rw [hbatch,List.prefix_iff_eq_take,List.length_take,Nat.min_eq_left hlen]
    exact eq_comm
  unfold RaftNode.accepted adopt
  dsimp only
  by_cases hp : (a.lead n.currentTerm).take (prev+entries.length)<+:n.log
  · rw [if_pos hp,if_pos (hiff.mpr hp)]
  · rw [if_neg hp,if_neg (fun hx => hp (hiff.mp hx)),hbatch]

theorem accept_simulated (hs : Sound members a) (h : NodeOk members a i n) (hin : InputOk members a i inp)
    {c : NodeId} {prev prevTerm commit : ℕ} {entries : List LogEntry} {plan : ℕ × ℕ}
    (hinp : inp=.message c (.appendEntries n.currentTerm c prev prevTerm entries commit)) (hrole : n.role=.follower)
    (hval : validateEntries n.currentTerm prev prevTerm entries=true)
    (hplan : n.appendPlan prev prevTerm entries=some plan) (hwf : WellFormed (n.accepted c prev entries commit))
    (hpub : ∃ handed, Published handed (n.accepted c prev entries commit)) : ∃ a', Acts members i a a' ∧
    NodeOk members a' i (n.accepted c prev entries commit) := by
  have hmsg:=hin c _ hinp
  have hlog:=accepted_adopt hs h hmsg hval hplan
  obtain ⟨-,hlead,hlen,-,-,hcom,hfix⟩:=hmsg
  have hstep : ReplicatedLog.Step LogEntry.term (Majority members) i a _ :=
    .accept a c (prev+entries.length) (by rw [h.term]; exact hlead) (by rw [h.term]; exact hlen)
  refine ⟨_,.single hstep,?_⟩
  have hg:=step_grows hs hstep
  have hfollower : (n.accepted c prev entries commit).role=.follower := hrole
  refine {h with
    wf := hwf
    published := hpub
    log := (update_self ..).trans (by rw [h.log,h.term,hlog])
    vote := h.vote
    campaigning := by rw [hfollower]; nofun
    leading := by rw [hfollower]; nofun
    committed := ?_
    outbox := ?_}
  · -- the old committed prefix survives, the new one is the leader's
    refine Decided.mono hg (le_rfl) ?_
    change Fixed members a n.currentTerm ((n.accepted c prev entries commit).log.take
      (max n.commitIndex (min commit (prev+entries.length))))
    rw [hlog]
    have hcl:=h.wf.commit_le
    have hold : n.log.take n.commitIndex<+:adopt n.log (a.lead n.currentTerm) (prev+entries.length) :=
      prefix_adopt (List.take_prefix _ _)
        (h.committed.prefix_lead (majority_inter members) hs (le_rfl) (by simp [hlead]))
    have hnew:=take_adopt n.log (a.lead n.currentTerm) (prev+entries.length)
    rcases Nat.le_total (min commit (prev+entries.length)) n.commitIndex with hle | hle
    · rw [Nat.max_eq_left hle]
      have:=List.prefix_iff_eq_take.mp hold
      rw [List.length_take,Nat.min_eq_left hcl] at this
      rw [← this]
      exact h.committed
    · rw [Nat.max_eq_right hle]
      obtain ⟨r,hr⟩:=hnew
      rw [← hr,List.take_append_of_le_length (by rw [List.length_take]; omega),List.take_take]
      exact hfix.shorter (List.take_prefix_take_left (by omega))
  · intro m hm
    rcases List.mem_append.mp hm with hm | hm
    · exact (h.outbox m hm).mono hg
    · rw [List.mem_singleton.mp hm]
      intro _
      change _ ≤ set2 a.acked i (a.term i) _ i n.currentTerm
      rw [← h.term,set2_self]
      exact Nat.le_max_left _ _

theorem append_simulated (hs : Sound members a) (h : NodeOk members a i n) (cmd : Bytes)
    (hrole : n.role=.leader)
    (hwf : WellFormed {n with log:=n.log++[⟨n.currentTerm,n.log.length+1,cmd⟩]})
    (hpub : ∃ handed, Published handed {n with log:=n.log++[⟨n.currentTerm,n.log.length+1,cmd⟩]}) :
    ∃ a', Acts members i a a' ∧
      NodeOk members a' i {n with log:=n.log++[⟨n.currentTerm,n.log.length+1,cmd⟩]} := by
  obtain ⟨hlead,hlog,hm⟩:=h.leading hrole
  have hstep : ReplicatedLog.Step LogEntry.term (Majority members) i a _ :=
    .propose a ⟨n.currentTerm,n.log.length+1,cmd⟩ (by rw [h.term]; exact hlead)
      (by rw [h.term,h.log]; exact hlog) h.term.symm
  refine ⟨_,.single hstep,?_⟩
  have hg:=step_grows hs hstep
  refine {h with
    wf := hwf
    published := hpub
    log := (update_self ..).trans (by rw [h.log])
    vote := h.vote
    campaigning := by rw [hrole]; nofun
    leading := ?_
    committed := ?_
    outbox := fun m hm => (h.outbox m hm).mono hg}
  · intro _
    refine ⟨hlead,?_,hm⟩
    dsimp only
    rw [h.term,update_self,h.log]
  · dsimp only
    rw [List.take_append_of_le_length h.wf.commit_le]
    exact h.committed.mono hg (le_rfl)

def holders (n : RaftNode) (m : ℕ) : Finset NodeId :=
  (n.peers.filter fun p => m ≤ min ((n.matchIndex p).getD 0) n.lastLogIndex).toFinset ∪ {n.id}

theorem holders_majority (h : NodeOk members a i n) {m : ℕ}
    (hmaj : n.quorum≤(n.indexes.filter (m ≤ ·)).length) : Majority members (holders n m) := by
  have hself : n.id∉(n.peers.filter fun p =>
      m ≤ min ((n.matchIndex p).getD 0) n.lastLogIndex).toFinset := by
    rw [List.mem_toFinset,List.mem_filter,h.id]
    exact fun hx => ((h.peers i).mp hx.1).2 rfl
  constructor
  · intro x hx
    rcases Finset.mem_union.mp hx with hx | hx
    · exact ((h.peers x).mp (List.mem_of_mem_filter (List.mem_toFinset.mp hx))).1
    · rw [Finset.mem_singleton.mp hx,h.id]
      exact h.member
  · rw [← quorum_eq h]
    refine hmaj.trans ?_
    unfold holders
    rw [Finset.card_union_of_disjoint (Finset.disjoint_singleton_right.mpr hself),
      Finset.card_singleton,List.toFinset_card_of_nodup (h.nodup.filter _)]
    simp only [RaftNode.indexes,List.filter_append,List.length_append,List.filter_map,
      List.length_map,Function.comp_def]
    exact Nat.add_le_add_left (List.length_filter_le _ _) _

theorem commit_simulated (hs : Sound members a) (h : NodeOk members a i n) {m : ℕ} (hrole : n.role=.leader)
    (hnew : n.commitIndex < m) (hlen : m≤n.log.length) (hterm : termAt n.log m=n.currentTerm)
    (hmaj : n.quorum≤(n.indexes.filter (m ≤ ·)).length) (hwf : WellFormed (n.advanced m)) (hpub : ∃ handed,
    Published handed (n.advanced m)) : ∃ a', Acts members i a a' ∧ NodeOk members a' i (n.advanced m) := by
  obtain ⟨hlead,hlog,hmatch⟩:=h.leading hrole
  -- the leader counts itself: it acknowledges its own log
  have hstep : ReplicatedLog.Step LogEntry.term (Majority members) i a _ :=
    .accept a i n.log.length (by rw [h.term]; exact hlead) (by rw [h.term,hlog])
  have hsame : adopt (a.log i) (a.lead (a.term i)) n.log.length=n.log := by
    rw [h.log,h.term,hlog,adopt,if_pos (List.take_prefix _ _)]
  have hg:=step_grows hs hstep
  have hcom : Committed LogEntry.term (Majority members) {a with
      log := Function.update a.log i (adopt (a.log i) (a.lead (a.term i)) n.log.length)
      acked := set2 a.acked i (a.term i) (max n.log.length (a.acked i (a.term i)))}
      n.currentTerm m := by
    have hget : n.log[m-1]? = some n.log[m-1] := List.getElem?_eq_getElem (by omega)
    refine ⟨by simp [hlead],by omega,⟨n.log[m-1],?_,?_⟩,holders n m,holders_majority h hmaj,?_⟩
    · dsimp only
      rw [hlog]
      exact hget
    · simpa [termAt,hget,show m≠0 by omega] using hterm
    · intro x hx
      rcases Finset.mem_union.mp hx with hx | hx
      · have hx':=List.of_mem_filter (List.mem_toFinset.mp hx)
        rw [decide_eq_true_eq] at hx'
        refine le_trans ?_ (hg.acked_le x n.currentTerm)
        cases hmx : n.matchIndex x with
        | none =>
          rw [hmx,Option.getD_none] at hx'
          omega
        | some k =>
          rw [hmx,Option.getD_some] at hx'
          exact (hx'.trans (Nat.min_le_left _ _)).trans (hmatch x k hmx)
      · rw [Finset.mem_singleton.mp hx,h.id]
        change m ≤ set2 a.acked i (a.term i) _ i n.currentTerm
        rw [← h.term,set2_self]
        exact hlen.trans (Nat.le_max_left _ _)
  refine ⟨_,.single hstep,{h with
    wf := hwf
    published := hpub
    log := (update_self ..).trans hsame
    vote := h.vote
    campaigning := h.campaigning
    leading := fun _ => ⟨hlead,hlog,fun p k hp => (hmatch p k hp).trans (hg.acked_le _ _)⟩
    committed := .inr ⟨n.currentTerm,m,le_rfl,hcom,by dsimp only; rw [hlog]; rfl⟩
    outbox := fun x hx => (h.outbox x hx).mono hg}⟩

theorem move_simulated (hs : Sound members a) (h : NodeOk members a i n) (hin : InputOk members a i inp)
    (hm : Move inp n n') : ∃ a', Acts members i a a' ∧ NodeOk members a' i n' := by
  have hwf:=move_wellFormed hm h.wf
  have hpub : ∃ handed, Published handed n' := by
    obtain ⟨handed,hp⟩:=h.published
    exact ⟨handed,(move_progress hm h.wf).published handed hp⟩
  cases hm with
  | timing | retry => exact ⟨a,.refl,{h with wf:=hwf,published:=hpub}⟩
  | observe term hlt => exact observe_simulated hs h hlt hwf hpub
  | refuse dest rpc hr =>
    refine ⟨a,.refl,{h with wf:=hwf,published:=hpub,outbox:=?_}⟩
    intro m hm
    rcases List.mem_append.mp hm with hm | hm
    · exact h.outbox m hm
    · rw [List.mem_singleton.mp hm]
      rcases hr with rfl | rfl <;> exact nofun
  | grant c li lt now hinp hpeer hlog hfree => exact grant_simulated hs h hin hinp hlog hfree hwf hpub
  | campaign clock hrole => exact campaign_simulated hs h clock hwf hpub
  | collect v hinp hrole hpeer hnew =>
    refine ⟨a,.refl,{h with wf:=hwf,published:=hpub,campaigning:=?_}⟩
    intro _
    obtain ⟨h1,h2,h3,h4⟩:=h.campaigning hrole
    refine ⟨h1,h2,List.nodup_append.mpr ⟨h3,List.nodup_singleton _,?_⟩,?_⟩
    · intro x hx y hy hxy
      exact hnew (List.mem_singleton.mp hy ▸ hxy ▸ hx)
    · intro x hx
      rcases List.mem_append.mp hx with hx | hx
      · exact h4 x hx
      · rw [List.mem_singleton.mp hx]
        exact ⟨((h.peers v).mp hpeer).1,hin v _ hinp rfl⟩
  | crown now hrole hq => exact crown_simulated hs h now hrole hq hwf hpub
  | send su msgs hrole hmsg =>
    obtain ⟨hlead,hlog,-⟩:=h.leading hrole
    refine ⟨a,.refl,{h with wf:=hwf,published:=hpub,outbox:=?_}⟩
    intro m hm
    rcases List.mem_append.mp hm with hm | hm
    · exact h.outbox m hm
    · obtain ⟨-,prev,entries,hlen,hent,-,hrpc⟩:=hmsg m hm
      rw [hrpc]
      refine ⟨h.id,hlead,?_⟩
      rw [hlog]
      exact ⟨hlen,hent,rfl,h.wf.commit_le,h.committed⟩
  | follow clock c prev prevTerm entries commit hinp hpeer =>
    exact ⟨a,.refl,{h with wf:=hwf,published:=hpub,campaigning:=nofun,leading:=nofun}⟩
  | accept c prev prevTerm entries commit plan hinp hpeer hrole hpos hval hplan hcap =>
    exact accept_simulated hs h hin hinp hrole hval hplan hwf hpub
  | record v m hinp hrole hpeer hm =>
    refine ⟨a,.refl,{h with wf:=hwf,published:=hpub,leading:=?_}⟩
    intro _
    obtain ⟨hlead,hlog,hmatch⟩:=h.leading hrole
    refine ⟨hlead,hlog,?_⟩
    intro p k hp
    simp only [RaftNode.recordMatch,Function.update_apply] at hp
    split at hp
    · rename_i hpv
      rw [hpv,← Option.some.inj hp]
      refine Nat.max_le.mpr ⟨?_,hin v _ hinp rfl⟩
      cases hv : n.matchIndex v with
      | none => exact Nat.zero_le _
      | some x => exact hmatch v x hv
    · exact hmatch p k hp
  | commit m hrole hnew hlen hterm hmaj =>
    exact commit_simulated hs h hrole hnew hlen hterm hmaj hwf hpub
  | append cmd _ hrole hcap => exact append_simulated hs h cmd hrole hwf hpub

theorem moves_simulated (hs : Sound members a) (h : NodeOk members a i n) (hin : InputOk members a i inp)
    (hm : Moves inp n n') : ∃ a', Acts members i a a' ∧ NodeOk members a' i n' := by
  induction hm with
  | refl => exact ⟨a,.refl,h⟩
  | tail _ hstep ih =>
    obtain ⟨b,hab,hb⟩:=ih
    obtain ⟨c,hbc,hc⟩:=move_simulated (run_coherent hab hs) hb (hin.mono (run_grows hab hs)) hstep
    exact ⟨c,hab.trans hbc,hc⟩

end Parrot.Raft
