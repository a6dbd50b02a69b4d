import Parrot.Lib.Limited
import Parrot.Raft.Cluster
import Parrot.Raft.Fit

/-! # Snapshots that fit (`raft/storage.rs:338-366`, `raft/storage.rs:426-489`)

`check_log_capacity` is asked before the log changes, for the largest snapshot that log can ever
need. -/

namespace Parrot.Raft
open List (append_nil length_append mem_cons_self length_cons)
open Machine
open Bincode (Limited Fields scalar)

def entryLimited : Limited entryCodec :=
  (Limited.struct (.cons (scalar Bincode.u64) (.cons (scalar Bincode.u64)
    (.one (scalar Bincode.u8).list)))).via

def savedLimited : Limited savedCodec :=
  (Limited.struct (.cons (scalar Bincode.u8) (.cons (scalar Bincode.string)
    (.cons (scalar Bincode.string) (.cons (scalar Bincode.string).list (.cons (scalar Bincode.u64)
    (.cons (scalar Bincode.string).option (.cons entryLimited.list
    (.one (scalar Bincode.u64)))))))))).via

def SnapshotCodec.bounded : SnapshotCodec where
  encode := savedCodec.encode
  decode := savedLimited.decode ⟨maxSnapshot,maxSnapshot+maxEntries*8,64⟩
  digest := Sha256.digest
  decode_encode := by
    intro s s' h
    have hdec:=(Limited.decode_sound h).2
    have henc:=savedCodec.decode_encode s []
    rw [append_nil,hdec] at henc
    split at henc
    · exact congrArg Prod.fst (Option.some.inj henc)
    · contradiction
  digest_length := Sha256.digest_length

def Input.quiet : Input → Bool
  | .message _ (.appendEntries ..) => false
  | .command _ => false
  | _ => true

variable {good : Bytes → Prop} {n n' : RaftNode} {inp : Input}

theorem move_log (hm : Move inp n n') (hq : inp.quiet=true) : n'.log=n.log := by
  cases hm with
  | observe term hlt hinp => rw [observeTerm_of_lt hlt]
  | accept c prev prevTerm entries commit plan hinp hpeer hrole hpos hval hplan hcap =>
    rw [hinp] at hq
    contradiction
  | append cmd hinp hrole hcap =>
    rw [hinp] at hq
    contradiction
  | _ => rfl

theorem moves_log (hm : Moves inp n n') (hq : inp.quiet=true) : n'.log=n.log := by
  induction hm with
  | refl => rfl
  | tail _ hstep ih => exact (move_log hstep hq).trans ih

def RaftNode.planned (n : RaftNode) (sender : NodeId) : RaftRpc → List LogEntry
  | .appendEntries term leader prevLogIndex prevLogTerm entries _ =>
    if term≥n.currentTerm ∧ leader=sender ∧ sender∈n.peers then
      match n.appendPlan prevLogIndex prevLogTerm entries with
      | some (keep,skip) => n.log.take keep++entries.drop skip
      | none => n.log
    else n.log
  | _ => n.log

theorem observeTerm_log (n : RaftNode) (term : ℕ) :
    (n.observeTerm term).log=n.log ∧ (n.observeTerm term).commitIndex=n.commitIndex := by
  unfold RaftNode.observeTerm
  split <;> exact ⟨rfl,rfl⟩

theorem validateShape_append {term prev prevTerm commit : ℕ} {leader : NodeId} {entries : List LogEntry}
    (h : (RaftRpc.appendEntries term leader prev prevTerm entries commit).validateShape=.ok ()) :
    position prev prevTerm term=true ∧ validateEntries term prev prevTerm entries=true := by
  simp only [RaftRpc.validateShape] at h
  split at h
  · contradiction
  · rename_i hpos
    push Not at hpos
    split at h
    · contradiction
    · rename_i hval
      exact ⟨by simpa using hpos.2,by simpa using hval⟩

theorem stepAppend_planned (h : WellFormed n) (clock : Clock) {sender leader : NodeId}
    {term prev prevTerm commit : ℕ} {entries : List LogEntry}
    (hshape : (RaftRpc.appendEntries term leader prev prevTerm entries commit).validateShape=.ok ())
    (hcap : 40*(n.planned sender (.appendEntries term leader prev prevTerm entries commit)).length ≤ isizeMax) :
    ∃ n', n.stepAppend clock sender term leader prev prevTerm entries commit=.ok n' ∧
      n'.log=n.planned sender (.appendEntries term leader prev prevTerm entries commit) := by
  obtain ⟨hpos,hval⟩:=validateShape_append hshape
  unfold RaftNode.stepAppend
  simp only [RaftNode.planned] at hcap ⊢
  split
  · rename_i hs
    rw [if_neg (by tauto)]
    exact ⟨n,rfl,rfl⟩
  · rename_i hs
    push Not at hs
    obtain ⟨rfl,hpeer⟩:=hs
    split
    · rename_i hlt
      rw [if_neg (by omega)]
      exact ⟨_,rfl,rfl⟩
    · rename_i hle
      rw [if_pos ⟨Nat.le_of_not_lt hle,rfl,hpeer⟩] at hcap ⊢
      obtain ⟨hmoves,hterm,hpeers⟩:=@observeTerm_moves
        (.message sender (.appendEntries term sender prev prevTerm entries commit)) n sender _ _ rfl rfl
        (Nat.le_of_not_lt hle)
      obtain ⟨hlog,hcommit⟩:=observeTerm_log n term
      have hwf : WellFormed ((n.observeTerm term).follow clock sender) :=
        moves_wellFormed (hmoves.tail (.follow _ clock sender prev prevTerm entries commit
          (by rw [hterm]; rfl) (by rw [hpeers]; exact hpeer))) h
      generalize hx : (n.observeTerm term).follow clock sender=x at hwf ⊢
      have hxlog : x.log=n.log := by rw [← hx]; exact hlog
      have hxterm : x.currentTerm=term := by rw [← hx]; exact hterm
      -- the plan reads the log and the commit index, which a new term leaves alone
      have hplan : x.appendPlan prev prevTerm entries=n.appendPlan prev prevTerm entries := by
        have hxcommit : x.commitIndex=n.commitIndex := by rw [← hx]; exact hcommit
        unfold RaftNode.appendPlan
        rw [hxlog,hxcommit]
      subst hxterm
      rw [hplan]
      cases hp : n.appendPlan prev prevTerm entries with
      | none => exact ⟨_,rfl,hxlog⟩
      | some plan =>
        rw [hp] at hplan hcap
        dsimp only at hcap ⊢
        have hacc : (x.accepted sender prev entries commit).log=x.log.take plan.1++entries.drop plan.2 :=
          (applied_log (validated_index hval) hplan).symm
        rw [hxlog] at hacc
        exact ⟨_,applyPlan_ok hwf sender commit hval hplan (by rw [hacc]; exact hcap),hacc⟩

theorem step_planned (h : WellFormed n) (clock : Clock) (sender : NodeId) {rpc : RaftRpc}
    (hshape : rpc.validateShape=.ok ()) (hcap : 40*(n.planned sender rpc).length ≤ isizeMax) : ∃ n',
    n.step clock sender rpc=.ok n' ∧ Moves (.message sender rpc) n n' ∧ n'.log=n.planned sender rpc := by
  have hmoves : ∀ {n'}, n.step clock sender rpc=.ok n' → Moves (.message sender rpc) n n' := by
    intro n' hn'
    rcases step_handled h clock sender rpc with ⟨x,hx,hm⟩ | herr
    · obtain rfl:=Except.ok.inj (hx.symm.trans hn')
      exact hm
    · rw [herr] at hn'
      contradiction
  have hquiet : ∀ {r : Except Panic RaftNode}, n.step clock sender rpc=r →
      Moved (.message sender rpc) n r → Input.quiet (.message sender rpc)=true →
      n.planned sender rpc=n.log → ∃ n', n.step clock sender rpc=.ok n' ∧
        Moves (.message sender rpc) n n' ∧ n'.log=n.planned sender rpc := by
    rintro r hr ⟨x,rfl,hm⟩ hq hp
    exact ⟨x,hr,hm,(moves_log hm hq).trans hp.symm⟩
  cases rpc with
  | requestVote term candidate li lt =>
    refine hquiet rfl ?_ rfl rfl
    unfold RaftNode.step
    rw [hshape]
    exact ⟨_,rfl,stepRequestVote_moves clock rfl⟩
  | requestVoteResp term granted => exact hquiet rfl (stepVoteResp_moved h clock rfl) rfl rfl
  | appendEntries term leader prev prevTerm entries commit =>
    obtain ⟨n',hn',hlog⟩:=stepAppend_planned h clock hshape hcap
    have hstep : n.step clock sender (.appendEntries term leader prev prevTerm entries commit)=.ok n' := by
      unfold RaftNode.step
      rw [hshape]
      exact hn'
    exact ⟨n',hstep,hmoves hstep,hlog⟩
  | appendEntriesResp term success matched => exact hquiet rfl (stepAppendResp_moved h rfl) rfl rfl

theorem propose_planned (h : WellFormed n) (hrole : n.role=.leader) (cmd : Bytes)
    (hcap : 40*(n.log.length+1) ≤ isizeMax) : ∃ n', n.propose cmd=.ok (.ok (n.log.length+1),n') ∧
    Moves (.command cmd) n n' ∧ n'.log=n.log++[⟨n.currentTerm,n.log.length+1,cmd⟩] := by
  have hext : extend 40 n.log [⟨n.currentTerm,n.log.length+1,cmd⟩] =
      .ok (n.log++[⟨n.currentTerm,n.log.length+1,cmd⟩]) := if_pos (by simpa using hcap)
  have hmove : Move (.command cmd) n {n with log:=n.log++[⟨n.currentTerm,n.log.length+1,cmd⟩]} :=
    .append n cmd rfl hrole hcap
  have hwf:=move_wellFormed hmove h
  obtain ⟨x,hx,hxm⟩:=@broadcastAppend_moved .clock _ hwf hrole
  have hlog : ∃ n', n.propose cmd=.ok (.ok (n.log.length+1),n') ∧
      n'.log=n.log++[⟨n.currentTerm,n.log.length+1,cmd⟩] := by
    unfold RaftNode.propose
    rw [if_neg (by simp [hrole]),add_ok h.length_lt]
    simp only [bind,Except.bind]
    rw [hext]
    dsimp only
    rw [hx]
    dsimp only
    split
    · have hxrole : x.role=.leader := by
        obtain ⟨su,msgs,heq,-⟩:=broadcastAppend_spec
          (n := {n with log:=n.log++[⟨n.currentTerm,n.log.length+1,cmd⟩]}) hrole hwf.indexed
          fun p _ => hwf.next_le hrole p
        rw [heq] at hx
        rw [← Except.ok.inj hx]
        exact hrole
      obtain ⟨y,hy,hym⟩:=@advanceCommit_moved .clock _ (moves_wellFormed hxm hwf) hxrole
      rw [hy]
      exact ⟨y,rfl,(moves_log hym rfl).trans (moves_log hxm rfl)⟩
    · exact ⟨x,rfl,moves_log hxm rfl⟩
  obtain ⟨n',hn',hlog⟩:=hlog
  refine ⟨n',hn',?_,hlog⟩
  rcases propose_handled h cmd with ⟨r,y,hy,hm⟩ | herr
  · obtain ⟨-,rfl⟩:=Prod.mk.inj (Except.ok.inj (hy.symm.trans hn'))
    exact hm
  · rw [herr] at hn'
    contradiction

theorem saved_length (s : Saved) : (savedCodec.encode s).length =
    1+(Bincode.string.encode s.cluster).length+(Bincode.string.encode s.id).length+
      (Bincode.string.list.encode s.peers).length+(Bincode.u64.encode s.term).length+
      (Bincode.string.option.encode s.vote).length+(entryCodec.list.encode s.log).length+
      (Bincode.u64.encode s.commit).length := by
  simp only [savedCodec,Bincode.Codec.via,Bincode.Codec.pair,Bincode.u8,length_append,List.length_singleton]
  omega

theorem entries_length (log : List LogEntry) : (entryCodec.list.encode log).length =
    (Bincode.u64.encode log.length).length+(log.map fun e => (entryCodec.encode e).length).sum := by
  simp only [Bincode.Codec.list,length_append,List.length_flatMap]

theorem entry_length (e : LogEntry) : (entryCodec.encode e).length =
    (Bincode.u64.encode e.term).length+(Bincode.u64.encode e.index).length+
      (Bincode.u64.encode e.cmd.length).length+e.cmd.length := by
  have hb:=Bincode.bytes_length e.cmd
  simp only [entryCodec,Bincode.Codec.via,Bincode.Codec.pair,length_append]
  omega

theorem string_length_mono {s t : String} (h : s.utf8ByteSize≤t.utf8ByteSize)
    (ht : t.utf8ByteSize≤1024) : (Bincode.string.encode s).length≤(Bincode.string.encode t).length := by
  have hu:=Bincode.u64_mono h (ht.trans_lt (by decide))
  rw [Bincode.string_length,Bincode.string_length]
  omega

theorem string_length_le {s : String} (h : s.utf8ByteSize≤1024) : (Bincode.string.encode s).length≤1027 := by
  have hu:=Bincode.u64_le_three (n := s.utf8ByteSize) (by omega)
  rw [Bincode.string_length]
  omega

theorem longest_fold {P : NodeId → Prop} (peers : List NodeId) {id : NodeId} (hid : P id)
    (hpeers : ∀ p∈peers, P p) :
    let best:=peers.foldl (fun best p => if best.utf8ByteSize≤p.utf8ByteSize then p else best) id
    P best ∧ id.utf8ByteSize≤best.utf8ByteSize ∧ ∀ p∈peers, p.utf8ByteSize≤best.utf8ByteSize := by
  induction peers generalizing id with
  | nil => exact ⟨hid,le_rfl,nofun⟩
  | cons p peers ih =>
    have hp:=hpeers p mem_cons_self
    have hrest:=fun q hq => hpeers q (List.mem_cons_of_mem p hq)
    simp only [List.foldl_cons]
    split
    · rename_i hle
      obtain ⟨h1,h2,h3⟩:=ih hp hrest
      refine ⟨h1,hle.trans h2,?_⟩
      intro q hq
      rcases List.mem_cons.mp hq with rfl | hq
      · exact h2
      · exact h3 q hq
    · rename_i hle
      obtain ⟨h1,h2,h3⟩:=ih hid hrest
      refine ⟨h1,h2,?_⟩
      intro q hq
      rcases List.mem_cons.mp hq with rfl | hq
      · omega
      · exact h3 q hq

structure Roomy (cluster : String) (n : RaftNode) : Prop where
  cluster_le : cluster.utf8ByteSize≤1024
  id_le : n.id.utf8ByteSize≤1024
  peers_few : n.peers.length≤255
  peers_le : ∀ p∈n.peers, p.utf8ByteSize≤1024
  count : n.log.length ≤ maxEntries
  room : 40+(savedCodec.encode (DurableRaft.reserved (snapshot n cluster) n.log [])).length ≤ maxSnapshot

variable {cluster : String}

theorem longestVoter_spec (h : Roomy cluster n) : (DurableRaft.longestVoter (snapshot n cluster)).utf8ByteSize≤1024 ∧
    ∀ v, v=n.id ∨ v∈n.peers → v.utf8ByteSize≤(DurableRaft.longestVoter (snapshot n cluster)).utf8ByteSize := by
  obtain ⟨h1,h2,h3⟩:=longest_fold (P := fun p => p.utf8ByteSize≤1024) n.peers h.id_le h.peers_le
  refine ⟨h1,?_⟩
  rintro v (rfl | hv)
  · exact h2
  · exact h3 v hv

theorem max_length : (Bincode.u64.encode u64Max).length=9 := by decide

theorem snapshot_length (hf : Fit good n) (h : Roomy cluster n) :
    40+(savedCodec.encode (snapshot n cluster)).length ≤ maxSnapshot := by
  obtain ⟨hlong,hvoter⟩:=longestVoter_spec h
  have hroom:=h.room
  rw [saved_length] at hroom ⊢
  simp only [DurableRaft.reserved,snapshot,append_nil,max_length] at hroom ⊢
  have hterm:=Bincode.u64_le_nine n.currentTerm
  have hcommit:=Bincode.u64_le_nine n.commitIndex
  have hvote : (Bincode.string.option.encode n.votedFor).length ≤
      (Bincode.string.option.encode (some (DurableRaft.longestVoter (snapshot n cluster)))).length := by
    cases hv : n.votedFor with
    | none =>
      simp only [Bincode.Codec.option,length_cons,List.length_nil]
      omega
    | some v =>
      have:=string_length_mono (hvoter v (hf.voted v hv).2) hlong
      simp only [Bincode.Codec.option,length_cons]
      omega
  simp only [snapshot] at hvote
  omega

theorem normalizePeers_length (id : NodeId) (peers : List NodeId) :
    (normalizePeers id peers).length≤peers.length := by
  rw [normalizePeers_eq]
  calc _≤((peers.filter fun peer => peer≠id).mergeSort fun a b => decide (a≤b)).length :=
        (List.dedup_sublist _).length_le
    _ = (peers.filter fun peer => peer≠id).length := List.length_mergeSort _
    _ ≤ peers.length := List.length_filter_le _ _

theorem strings_length {l : List String} (h : ∀ p∈l, p.utf8ByteSize≤1024) :
    (Bincode.string.list.encode l).length≤9+1027*l.length := by
  have hu:=Bincode.u64_le_nine l.length
  have hsum : (l.flatMap Bincode.string.encode).length≤1027*l.length := by
    induction l with
    | nil => simp
    | cons p l ih =>
      have hp:=string_length_le (h p mem_cons_self)
      have:=ih (fun q hq => h q (List.mem_cons_of_mem p hq)) (Bincode.u64_le_nine _)
      simp only [List.flatMap_cons,length_append,length_cons]
      omega
  simp only [Bincode.Codec.list,length_append]
  omega

theorem roomy_new (clock : Clock) {id : NodeId} {peers : List NodeId} (hcluster : cluster.utf8ByteSize≤1024)
    (hid : id.utf8ByteSize≤1024) (hfew : peers.length≤255) (hpeers : ∀ p∈peers, p.utf8ByteSize≤1024) :
    Roomy cluster (RaftNode.new clock id peers) := by
  have hlen:=normalizePeers_length id peers
  have hnorm : ∀ p∈normalizePeers id peers, p.utf8ByteSize≤1024 := fun p hp => hpeers p (mem_normalizePeers.mp hp).1
  obtain ⟨hlong,-⟩:=longest_fold (P := fun p => p.utf8ByteSize≤1024) (normalizePeers id peers) hid hnorm
  refine ⟨hcluster,hid,?_,hnorm,Nat.zero_le _,?_⟩
  · change (normalizePeers id peers).length≤255
    omega
  · have h1:=string_length_le hcluster
    have h2:=string_length_le hid
    have h3:=strings_length hnorm
    have h4:=string_length_le hlong
    rw [saved_length]
    simp only [DurableRaft.reserved,DurableRaft.longestVoter,snapshot,RaftNode.new,append_nil,max_length,
      Bincode.Codec.option,length_cons]
    have h5 : (entryCodec.list.encode []).length=1 := rfl
    rw [h5]
    unfold maxSnapshot
    omega

theorem Roomy.of_log (h : Roomy cluster n) (hid : n'.id=n.id) (hpeers : n'.peers=n.peers)
    {kept added : List LogEntry} (hlog : n'.log=kept++added) (hcount : kept.length+added.length ≤ maxEntries)
    (hroom : 40+(savedCodec.encode (DurableRaft.reserved (snapshot n cluster) kept added)).length ≤ maxSnapshot) :
    Roomy cluster n' := by
  refine ⟨h.cluster_le,by rw [hid]; exact h.id_le,by rw [hpeers]; exact h.peers_few,
    by rw [hpeers]; exact h.peers_le,by rw [hlog,length_append]; exact hcount,?_⟩
  have heq : DurableRaft.reserved (snapshot n' cluster) n'.log [] =
      DurableRaft.reserved (snapshot n cluster) kept added := by
    simp only [DurableRaft.reserved,DurableRaft.longestVoter,snapshot,hid,hpeers,hlog,append_nil]
  rw [heq]
  exact hroom

theorem Roomy.same_log (h : Roomy cluster n) (hid : n'.id=n.id) (hpeers : n'.peers=n.peers)
    (hlog : n'.log=n.log) : Roomy cluster n' := by
  have hkept : n'.log=n.log++[] := by rw [hlog,append_nil]
  exact h.of_log hid hpeers hkept h.count h.room

theorem validateOrder_intro {term : ℕ} {log : List LogEntry} {i previousTerm : ℕ}
    (hidx : ∀ k e, log[k]? = some e → e.index=i+k+1) (hterm : ∀ e∈log, 0<e.term ∧ e.term≤term ∧ previousTerm≤e.term)
    (hord : log.Pairwise fun a b => a.term≤b.term) : validateOrder term i previousTerm log=true := by
  induction log generalizing i previousTerm with
  | nil => rfl
  | cons x xs ih =>
    have hx:=hidx 0 x rfl
    obtain ⟨hpos,hle,hprev⟩:=hterm x mem_cons_self
    obtain ⟨hfirst,hrest⟩:=List.pairwise_cons.mp hord
    rw [validateOrder,if_neg (by omega)]
    refine ih ?_ ?_ hrest
    · intro k e he
      have:=hidx (k+1) e (by simpa using he)
      omega
    · intro e he
      obtain ⟨h1,h2,-⟩:=hterm e (List.mem_cons_of_mem x he)
      exact ⟨h1,h2,hfirst e he⟩

theorem snapshot_valid (hf : Fit good n) (h : Roomy cluster n) : (snapshot n cluster).validate=.ok () := by
  have horder : validateOrder n.currentTerm 0 0 n.log=true := by
    refine validateOrder_intro ?_ ?_ hf.wf.ordered
    · intro k e he
      have:=hf.wf.indexed k e he
      omega
    · exact fun e he => ⟨hf.wf.positive e he,hf.wf.bounded e he,Nat.zero_le _⟩
  have hcount:=h.count
  have hcommit:=hf.wf.commit_le
  unfold Saved.validate
  rw [if_neg,if_neg,if_neg]
  · simpa [snapshot] using horder
  · rintro (hc | ⟨h0,hv⟩ | ⟨v,hv,hne,hnot⟩)
    · simp only [snapshot] at hc
      omega
    · obtain ⟨v,hv⟩:=Option.isSome_iff_exists.mp hv
      have:=(hf.voted v hv).1
      simp only [snapshot] at h0
      omega
    · exact (hf.voted v hv).2.elim hne hnot
  · rintro (hc | ⟨e,he,hlen⟩)
    · simp only [snapshot] at hc
      omega
    · have:=(hf.commands e he).1
      omega

theorem entries_cost (log : List LogEntry) :
    entryLimited.costs log≤(log.map fun e => (entryCodec.encode e).length).sum+log.length := by
  induction log with
  | nil => exact Nat.zero_le _
  | cons e log ih =>
    have h1:=Bincode.u64_pos e.term
    have h2:=Bincode.u64_pos e.index
    have h3:=Bincode.u64_pos e.cmd.length
    have hcost : entryLimited.cost e=(1+0)+((1+0)+(1+(scalar Bincode.u8).costs e.cmd)) := rfl
    rw [Bincode.costs_scalar] at hcost
    simp only [Limited.costs,List.map_cons,List.sum_cons,length_cons] at ih ⊢
    rw [entry_length,hcost]
    omega

theorem snapshot_fits (hf : Fit good n) (h : Roomy cluster n) : savedCodec.fits (snapshot n cluster)=true := by
  have htext : ∀ {s : String}, s.utf8ByteSize≤1024 → Bincode.string.fits s=true :=
    fun hs => Bincode.string_fits (hs.trans_lt (by decide))
  have hu : ∀ {k : ℕ}, k≤u64Max → Bincode.u64.fits k=true := fun hk => Bincode.u64_fits (hk.trans_lt (by decide))
  have hlen:=hf.wf.length_lt
  have hcommit:=hf.wf.commit_le
  have hfew:=h.peers_few
  have hpeers : Bincode.string.list.fits n.peers=true := by
    simp only [Bincode.Codec.list,Bool.and_eq_true,List.all_eq_true]
    exact ⟨hu (hfew.trans (by decide)),fun p hp => htext (h.peers_le p hp)⟩
  have hvote : Bincode.string.option.fits n.votedFor=true := by
    cases hv : n.votedFor with
    | none => rfl
    | some v =>
      have hmem:=(hf.voted v hv).2
      exact htext (hmem.elim (fun he => he ▸ h.id_le) (h.peers_le v))
  have hlog : entryCodec.list.fits n.log=true := by
    simp only [Bincode.Codec.list,Bool.and_eq_true,List.all_eq_true]
    refine ⟨hu (by omega),?_⟩
    intro e he
    obtain ⟨k,hk⟩:=List.getElem?_of_mem he
    have hidx:=hf.wf.indexed k e hk
    have hklt:=(List.getElem?_eq_some_iff.mp hk).1
    have hcmd : Bincode.bytes.fits e.cmd=true := Bincode.bytes_fits ((hf.commands e he).1.trans_lt (by decide))
    have hterm:=hu ((hf.wf.bounded e he).trans hf.term_le)
    have hindex : Bincode.u64.fits e.index=true := hu (by omega)
    simp only [entryCodec,Bincode.Codec.via,Bincode.Codec.pair,hterm,hindex,hcmd,Bool.and_self]
  have hterm:=hu hf.term_le
  have hc : Bincode.u64.fits n.commitIndex=true := hu (by omega)
  have h8 : Bincode.u8.fits 1=true := rfl
  simp only [savedCodec,Bincode.Codec.via,Bincode.Codec.pair,snapshot,h8,htext h.cluster_le,htext h.id_le,hpeers,
    hvote,hlog,hterm,hc,Bool.and_self]

theorem snapshot_cost (cluster : String) (n : RaftNode) : savedLimited.cost (snapshot n cluster) ≤
    9+n.peers.length+(n.log.map fun e => (entryCodec.encode e).length).sum+n.log.length := by
  have hcost : savedLimited.cost (snapshot n cluster)=(1+0)+((1+0)+((1+0)+
      ((1+(scalar Bincode.string).costs n.peers)+((1+0)+((1+(scalar Bincode.string).option.cost n.votedFor)+
      ((1+entryLimited.costs n.log)+(1+0))))))) := rfl
  have hvote : (scalar Bincode.string).option.cost n.votedFor≤1 := by
    cases n.votedFor with
    | none => exact Nat.zero_le 1
    | some v => exact Nat.le_refl 1
  have hlog:=entries_cost n.log
  rw [hcost,Bincode.costs_scalar]
  omega

theorem snapshot_decoded (hf : Fit good n) (h : Roomy cluster n) :
    SnapshotCodec.bounded.decode (SnapshotCodec.bounded.encode (snapshot n cluster))=.ok (snapshot n cluster) := by
  have hlen:=snapshot_length hf h
  have hcost:=snapshot_cost cluster n
  have hfew:=h.peers_few
  have hcount:=h.count
  have hbytes : (n.log.map fun e => (entryCodec.encode e).length).sum≤(savedCodec.encode (snapshot n cluster)).length := by
    rw [saved_length]
    have:=entries_length n.log
    simp only [snapshot]
    omega
  unfold maxSnapshot at hlen
  unfold maxEntries at hcount
  refine savedLimited.decode_encode (snapshot_fits hf h) ?_ ?_ (by decide) (by decide)
  · simp only [maxSnapshot]
    omega
  · simp only [maxSnapshot,maxEntries]
    omega

section image
variable (codec : SnapshotCodec) (s : Saved)

theorem image_eq : image codec s=magic++(codec.digest (codec.encode s)++codec.encode s) := by
  simp only [image,chunks,List.flatten_cons,List.flatten_nil,append_nil]

theorem image_length : (image codec s).length=40+(codec.encode s).length := by
  rw [image_eq,length_append,length_append,codec.digest_length,show magic.length=8 from rfl]
  omega

variable {codec s}

theorem load_written (hlen : 40+(codec.encode s).length ≤ maxSnapshot)
    (hdec : codec.decode (codec.encode s)=.ok s) : load codec (image codec s)=.ok s := by
  have hil:=image_length codec s
  have heq:=image_eq codec s
  have hmagic : (image codec s).take 8=magic := by rw [heq]; exact List.take_left' rfl
  have hrest : (image codec s).drop 8=codec.digest (codec.encode s)++codec.encode s := by
    rw [heq]
    exact List.drop_left' rfl
  have hdigest : ((image codec s).drop 8).take 32=codec.digest (codec.encode s) := by
    rw [hrest]
    exact List.take_left' (codec.digest_length _)
  have hbody : (image codec s).drop 40=codec.encode s := by
    rw [show (40 : ℕ)=8+32 from rfl,← List.drop_drop,hrest]
    exact List.drop_left' (codec.digest_length _)
  unfold load
  rw [if_neg,hbody,hdec]
  rw [hbody,hdigest,hmagic,hil]
  simp only [ne_eq,not_true_eq_false,or_false]
  omega

end image

theorem validateCommands_good {validateCommand : Bytes → Except String Unit}
    (hgood : ∀ cmd, good cmd → validateCommand cmd=.ok ()) {log : List LogEntry} (h : ∀ e∈log, good e.cmd) :
    validateCommands validateCommand log=.ok () := by
  have hall : (log.forM fun entry => validateCommand entry.cmd)=Except.ok () :=
    forM_eq_ok.mpr fun e he => hgood _ (h e he)
  unfold validateCommands
  rw [hall]

theorem snapshot_accepted (hf : Fit good n) (h : Roomy cluster n) {node : RaftNode} (hid : node.id=n.id)
    (hpeers : node.peers=n.peers) {validateCommand : Bytes → Except String Unit}
    (hgood : ∀ cmd, good cmd → validateCommand cmd=.ok ()) :
    accept .bounded cluster node validateCommand (image .bounded (snapshot n cluster))=.ok (snapshot n cluster) := by
  have hload:=@load_written .bounded _ (snapshot_length hf h) (snapshot_decoded hf h)
  have hcmds:=validateCommands_good hgood fun e he => (hf.commands e he).2
  unfold accept
  rw [hload]
  simp only [bind,Except.bind]
  rw [if_neg (by simp [snapshot,hid,hpeers]),snapshot_valid hf h]
  dsimp only
  rw [show (snapshot n cluster).log=n.log from rfl,hcmds]
  rfl

end Parrot.Raft
