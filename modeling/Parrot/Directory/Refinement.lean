import Mathlib
import Parrot.Directory.Shards
import Parrot.Raft.Capacity

/-! # The shards are one directory

Each shard replays the part of the accepted commands it was sent, in order. -/

namespace Parrot.Directory
open Option (map_map map_some getD_some elim_some)
open Function (update_self update_of_ne update_apply)
open Machine Parrot.Raft

/-- What a client reads of an entry besides the revision. -/
def DirEntry.answer (e : DirEntry) : List String × ℕ := (e.endpoints,e.ttlS)

section owned
variable (route : String → Option String) (i : String)

def sees (cmd : DirCmd) : Bool := cmd.isRemove||decide (route (dirCmdKey cmd)=some i)

def mine (cmds : List DirCmd) : List DirCmd := cmds.filter (sees route i)

structure Agree (sm ref : DirectorySm) : Prop where
  nodes : ∀ node, route node=some i → (sm.nodes node).map DirEntry.answer=(ref.nodes node).map DirEntry.answer
  borders : ∀ p, route ("border:"++p)=some i → sm.borders p=ref.borders p
  keys : ∀ k, route ("key:"++k)=some i → sm.keyIndex k=ref.keyIndex k

variable {route i} {sm ref : DirectorySm}

theorem ttl_answer {a b : Option DirEntry} (h : a.map DirEntry.answer=b.map DirEntry.answer) :
    (a.map DirEntry.ttlS).getD 3600=(b.map DirEntry.ttlS).getD 3600 := by
  have hsnd:=congrArg (Option.map Prod.snd) h
  rw [map_map,map_map] at hsnd
  exact congrArg (fun o => o.getD 3600) hsnd

theorem agree_apply (h : Agree route i sm ref) (cmd : DirCmd) :
    Agree route i (sm.applyValidated cmd) (ref.applyValidated cmd) := by
  cases cmd with
  | upsert node endpoints =>
    refine ⟨?_,h.borders,h.keys⟩
    intro x hx
    simp only [DirectorySm.applyValidated]
    by_cases hxn : x=node
    · subst hxn
      rw [update_self,update_self,ttl_answer (h.nodes x hx)]
      rfl
    · rw [update_of_ne hxn,update_of_ne hxn]
      exact h.nodes x hx
  | remove node =>
    constructor
    · intro x hx
      simp only [DirectorySm.applyValidated]
      by_cases hxn : x=node
      · subst hxn
        rw [update_self,update_self]
      · rw [update_of_ne hxn,update_of_ne hxn]
        exact h.nodes x hx
    · intro p hp
      simp only [DirectorySm.applyValidated]
      rw [h.borders p hp]
    · intro k hk
      simp only [DirectorySm.applyValidated]
      rw [h.keys k hk]
  | borderDeclare pre node =>
    refine ⟨h.nodes,?_,h.keys⟩
    intro p hp
    simp only [DirectorySm.applyValidated,update_apply]
    rw [h.borders p hp]
  | keyAggregate key nodes =>
    refine ⟨h.nodes,h.borders,?_⟩
    intro k hk
    simp only [DirectorySm.applyValidated,update_apply]
    rw [h.keys k hk]

theorem agree_skip (h : Agree route i sm ref) {cmd : DirCmd} (hc : sees route i cmd=false) :
    Agree route i sm (ref.applyValidated cmd) := by
  simp only [sees,Bool.or_eq_false_iff,decide_eq_false_iff_not] at hc
  obtain ⟨hremove,hroute⟩:=hc
  cases cmd with
  | upsert node endpoints =>
    refine ⟨?_,h.borders,h.keys⟩
    intro x hx
    have hxn : x≠node := fun heq => hroute (heq ▸ hx)
    simp only [DirectorySm.applyValidated]
    rw [update_of_ne hxn]
    exact h.nodes x hx
  | remove node => contradiction
  | borderDeclare pre node =>
    refine ⟨h.nodes,?_,h.keys⟩
    intro p hp
    have hpn : p≠pre := fun heq => hroute (heq ▸ hp)
    simp only [DirectorySm.applyValidated]
    rw [update_of_ne hpn]
    exact h.borders p hp
  | keyAggregate key nodes =>
    refine ⟨h.nodes,h.borders,?_⟩
    intro k hk
    have hkn : k≠key := fun heq => hroute (heq ▸ hk)
    simp only [DirectorySm.applyValidated]
    rw [update_of_ne hkn]
    exact h.keys k hk

theorem agree_fold (h : Agree route i sm ref) (cmds : List DirCmd) : Agree route i
    ((mine route i cmds).foldl DirectorySm.applyValidated sm) (cmds.foldl DirectorySm.applyValidated ref) := by
  induction cmds generalizing sm ref with
  | nil => exact h
  | cons cmd cmds ih =>
    unfold mine at ih ⊢
    cases hc : sees route i cmd with
    | true =>
      rw [List.filter_cons_of_pos hc]
      exact ih (agree_apply h cmd)
    | false =>
      rw [List.filter_cons_of_neg (by simp [hc])]
      exact ih (agree_skip h hc)

theorem agree_default : Agree route i .default .default := ⟨fun _ _ => rfl,fun _ _ => rfl,fun _ _ => rfl⟩

theorem foldl_version (cmds : List DirCmd) (sm : DirectorySm) :
    (cmds.foldl DirectorySm.applyValidated sm).version=sm.version+cmds.length := by
  induction cmds generalizing sm with
  | nil => rfl
  | cons cmd cmds ih =>
    rw [List.foldl_cons,ih,DirectorySm.applyValidated_version,List.length_cons]
    omega

end owned

theorem longest_cases {β : Type} (f : List Char → Option β) (l : List Char) :
    (l.inits.reverse.findSome? f=none ∧ ∀ q, q<+:l → f q=none) ∨ ∃ q b, q<+:l ∧ f q=some b ∧
    l.inits.reverse.findSome? f=some b ∧ ∀ q', q'<+:l → q.length<q'.length → f q'=none := by
  induction l using List.reverseRecOn with
  | nil =>
    cases hf : f [] with
    | none =>
      left
      refine ⟨by simp [hf],?_⟩
      intro q hq
      rw [List.prefix_nil.mp hq]
      exact hf
    | some b =>
      right
      refine ⟨[],b,List.nil_prefix,hf,by simp [hf],?_⟩
      intro q' hq' hlt
      rw [List.prefix_nil.mp hq'] at hlt
      contradiction
  | append_singleton l c ih =>
    have hinits : (l++[c]).inits.reverse.findSome? f=(f (l++[c])).or (l.inits.reverse.findSome? f) := by
      have hlast : (l++[c]).inits.reverse=(l++[c])::l.inits.reverse := by simp [List.inits_append]
      rw [hlast,List.findSome?_cons]
      cases f (l++[c]) <;> rfl
    rw [hinits]
    cases hf : f (l++[c]) with
    | some b =>
      right
      refine ⟨l++[c],b,List.prefix_refl _,hf,rfl,?_⟩
      intro q' hq' hlt
      exact absurd hq'.length_le (by omega)
    | none =>
      rw [Option.none_or]
      have hshort : ∀ q, q<+:l++[c] → q=l++[c] ∨ q<+:l := by
        intro q hq
        rw [List.prefix_concat_iff] at hq
        exact hq
      rcases ih with ⟨hnone,hall⟩ | ⟨q,b,hq,hb,hfind,hlong⟩
      · left
        refine ⟨hnone,?_⟩
        intro q hq
        rcases hshort q hq with rfl | hq
        · exact hf
        · exact hall q hq
      · right
        refine ⟨q,b,hq.trans (List.prefix_append l [c]),hb,hfind,?_⟩
        intro q' hq' hlt
        rcases hshort q' hq' with rfl | hq'
        · exact hf
        · exact hlong q' hq' hlt

theorem prefix_size_lt {p q : List Char} (h : p<+:q) (hlt : p.length<q.length) :
    (String.ofList p).utf8ByteSize<(String.ofList q).utf8ByteSize := by
  obtain ⟨r,rfl⟩:=h
  have hr : (String.ofList r).utf8ByteSize≠0 := by
    rw [ne_eq,String.utf8ByteSize_eq_zero_iff]
    intro hnil
    have hlist:=congrArg String.toList hnil
    rw [String.toList_ofList] at hlist
    rw [hlist] at hlt
    simp at hlt
  rw [String.ofList_append,String.utf8ByteSize_append]
  omega

section alone
variable {n n' : RaftNode}

theorem broadcastAppend_alone (hrole : n.role=.leader) (hpeers : n.peers=[]) : n.broadcastAppend=.ok n := by
  unfold RaftNode.broadcastAppend
  rw [if_neg (by simp [hrole]),hpeers]
  rfl

theorem advanceCommit_alone (h : WellFormed n) (hrole : n.role=.leader) (hpeers : n.peers=[])
    (hbehind : n.commitIndex<n.log.length) (hterm : (n.log[n.log.length-1]?).map LogEntry.term=some n.currentTerm) :
    n.advanceCommit=.ok (n.advanced n.log.length) := by
  have hquorum : n.quorum=1 := by
    unfold RaftNode.quorum
    rw [hpeers]
    rfl
  have hindex : index [n.log.length] ([n.log.length].length-n.quorum)=.ok n.log.length := by
    rw [hquorum]
    rfl
  unfold RaftNode.advanceCommit
  rw [hpeers,List.map_nil,List.nil_append]
  simp only [RaftNode.lastLogIndex,List.mergeSort_singleton,hindex,bind,Except.bind]
  rw [if_pos ⟨hbehind,hterm⟩,commitTo_eq h hbehind.le (le_rfl)]
  exact broadcastAppend_alone hrole hpeers

theorem propose_answer {cmd : Bytes} {answer : Except (Option NodeId) ℕ} (hrole : n.role=.leader)
    (h : n.propose cmd=.ok (answer,n')) : (∃ k, answer=.ok k) ∧ 40*(n.log.length+1) ≤ isizeMax := by
  unfold RaftNode.propose at h
  rw [if_neg (by simp [hrole])] at h
  obtain ⟨k,-,h⟩:=bind_eq_ok.mp h
  obtain ⟨log,hlog,h⟩:=bind_eq_ok.mp h
  obtain ⟨x,-,h⟩:=bind_eq_ok.mp h
  have hanswer : answer=.ok k := by
    dsimp only at h
    split at h
    · obtain ⟨y,-,h⟩:=bind_eq_ok.mp h
      exact (Prod.mk.inj (Except.ok.inj h)).1.symm
    · exact (Prod.mk.inj (Except.ok.inj h)).1.symm
  refine ⟨⟨k,hanswer⟩,?_⟩
  rcases extend_cases 40 n.log [⟨n.currentTerm,k,cmd⟩] with ⟨-,hcap⟩ | herr
  · simpa using hcap
  · rw [herr] at hlog
    contradiction

theorem propose_alone (h : WellFormed n) (hrole : n.role=.leader) (hpeers : n.peers=[])
    (hcaught : n.commitIndex=n.log.length) {cmd : Bytes} {answer : Except (Option NodeId) ℕ}
    (hp : n.propose cmd=.ok (answer,n')) : WellFormed n' ∧ n'.peers=[] ∧ (∀ handed, Published handed n →
    Published handed n') ∧ n'.commitIndex=n.log.length+1 ∧ n'.log=n.log++[⟨n.currentTerm,n.log.length+1,cmd⟩] ∧
    n'.pendingApply=n.pendingApply++[⟨n.currentTerm,n.log.length+1,cmd⟩] := by
  have hcap:=(propose_answer hrole hp).2
  obtain ⟨x,hx,hm,hlog⟩:=propose_planned h hrole cmd hcap
  obtain rfl : x=n' := (Prod.mk.inj (Except.ok.inj (hx.symm.trans hp))).2
  have hext : extend 40 n.log [⟨n.currentTerm,n.log.length+1,cmd⟩] =
      .ok (n.log++[⟨n.currentTerm,n.log.length+1,cmd⟩]) := if_pos (by simpa using hcap)
  have hbroadcast : RaftNode.broadcastAppend {n with log:=n.log++[⟨n.currentTerm,n.log.length+1,cmd⟩]} =
      .ok {n with log:=n.log++[⟨n.currentTerm,n.log.length+1,cmd⟩]} := broadcastAppend_alone hrole hpeers
  have hcommit:=advanceCommit_alone (h.append cmd hrole hcap) hrole hpeers
    (by simp only [List.length_append,List.length_singleton]; omega) (by simp)
  have heq : x=RaftNode.advanced {n with log:=n.log++[⟨n.currentTerm,n.log.length+1,cmd⟩]}
      (n.log++[(⟨n.currentTerm,n.log.length+1,cmd⟩ : LogEntry)]).length := by
    unfold RaftNode.propose at hx
    rw [if_neg (by simp [hrole]),add_ok h.length_lt] at hx
    simp only [bind,Except.bind] at hx
    rw [hext] at hx
    dsimp only at hx
    rw [hbroadcast] at hx
    dsimp only at hx
    rw [if_pos hpeers,hcommit] at hx
    exact (Prod.mk.inj (Except.ok.inj hx)).2.symm
  refine ⟨moves_wellFormed hm h,(moves_identity hm).2.trans hpeers,(moves_progress hm h).published,?_,hlog,?_⟩
  · rw [heq]
    simp [RaftNode.advanced]
  · rw [heq]
    simp only [RaftNode.advanced,hcaught,List.take_length,List.drop_left]

theorem tick_alone (h : WellFormed n) (hcaught : n.commitIndex=n.log.length) {handed : List LogEntry}
    (hpub : Published handed n) {clock : Clock} (ht : n.tick clock=.ok n') : WellFormed n' ∧ n'.peers=n.peers ∧
    Published handed n' ∧ n'.commitIndex=n.log.length ∧ n'.log=n.log ∧ n'.pendingApply=n.pendingApply := by
  obtain ⟨x,hx,hm⟩:=tick_moved h clock
  obtain rfl : x=n' := Except.ok.inj (hx.symm.trans ht)
  have hlog:=moves_log hm rfl
  have hp:=moves_progress hm h
  have hwf:=moves_wellFormed hm h
  have hcommit : x.commitIndex=n.log.length := by
    have hle:=hwf.commit_le
    have hge:=hp.commit_le
    rw [hlog] at hle
    omega
  have hpub':=hp.published handed hpub
  refine ⟨hwf,(moves_identity hm).2,hpub',hcommit,hlog,?_⟩
  unfold Published at hpub hpub'
  rw [hcommit,hlog,← hcaught,← hpub] at hpub'
  exact List.append_cancel_left hpub'

end alone

/-- The shards, the accepted commands that `apply_committed_all` applied, and those
accepted since. -/
structure ShardHistory where
  shards : DirectoryShards
  applied : List DirCmd
  pending : List DirCmd

/-- The entries of all logs lie in one address space. -/
def DirectoryShards.Addressable (s : DirectoryShards) : Prop :=
  (s.shardIds.map fun id => ((s.shards id).map fun shard => 40*shard.raft.log.length).getD 0).sum≤u64Max

inductive ShardStep : ShardHistory → ShardHistory → Prop where
  | tick (h : ShardHistory) (id : String) (clock : Clock) (shard : DirectoryReplica) (raft : RaftNode)
      (hshard : h.shards.shards id=some shard) (htick : shard.raft.tick clock=.ok raft) :
      ShardStep h {h with shards := h.shards.set id {shard with raft:=raft}}
  | accepted (h : ShardHistory) (cmd : DirCmd) (receipt : DirectoryProposal) (s' : DirectoryShards)
      (hpropose : h.shards.propose cmd=.ok (.ok receipt,s')) (hspace : s'.Addressable) :
      ShardStep h {h with shards:=s',pending:=h.pending++[cmd]}
  | refused (h : ShardHistory) (cmd : DirCmd) (e : DirectoryWriteError) (s' : DirectoryShards)
      (hpropose : h.shards.propose cmd=.ok (.error e,s')) : ShardStep h {h with shards:=s'}
  | applied (h : ShardHistory) (order : List String) (k : ℕ) (s' : DirectoryShards)
      (horder : order.Perm h.shards.shardIds) (happly : h.shards.applyCommittedAll order=(.ok k,s')) :
      ShardStep h ⟨s',h.applied++h.pending,[]⟩
  | failed (h : ShardHistory) (order : List String) (e : DirectoryApplyError) (s' : DirectoryShards)
      (horder : order.Perm h.shards.shardIds) (happly : h.shards.applyCommittedAll order=(.error e,s')) :
      ShardStep h {h with shards:=s'}

structure ShardSound (route : String → Option String) (i : String) (applied pending : List DirCmd)
    (shard : DirectoryReplica) : Prop where
  wf : WellFormed shard.raft
  alone : shard.raft.peers=[]
  caught : shard.raft.commitIndex=shard.raft.log.length
  published : ∃ handed, Published handed shard.raft
  sm : shard.sm=(mine route i applied).foldl DirectorySm.applyValidated .default
  queued : List.Forall₂ (fun cmd entry => DirCmd.encode .bounded cmd=.ok entry.cmd) (mine route i pending)
    shard.raft.pendingApply
  count : shard.sm.version+shard.raft.pendingApply.length=shard.raft.log.length

structure ShardsSound (h : ShardHistory) : Prop where
  distinct : h.shards.shardIds.Nodup
  owner : ∀ key, ∃ i∈h.shards.shardIds, h.shards.route key=some i
  shard : ∀ i∈h.shards.shardIds, ∃ shard, h.shards.shards i=some shard ∧
    ShardSound h.shards.route i h.applied h.pending shard
  space : h.shards.Addressable

theorem shardNames_nodup (k : ℕ) : (shardNames k).Nodup := by
  refine List.nodup_range.map ?_
  intro a b hab
  have htail:=congrArg String.toList hab
  simp only [String.toList_append] at htail
  exact Nat.repr_injective (String.toList_injective (List.append_cancel_left htail))

theorem new_alone (clock : Clock) (i : String) : (RaftNode.new clock i []).peers=[] := by
  simp [RaftNode.new,normalizePeers]

theorem shards_start {sort : SortByHash} {shardCount : ℕ} (hcount : 0<shardCount) (clock : Clock) (identity : ℕ) :
    ShardsSound ⟨.new sort shardCount clock identity,[],[]⟩ where
  distinct := shardNames_nodup shardCount
  owner := by
    intro key
    have hne : shardNames shardCount≠[] := by
      intro hnil
      have hlen:=congrArg List.length hnil
      rw [shardNames,List.length_map,List.length_range,List.length_nil] at hlen
      omega
    obtain ⟨i,hi⟩:=HashRing.node_isSome sort hne (Nat.succ_pos 255) key
    exact ⟨i,HashRing.node_mem hi,hi⟩
  shard := by
    intro i hi
    refine ⟨.new clock i [],if_pos hi,?_⟩
    exact ⟨wellFormed_new clock i [],new_alone clock i,rfl,⟨[],rfl⟩,rfl,.nil,rfl⟩
  space := by
    have hzero : ∀ ids : List String, (ids.map fun id => (((DirectoryShards.new sort shardCount clock identity).shards id).map
        fun shard => 40*shard.raft.log.length).getD 0).sum=0 := by
      intro ids
      refine List.sum_eq_zero ?_
      intro x hx
      obtain ⟨id,-,rfl⟩:=List.mem_map.mp hx
      simp only [DirectoryShards.new]
      split <;> rfl
    exact (hzero _).le.trans (Nat.zero_le _)

section propose
variable {s s' : DirectoryShards} {bytes : Bytes} {cmd : DirCmd}

structure Appended (bytes : Bytes) (targets : List String) (s s' : DirectoryShards) : Prop where
  ring : s'.ring=s.ring
  shardIds : s'.shardIds=s.shardIds
  other : ∀ i, i∉targets → s'.shards i=s.shards i
  target : ∀ i∈targets, ∃ shard answer raft, s.shards i=some shard ∧ shard.raft.role=.leader ∧
    shard.raft.propose bytes=.ok (answer,raft) ∧ s'.shards i=some {shard with raft:=raft}

theorem preflight_ok {targets : List String} (h : s.preflight targets=.ok ()) :
    ∀ i∈targets, ∃ shard, s.shards i=some shard ∧ shard.raft.role=.leader := by
  induction targets with
  | nil => nofun
  | cons id rest ih =>
    unfold DirectoryShards.preflight at h
    split at h
    · contradiction
    · rename_i shard hshard
      split at h
      · contradiction
      · rename_i hrole
        intro i hi
        rcases List.mem_cons.mp hi with rfl | hi
        · exact ⟨shard,hshard,not_not.mp hrole⟩
        · exact ih h i hi

theorem appendAll_spec {targets : List String} (hnodup : targets.Nodup)
    (hlead : ∀ i∈targets, ∃ shard, s.shards i=some shard ∧ shard.raft.role=.leader)
    {positions : List DirectoryPosition} {result : Except DirectoryWriteError (List DirectoryPosition)}
    (h : DirectoryShards.appendAll bytes targets positions s=.ok (result,s')) :
    (∃ all, result=.ok all) ∧ Appended bytes targets s s' := by
  induction targets generalizing s positions with
  | nil =>
    cases h
    exact ⟨⟨positions,rfl⟩,rfl,rfl,fun _ _ => rfl,nofun⟩
  | cons id rest ih =>
    obtain ⟨hnot,hrest⟩:=List.nodup_cons.mp hnodup
    obtain ⟨shard,hshard,hrole⟩:=hlead id (List.mem_cons_self ..)
    unfold DirectoryShards.appendAll at h
    rw [hshard] at h
    dsimp only at h
    cases hp : shard.raft.propose bytes with
    | error p =>
      rw [hp] at h
      contradiction
    | ok x =>
      obtain ⟨answer,raft⟩:=x
      obtain ⟨⟨k,rfl⟩,-⟩:=propose_answer hrole hp
      rw [hp] at h
      dsimp only at h
      have hother : ∀ i, i≠id → (s.set id {shard with raft:=raft}).shards i=s.shards i :=
        fun i hi => update_of_ne hi ..
      have hlead' : ∀ i∈rest, ∃ shard', (s.set id {shard with raft:=raft}).shards i=some shard' ∧
          shard'.raft.role=.leader := by
        intro i hi
        rw [hother i fun heq => hnot (heq ▸ hi)]
        exact hlead i (List.mem_cons_of_mem id hi)
      obtain ⟨hall,happ⟩:=ih hrest hlead' h
      refine ⟨hall,happ.ring,happ.shardIds,?_,?_⟩
      · intro i hi
        obtain ⟨hne,hi⟩:=not_or.mp (mt List.mem_cons.mpr hi)
        rw [happ.other i hi]
        exact hother i hne
      · intro i hi
        rcases List.mem_cons.mp hi with rfl | hi
        · refine ⟨shard,_,raft,hshard,hrole,hp,?_⟩
          rw [happ.other i hnot]
          exact update_self ..
        · have hne : i≠id := fun heq => hnot (heq ▸ hi)
          obtain ⟨shard',answer,raft',h1,h2,h3,h4⟩:=happ.target i hi
          rw [hother i hne] at h1
          exact ⟨shard',answer,raft',h1,h2,h3,h4⟩

theorem targets_sees {targets : List String} (h : s.targets cmd=.ok targets) :
    (targets=s.shardIds ∨ ∃ i, targets=[i]) ∧ ∀ i∈s.shardIds, i∈targets ↔ sees s.route i cmd=true := by
  unfold DirectoryShards.targets at h
  unfold sees
  split at h
  · rename_i hremove
    split at h
    · contradiction
    · cases h
      refine ⟨.inl rfl,?_⟩
      intro i hi
      simp [hremove,hi]
  · rename_i hremove
    split at h
    · contradiction
    · rename_i j hj
      cases h
      refine ⟨.inr ⟨j,rfl⟩,?_⟩
      intro i hi
      simp only [hremove,hj,Option.some.injEq,Bool.false_or,decide_eq_true_eq,List.mem_singleton]
      exact eq_comm

theorem propose_cases (hnodup : s.shardIds.Nodup) {result : Except DirectoryWriteError DirectoryProposal}
    (h : s.propose cmd=.ok (result,s')) : (∃ e, result=.error e ∧ s'=s) ∨ ∃ receipt bytes targets,
    result=.ok receipt ∧ cmd.encode .bounded=.ok bytes ∧ s.targets cmd=.ok targets ∧ Appended bytes targets s s' := by
  unfold DirectoryShards.propose at h
  split at h
  · cases h
    exact .inl ⟨_,rfl,rfl⟩
  · rename_i bytes hbytes
    split at h
    · cases h
      exact .inl ⟨_,rfl,rfl⟩
    · rename_i targets htargets
      split at h
      · cases h
        exact .inl ⟨_,rfl,rfl⟩
      · rename_i hpre
        have hdistinct : targets.Nodup := by
          rcases (targets_sees htargets).1 with rfl | ⟨i,rfl⟩
          · exact hnodup
          · exact List.nodup_singleton i
        cases ha : DirectoryShards.appendAll bytes targets [] s with
        | error p =>
          rw [ha] at h
          contradiction
        | ok x =>
          obtain ⟨answer,s1⟩:=x
          obtain ⟨⟨all,rfl⟩,happ⟩:=appendAll_spec hdistinct (preflight_ok hpre) ha
          rw [ha] at h
          cases h
          exact .inr ⟨_,bytes,targets,rfl,hbytes,htargets,happ⟩

end propose

section shard
variable {route : String → Option String} {i : String} {applied pending : List DirCmd} {shard : DirectoryReplica}
  {raft : RaftNode}

theorem ShardSound.tick (h : ShardSound route i applied pending shard) {clock : Clock}
    (ht : shard.raft.tick clock=.ok raft) :
    ShardSound route i applied pending {shard with raft:=raft} ∧ raft.log.length=shard.raft.log.length := by
  obtain ⟨handed,hpub⟩:=h.published
  obtain ⟨hwf,hpeers,hpub',hcommit,hlog,hqueue⟩:=tick_alone h.wf h.caught hpub ht
  refine ⟨⟨hwf,hpeers.trans h.alone,?_,⟨handed,hpub'⟩,h.sm,?_,?_⟩,by rw [hlog]⟩
  · rw [hcommit,hlog]
  · rw [hqueue]
    exact h.queued
  · rw [hqueue,hlog]
    exact h.count

theorem mine_append (l m : List DirCmd) : mine route i (l++m)=mine route i l++mine route i m := List.filter_append ..

theorem mine_singleton (cmd : DirCmd) : mine route i [cmd]=if sees route i cmd then [cmd] else [] := by
  unfold mine
  rw [List.filter_singleton]
  cases sees route i cmd <;> rfl

theorem ShardSound.skip (h : ShardSound route i applied pending shard) {cmd : DirCmd} (hc : sees route i cmd=false) :
    ShardSound route i applied (pending++[cmd]) shard := by
  refine {h with queued:=?_}
  rw [mine_append,mine_singleton,hc]
  simpa using h.queued

theorem ShardSound.append (h : ShardSound route i applied pending shard) {cmd : DirCmd} (hc : sees route i cmd=true)
    {bytes : Bytes} (hbytes : cmd.encode .bounded=.ok bytes) (hrole : shard.raft.role=.leader)
    {answer : Except (Option NodeId) ℕ} (hp : shard.raft.propose bytes=.ok (answer,raft)) :
    ShardSound route i applied (pending++[cmd]) {shard with raft:=raft} := by
  obtain ⟨hwf,hpeers,hpub,hcommit,hlog,hqueue⟩:=propose_alone h.wf hrole h.alone h.caught hp
  obtain ⟨handed,hpub0⟩:=h.published
  refine ⟨hwf,hpeers,?_,⟨handed,hpub handed hpub0⟩,h.sm,?_,?_⟩
  · rw [hcommit,hlog,List.length_append,List.length_singleton]
  · rw [hqueue,mine_append,mine_singleton,hc]
    exact List.rel_append h.queued (.cons hbytes .nil)
  · have hcount:=h.count
    rw [hqueue,hlog,List.length_append,List.length_append,List.length_singleton]
    change shard.sm.version+_=_
    omega

theorem decode_queued {cmds : List DirCmd} {entries : List LogEntry}
    (h : List.Forall₂ (fun cmd entry => DirCmd.encode .bounded cmd=.ok entry.cmd) cmds entries) :
    entries.mapM (fun e => DirCmd.decode .bounded e.cmd)=.ok cmds := by
  induction h with
  | nil => rfl
  | cons hcmd _ ih =>
    rw [List.mapM_cons,decode_encode hcmd,ih]
    rfl

theorem ShardSound.prepare (h : ShardSound route i applied pending shard) :
    shard.sm.prepare shard.raft.pendingApply=.ok (mine route i pending) := by
  have hcount:=h.count
  have hlen:=h.wf.length_lt
  unfold DirectorySm.prepare
  rw [checkedAdd,if_pos (by omega)]
  exact decode_queued h.queued

theorem ShardSound.apply (h : ShardSound route i applied pending shard) : ShardSound route i (applied++pending)
    [] ⟨shard.raft.committed.2,(mine route i pending).foldl DirectorySm.applyValidated shard.sm⟩ := by
  obtain ⟨handed,hpub⟩:=h.published
  have hqueued:=h.queued.length_eq
  have hcount:=h.count
  refine ⟨{h.wf with},h.alone,h.caught,⟨handed++shard.raft.pendingApply,?_⟩,?_,.nil,?_⟩
  · simpa [Published,RaftNode.committed] using hpub
  · rw [h.sm,mine_append,List.foldl_append]
  · rw [foldl_version]
    change shard.sm.version+_+0=shard.raft.log.length
    omega

end shard

theorem addressable_congr {s s' : DirectoryShards} (hids : s'.shardIds=s.shardIds)
    (hlog : ∀ i∈s.shardIds, (s'.shards i).map (fun shard => 40*shard.raft.log.length) =
      (s.shards i).map fun shard => 40*shard.raft.log.length) (h : s.Addressable) : s'.Addressable := by
  have hmap : (s.shardIds.map fun id => ((s'.shards id).map fun shard => 40*shard.raft.log.length).getD 0) =
      s.shardIds.map fun id => ((s.shards id).map fun shard => 40*shard.raft.log.length).getD 0 :=
    List.map_congr_left fun i hi => by rw [hlog i hi]
  unfold DirectoryShards.Addressable at h ⊢
  rw [hids,hmap]
  exact h

section system
variable {h h' : ShardHistory}

theorem tick_sound (hs : ShardsSound h) {id : String} {clock : Clock} {shard : DirectoryReplica} {raft : RaftNode}
    (hshard : h.shards.shards id=some shard) (ht : shard.raft.tick clock=.ok raft) :
    ShardsSound {h with shards := h.shards.set id {shard with raft:=raft}} := by
  have hkept : ∀ i, i≠id → (h.shards.set id {shard with raft:=raft}).shards i=h.shards.shards i :=
    fun i hi => update_of_ne hi ..
  have hself : (h.shards.set id {shard with raft:=raft}).shards id=some {shard with raft:=raft} :=
    update_self ..
  have hticked : ∀ i∈h.shards.shardIds, i=id → ShardSound h.shards.route i h.applied h.pending {shard with raft:=raft} ∧
      raft.log.length=shard.raft.log.length := by
    intro i hi heq
    subst heq
    obtain ⟨x,hx,hsound⟩:=hs.shard i hi
    obtain rfl:=Option.some.inj (hx.symm.trans hshard)
    exact hsound.tick ht
  have hspace : (h.shards.set id {shard with raft:=raft}).Addressable := by
    apply @addressable_congr h.shards (h.shards.set id {shard with raft:=raft}) rfl ?_ hs.space
    intro i hi
    by_cases hid : i=id
    · have hlen:=(hticked i hi hid).2
      rw [hid,hself,hshard,map_some,map_some,hlen]
    · rw [hkept i hid]
  refine ⟨hs.distinct,hs.owner,?_,hspace⟩
  intro i hi
  by_cases hid : i=id
  · exact ⟨_,hid ▸ hself,(hticked i hi hid).1⟩
  · obtain ⟨x,hx,hsound⟩:=hs.shard i hi
    exact ⟨x,(hkept i hid).trans hx,hsound⟩

theorem accepted_sound (hs : ShardsSound h) {cmd : DirCmd} {bytes : Bytes} {targets : List String} {s' : DirectoryShards}
    (hbytes : cmd.encode .bounded=.ok bytes) (htargets : h.shards.targets cmd=.ok targets)
    (happ : Appended bytes targets h.shards s') (hspace : s'.Addressable) :
    ShardsSound {h with shards:=s',pending:=h.pending++[cmd]} := by
  have hroute : s'.route=h.shards.route := by
    unfold DirectoryShards.route
    rw [happ.ring]
  obtain ⟨-,hsees⟩:=targets_sees htargets
  refine ⟨by rw [happ.shardIds]; exact hs.distinct,?_,?_,hspace⟩
  · intro key
    dsimp only
    rw [hroute,happ.shardIds]
    exact hs.owner key
  · intro i hi
    dsimp only at hi ⊢
    rw [happ.shardIds] at hi
    rw [hroute]
    obtain ⟨shard,hshard,hsound⟩:=hs.shard i hi
    cases hc : sees h.shards.route i cmd with
    | true =>
      obtain ⟨x,answer,raft,hx,hrole,hp,hafter⟩:=happ.target i ((hsees i hi).mpr hc)
      obtain rfl:=Option.some.inj (hx.symm.trans hshard)
      exact ⟨_,hafter,hsound.append hc hbytes hrole hp⟩
    | false =>
      have hnot : i∉targets := fun hin => absurd ((hsees i hi).mp hin) (by simp [hc])
      exact ⟨shard,(happ.other i hnot).trans hshard,hsound.skip hc⟩

theorem prepareAll_ok {s : DirectoryShards} {cmds : String → List DirCmd} {order : List String}
    (hready : ∀ i∈order, ∃ shard, s.shards i=some shard ∧ shard.sm.prepare shard.raft.pendingApply=.ok (cmds i)) :
    s.prepareAll order=.ok (order.map fun i => (i,cmds i)) := by
  induction order with
  | nil => rfl
  | cons id rest ih =>
    obtain ⟨shard,hshard,hprepare⟩:=hready id (List.mem_cons_self ..)
    unfold DirectoryShards.prepareAll
    rw [hshard]
    dsimp only
    rw [hprepare,ih fun i hi => hready i (List.mem_cons_of_mem id hi)]
    rfl

theorem applyShards_spec {s : DirectoryShards} {cmds : String → List DirCmd} {order : List String}
    (hnodup : order.Nodup) : ((order.map fun i => (i,cmds i)).foldl DirectoryShards.applyShard s).ring=s.ring ∧
    ((order.map fun i => (i,cmds i)).foldl DirectoryShards.applyShard s).shardIds=s.shardIds ∧ ∀ i,
    ((order.map fun i => (i,cmds i)).foldl DirectoryShards.applyShard s).shards i = if i∈order then (s.shards i).map
    fun shard => ⟨shard.raft.committed.2,(cmds i).foldl DirectorySm.applyValidated shard.sm⟩ else s.shards i := by
  induction order generalizing s with
  | nil => exact ⟨rfl,rfl,fun _ => rfl⟩
  | cons id rest ih =>
    obtain ⟨hnot,hrest⟩:=List.nodup_cons.mp hnodup
    rw [List.map_cons,List.foldl_cons]
    obtain ⟨hring,hids,hshards⟩:=ih (s := s.applyShard (id,cmds id)) hrest
    have hone : (s.applyShard (id,cmds id)).ring=s.ring ∧ (s.applyShard (id,cmds id)).shardIds=s.shardIds ∧
        ∀ i, (s.applyShard (id,cmds id)).shards i=if i=id then (s.shards i).map fun shard =>
          ⟨shard.raft.committed.2,(cmds i).foldl DirectorySm.applyValidated shard.sm⟩ else s.shards i := by
      unfold DirectoryShards.applyShard
      dsimp only
      cases hshard : s.shards id with
      | none =>
        refine ⟨rfl,rfl,?_⟩
        intro i
        by_cases hid : i=id
        · rw [if_pos hid,hid,hshard]
          rfl
        · rw [if_neg hid]
      | some shard =>
        refine ⟨rfl,rfl,?_⟩
        intro i
        simp only [DirectoryShards.set,update_apply]
        split
        · rename_i heq
          rw [heq,hshard]
          rfl
        · rfl
    refine ⟨hring.trans hone.1,hids.trans hone.2.1,?_⟩
    intro i
    rw [hshards i,hone.2.2 i]
    by_cases hid : i=id
    · subst hid
      simp [hnot]
    · simp [hid]

theorem applied_sound (hs : ShardsSound h) {order : List String} (horder : order.Perm h.shards.shardIds) :
    ∃ k s', h.shards.applyCommittedAll order=(.ok k,s') ∧ ShardsSound ⟨s',h.applied++h.pending,[]⟩ := by
  have hnodup : order.Nodup := horder.nodup_iff.mpr hs.distinct
  have hprepare : h.shards.prepareAll order=.ok (order.map fun i => (i,mine h.shards.route i h.pending)) := by
    refine prepareAll_ok ?_
    intro i hi
    obtain ⟨shard,hshard,hsound⟩:=hs.shard i (horder.mem_iff.mp hi)
    exact ⟨shard,hshard,hsound.prepare⟩
  obtain ⟨hring,hids,hshards⟩:=@applyShards_spec h.shards (fun i => mine h.shards.route i h.pending) order hnodup
  unfold DirectoryShards.applyCommittedAll
  rw [hprepare]
  refine ⟨_,_,rfl,?_⟩
  generalize (order.map fun i => (i,mine h.shards.route i h.pending)).foldl DirectoryShards.applyShard h.shards=s'
    at hring hids hshards ⊢
  have hroute : s'.route=h.shards.route := by
    unfold DirectoryShards.route
    rw [hring]
  have hafter : ∀ i∈h.shards.shardIds, ∃ shard, h.shards.shards i=some shard ∧
      s'.shards i=some ⟨shard.raft.committed.2,(mine h.shards.route i h.pending).foldl DirectorySm.applyValidated shard.sm⟩ ∧
      ShardSound h.shards.route i h.applied h.pending shard := by
    intro i hi
    obtain ⟨shard,hshard,hsound⟩:=hs.shard i hi
    refine ⟨shard,hshard,?_,hsound⟩
    rw [hshards i,if_pos (horder.mem_iff.mpr hi),hshard]
    rfl
  refine ⟨by rw [hids]; exact hs.distinct,?_,?_,addressable_congr hids ?_ hs.space⟩
  · intro key
    dsimp only
    rw [hroute,hids]
    exact hs.owner key
  · intro i hi
    dsimp only at hi ⊢
    rw [hids] at hi
    rw [hroute]
    obtain ⟨shard,-,hshard',hsound⟩:=hafter i hi
    exact ⟨_,hshard',hsound.apply⟩
  · intro i hi
    obtain ⟨shard,hshard,hshard',-⟩:=hafter i hi
    rw [hshard,hshard']
    rfl

theorem shardStep_sound (hstep : ShardStep h h') (hs : ShardsSound h) : ShardsSound h' := by
  cases hstep with
  | tick id clock shard raft hshard htick => exact tick_sound hs hshard htick
  | accepted cmd receipt s' hpropose hspace =>
    rcases propose_cases hs.distinct hpropose with ⟨e,he,-⟩ | ⟨r,bytes,targets,-,hbytes,htargets,happ⟩
    · exact nomatch he
    · exact accepted_sound hs hbytes htargets happ hspace
  | refused cmd e s' hpropose =>
    rcases propose_cases hs.distinct hpropose with ⟨e',-,rfl⟩ | ⟨r,bytes,targets,hr,-⟩
    · exact hs
    · exact nomatch hr
  | applied order k s' horder happly =>
    obtain ⟨k',x,hx,hsound⟩:=applied_sound hs horder
    obtain ⟨-,rfl⟩:=Prod.mk.inj (hx.symm.trans happly)
    exact hsound
  | failed order e s' horder happly =>
    obtain ⟨k',x,hx,-⟩:=applied_sound hs horder
    exact nomatch (Prod.mk.inj (hx.symm.trans happly)).1

end system

section answers
variable {s : DirectoryShards}

def ownBorders (s : DirectoryShards) (pre id : String) : List (String × String) :=
  (s.shards id).elim [] fun shard =>
    (DirectoryShards.bordersUnder shard.sm pre).filter fun e => decide (s.route ("border:"++e.1)=some id)

theorem improve_fold (id : String) (l : List (String × String)) (best : Option (String × String)) :
    l.foldl (s.improve id) best=(l.filter fun e => decide (s.route ("border:"++e.1)=some id)).foldl
      (List.argAux fun b c => c.1.utf8ByteSize<b.1.utf8ByteSize) best := by
  rw [List.foldl_filter]
  congr
  funext best e
  unfold DirectoryShards.improve
  by_cases hroute : s.route ("border:"++e.1)=some id
  · cases best <;> simp [hroute,List.argAux]
  · simp [hroute]

theorem scanBorders_ok {pre : String} {ids : List String} {version : ℕ} {best : Option (String × String)}
    (hall : ∀ i∈ids, ∃ shard, s.shards i=some shard)
    (hfit : version+(ids.map fun i => ((s.shards i).map fun shard => shard.sm.version).getD 0).sum≤u64Max) :
    ∃ v, s.scanBorders pre ids version best=.ok (v,(ids.flatMap (ownBorders s pre)).foldl
      (List.argAux fun b c => c.1.utf8ByteSize<b.1.utf8ByteSize) best) := by
  induction ids generalizing version best with
  | nil => exact ⟨version,rfl⟩
  | cons id rest ih =>
    obtain ⟨shard,hshard⟩:=hall id (List.mem_cons_self ..)
    rw [List.map_cons,List.sum_cons,hshard,map_some,getD_some] at hfit
    unfold DirectoryShards.scanBorders
    rw [hshard]
    dsimp only
    rw [checkedAdd,if_pos (by omega),List.flatMap_cons,List.foldl_append,improve_fold]
    have hown : ownBorders s pre id=(DirectoryShards.bordersUnder shard.sm pre).filter fun e =>
        decide (s.route ("border:"++e.1)=some id) := by
      unfold ownBorders
      rw [hshard]
      rfl
    rw [hown]
    exact ih (fun i hi => hall i (List.mem_cons_of_mem id hi)) (by omega)

end answers

section answers
variable {h : ShardHistory} {ref : DirectorySm}

theorem ShardSound.agree {route : String → Option String} {i : String} {applied pending : List DirCmd}
    {shard : DirectoryReplica} (h : ShardSound route i applied pending shard) :
    Agree route i shard.sm (applied.foldl DirectorySm.applyValidated .default) := by
  rw [h.sm]
  exact agree_fold agree_default applied

section
variable (hs : ShardsSound h)
include hs

section
variable (hagree : ∀ i shard, i∈h.shards.shardIds → h.shards.shards i=some shard → Agree h.shards.route i shard.sm ref)
include hagree

theorem mem_ownBorders {pre : String} {e : String × String} : e∈h.shards.shardIds.flatMap
    (ownBorders h.shards pre) ↔ ∃ q, q<+:pre.toList ∧ e.1=String.ofList q ∧ ref.borders e.1=some e.2 := by
  rw [List.mem_flatMap]
  constructor
  · intro hmem
    obtain ⟨i,hi,he⟩:=hmem
    obtain ⟨shard,hshard,-⟩:=hs.shard i hi
    unfold ownBorders at he
    rw [hshard,elim_some,List.mem_filter] at he
    obtain ⟨he,hroute⟩:=he
    obtain ⟨q,hq,hborder⟩:=List.mem_filterMap.mp he
    obtain ⟨node,hnode,rfl⟩:=Option.map_eq_some_iff.mp hborder
    refine ⟨q,(List.mem_inits ..).mp hq,rfl,?_⟩
    rw [← (hagree i shard hi hshard).borders _ (of_decide_eq_true hroute)]
    exact hnode
  · intro hq
    obtain ⟨q,hq,heq,hborder⟩:=hq
    obtain ⟨i,hi,hroute⟩:=hs.owner ("border:"++e.1)
    obtain ⟨shard,hshard,-⟩:=hs.shard i hi
    refine ⟨i,hi,?_⟩
    unfold ownBorders
    rw [hshard,elim_some,List.mem_filter]
    refine ⟨List.mem_filterMap.mpr ⟨q,(List.mem_inits ..).mpr hq,?_⟩,decide_eq_true hroute⟩
    rw [← heq,(hagree i shard hi hshard).borders _ hroute,hborder]
    rfl

theorem longest_border
    (pre : String) : ((h.shards.shardIds.flatMap (ownBorders h.shards pre)).argmax fun e => e.1.utf8ByteSize).map Prod.snd =
      ref.longestBorder pre := by
  have hmem:=fun e => @mem_ownBorders h ref hs hagree pre e
  generalize h.shards.shardIds.flatMap (ownBorders h.shards pre)=l at hmem
  unfold DirectorySm.longestBorder
  rcases longest_cases (fun q => ref.borders (String.ofList q)) pre.toList with ⟨hnone,hall⟩ | ⟨q,b,hq,hb,hfind,hlong⟩
  · rw [hnone]
    have hnil : l=[] := by
      rw [List.eq_nil_iff_forall_not_mem]
      intro e he
      obtain ⟨q,hq,heq,hborder⟩:=(hmem e).mp he
      rw [heq,hall q hq] at hborder
      contradiction
    rw [hnil]
    rfl
  · rw [hfind]
    have hcand : (String.ofList q,b)∈l := (hmem _).mpr ⟨q,hq,rfl,hb⟩
    cases hmax : l.argmax fun e => e.1.utf8ByteSize with
    | none =>
      rw [List.argmax_eq_none.mp hmax] at hcand
      contradiction
    | some m =>
      obtain ⟨q',hq',heq,hborder⟩:=(hmem m).mp (List.argmax_mem hmax)
      have hsize : (String.ofList q).utf8ByteSize ≤ m.1.utf8ByteSize := @List.le_of_mem_argmax _ _ _ (fun e : String × String => e.1.utf8ByteSize) l _ _ hcand hmax
      rw [heq] at hsize hborder
      -- neither segment is longer than the other
      have hle : q'.length≤q.length := by
        by_contra hlt
        rw [hlong q' hq' (by omega)] at hborder
        contradiction
      have hpre : q'<+:q := List.prefix_of_prefix_length_le hq' hq hle
      have hge : q.length≤q'.length := by
        by_contra hlt
        have:=prefix_size_lt hpre (by omega)
        omega
      obtain rfl : q'=q := hpre.eq_of_length (by omega)
      rw [map_some]
      exact hborder.symm.trans hb

end

theorem versions_fit :
    0+(h.shards.shardIds.map fun i => ((h.shards.shards i).map fun shard => shard.sm.version).getD 0).sum≤u64Max := by
  rw [Nat.zero_add]
  refine le_trans (List.sum_le_sum ?_) hs.space
  intro i hi
  obtain ⟨shard,hshard,hsound⟩:=hs.shard i hi
  have hcount:=hsound.count
  rw [hshard,map_some,map_some,getD_some,getD_some]
  omega

theorem query_answers (q : DirQuery) : ∃ r, h.shards.queryChecked q=.ok r ∧
    r.map DirEntry.answer=((h.applied.foldl DirectorySm.applyValidated .default).query q).map DirEntry.answer := by
  have hagree : ∀ i shard, i∈h.shards.shardIds → h.shards.shards i=some shard →
      Agree h.shards.route i shard.sm (h.applied.foldl DirectorySm.applyValidated .default) := by
    intro i shard hi hshard
    obtain ⟨x,hx,hsound⟩:=hs.shard i hi
    obtain rfl:=Option.some.inj (hx.symm.trans hshard)
    exact hsound.agree
  have howner : ∀ key, ∃ i shard, i∈h.shards.shardIds ∧ h.shards.route key=some i ∧
      h.shards.shards i=some shard ∧ h.shards.readOwner key=.ok shard := by
    intro key
    obtain ⟨i,hi,hroute⟩:=hs.owner key
    obtain ⟨shard,hshard,-⟩:=hs.shard i hi
    refine ⟨i,shard,hi,hroute,hshard,?_⟩
    unfold DirectoryShards.readOwner
    rw [hroute]
    dsimp only
    rw [hshard]
  have hne : h.shards.shardIds≠[] := by
    obtain ⟨i,hi,-⟩:=hs.owner ""
    exact List.ne_nil_of_mem hi
  unfold DirectoryShards.queryChecked
  rw [if_neg hne]
  cases q with
  | resolve node =>
    obtain ⟨i,shard,hi,hroute,hshard,hread⟩:=howner node
    dsimp only
    rw [hread]
    exact ⟨_,rfl,(hagree i shard hi hshard).nodes node hroute⟩
  | nodesForKey key =>
    obtain ⟨i,shard,hi,hroute,hshard,hread⟩:=howner ("key:"++key)
    dsimp only
    rw [hread]
    refine ⟨_,rfl,?_⟩
    simp only [DirectorySm.query,(hagree i shard hi hshard).keys key hroute,map_map]
    rfl
  | borderFor pre =>
    have hall : ∀ i∈h.shards.shardIds, ∃ shard, h.shards.shards i=some shard := by
      intro i hi
      obtain ⟨shard,hshard,-⟩:=hs.shard i hi
      exact ⟨shard,hshard⟩
    obtain ⟨v,hscan⟩:=@scanBorders_ok h.shards pre h.shards.shardIds 0 none hall (versions_fit hs)
    have hlongest:=longest_border hs hagree pre
    unfold List.argmax at hlongest
    dsimp only
    rw [hscan]
    refine ⟨_,rfl,?_⟩
    simp only [DirectorySm.query,← hlongest,map_map]
    rfl

end

end answers

theorem shards_sound {h h' : ShardHistory} (hrun : Relation.ReflTransGen ShardStep h h') (hs : ShardsSound h) :
    ShardsSound h' := by
  induction hrun with
  | refl => exact hs
  | tail _ hstep ih => exact shardStep_sound hstep ih

/-- In every run a query has the answer of one state machine that applied the accepted
commands in order. A refused command leaves all shards as they were, and what was
accepted is applied. -/
theorem shards_refine_directory (sort : SortByHash) (shardCount : ℕ) (clock : Clock) (identity : ℕ)
    (hcount : 0<shardCount) (h : ShardHistory)
    (hrun : Relation.ReflTransGen ShardStep ⟨.new sort shardCount clock identity,[],[]⟩ h) :
    (∀ q, ∃ r, h.shards.queryChecked q=.ok r ∧
      r.map DirEntry.answer=((h.applied.foldl DirectorySm.applyValidated .default).query q).map DirEntry.answer) ∧
    (∀ cmd e s', h.shards.propose cmd=.ok (.error e,s') → s'=h.shards) ∧
    ∀ order, order.Perm h.shards.shardIds → ∃ k s', h.shards.applyCommittedAll order=(.ok k,s') := by
  have hs:=shards_sound hrun (shards_start hcount clock identity)
  refine ⟨query_answers hs,?_,?_⟩
  · intro cmd e s' hp
    rcases propose_cases hs.distinct hp with ⟨e',-,heq⟩ | ⟨receipt,bytes,targets,hr,-⟩
    · exact heq
    · exact nomatch hr
  · intro order horder
    obtain ⟨k,s',hok,-⟩:=applied_sound hs horder
    exact ⟨k,s',hok⟩

theorem tick_leads {n : RaftNode} (h : WellFormed n) (hrole : n.role ≠ .leader) (hpeers : n.peers=[])
    (hterm : n.currentTerm<u64Max) {clock : Clock}
    (hwait : saturatingAdd clock.electionTimeoutMs n.timeoutJitterMs≤clock.nowMs 0-n.lastHeartbeatMs) :
    ∃ n', n.tick clock=.ok n' ∧ n'.role=.leader := by
  have hquorum : (n.campaign clock).votesReceived.length≥(n.campaign clock).quorum := by
    change 1≥(n.peers.length+1)/2+1
    rw [hpeers]
    decide
  have helected : n.startElection clock=(n.campaign clock).becomeLeader (clock.nowMs 2) := by
    unfold RaftNode.startElection
    rw [if_pos (Nat.succ_le_of_lt hterm)]
    exact if_pos hquorum
  have htick : n.tick clock=n.startElection clock := by
    unfold RaftNode.tick
    split
    · contradiction
    · exact if_pos hwait
  rw [htick,helected]
  have hnext : add (n.campaign clock).lastLogIndex 1=.ok (n.log.length+1) := add_ok h.length_lt
  unfold RaftNode.becomeLeader
  rw [hnext]
  simp only [bind,Except.bind]
  exact ⟨_,broadcastAppend_alone rfl (show n.peers=[] from hpeers),rfl⟩

def loneShards : DirectoryShards := .new .stable 1 ⟨fun _ => 0,1,1,1⟩ 0

theorem shards_refine_directory_lone : ∃ h, Relation.ReflTransGen ShardStep ⟨loneShards,[],[]⟩ h ∧
    h.applied=[.remove "n"] ∧
    (∀ q, ∃ r, h.shards.queryChecked q=.ok r ∧
      r.map DirEntry.answer=((h.applied.foldl DirectorySm.applyValidated .default).query q).map DirEntry.answer) ∧
    (∀ cmd e s', h.shards.propose cmd=.ok (.error e,s') → s'=h.shards) ∧
    ∀ order, order.Perm h.shards.shardIds → ∃ k s', h.shards.applyCommittedAll order=(.ok k,s') := by
  let node:=RaftNode.new ⟨fun _ => 0,1,1,1⟩ "dir-s0" []
  have hstart : ShardsSound ⟨loneShards,[],[]⟩ := shards_start Nat.one_pos ..
  have hwf : WellFormed node := wellFormed_new ..
  obtain ⟨leader,htick,hrole⟩:=@tick_leads node hwf (by decide) (new_alone ..) (by decide) ⟨fun _ => 2,1,1,1⟩ (by decide)
  have h1 : ShardStep ⟨loneShards,[],[]⟩ ⟨loneShards.set "dir-s0" ⟨leader,.default⟩,[],[]⟩ :=
    .tick ⟨loneShards,[],[]⟩ "dir-s0" ⟨fun _ => 2,1,1,1⟩ ⟨node,.default⟩ leader rfl htick
  obtain ⟨hled,-,-,-,hlog,-⟩:=@tick_alone node leader hwf rfl [] rfl _ htick
  have hcap : 40*(leader.log.length+1) ≤ isizeMax := by
    rw [hlog]
    decide
  obtain ⟨bytes,hbytes⟩ : ∃ bytes, (DirCmd.remove "n").encode .bounded=.ok bytes := ⟨_,rfl⟩
  obtain ⟨raft,hpropose,-,hgrown⟩:=propose_planned hled hrole bytes hcap
  have hshard : (loneShards.set "dir-s0" ⟨leader,.default⟩).shards "dir-s0" = some ⟨leader,.default⟩ := rfl
  have haccept : ∃ receipt, (loneShards.set "dir-s0" ⟨leader,.default⟩).propose (.remove "n") =
      .ok (.ok receipt,(loneShards.set "dir-s0" ⟨leader,.default⟩).set "dir-s0" ⟨raft,.default⟩) := by
    have htargets : (loneShards.set "dir-s0" ⟨leader,.default⟩).targets (.remove "n")=.ok ["dir-s0"] := rfl
    unfold DirectoryShards.propose
    rw [hbytes]
    dsimp only
    rw [htargets]
    simp only [DirectoryShards.preflight,DirectoryShards.appendAll,hshard,hrole,hpropose]
    exact ⟨_,rfl⟩
  obtain ⟨receipt,haccept⟩:=haccept
  have hspace : ((loneShards.set "dir-s0" ⟨leader,.default⟩).set "dir-s0" ⟨raft,.default⟩).Addressable := by
    change 40*raft.log.length+0≤u64Max
    rw [hgrown,hlog]
    change 40*1+0≤u64Max
    decide
  have h2:=ShardStep.accepted ⟨loneShards.set "dir-s0" ⟨leader,.default⟩,[],[]⟩ (.remove "n") receipt _ haccept hspace
  have hsound:=shardStep_sound h2 (shardStep_sound h1 hstart)
  obtain ⟨k,s',happly,-⟩:=applied_sound hsound (List.Perm.refl _)
  have hrun:=((Relation.ReflTransGen.single h1).tail h2).tail (.applied _ _ k s' (List.Perm.refl _) happly)
  exact ⟨_,hrun,rfl,shards_refine_directory _ _ _ _ Nat.one_pos _ hrun⟩

end Parrot.Directory
