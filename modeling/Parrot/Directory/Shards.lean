import Parrot.Directory.Bounded

/-! # The sharded directory (`roles/directory.rs:290-596`, `sharding.rs:17-57`)

A ring of hashed virtual nodes gives every record key its owner. -/

namespace Parrot.Directory
open Machine Parrot.Raft

def fnv1a (data : Bytes) : UInt64 :=
  let h:=fnv 0xcbf29ce484222325 data
  let z:=h+0x9e3779b97f4a7c15
  let z:=(z ^^^ (z >>> 30))*0xbf58476d1ce4e5b9
  let z:=(z ^^^ (z >>> 27))*0x94d049bb133111eb
  z ^^^ (z >>> 31)

/-- `sort_unstable_by_key`: entries of one hash may end in any order. -/
structure SortByHash where
  sort : List (UInt64 × String) → List (UInt64 × String)
  perm : ∀ l, (sort l).Perm l
  sorted : ∀ l, (sort l).Pairwise fun a b => a.1≤b.1

def SortByHash.stable : SortByHash where
  sort l := l.mergeSort fun a b => decide (a.1≤b.1)
  perm l := List.mergeSort_perm l _
  sorted l := by
    have h:=@List.pairwise_mergeSort _ (fun a b : UInt64 × String => decide (a.1≤b.1))
      (fun a b c hab hbc => decide_eq_true (UInt64.le_trans (of_decide_eq_true hab) (of_decide_eq_true hbc)))
      (fun a b => by simpa using UInt64.le_total a.1 b.1) l
    exact h.imp fun hab => of_decide_eq_true hab

structure HashRing where
  vnodes : List (UInt64 × String)

namespace HashRing

def new (sort : SortByHash) (nodes : List String) (vnodesPerNode : ℕ) : HashRing :=
  ⟨sort.sort (nodes.flatMap fun n => (List.range vnodesPerNode).map fun i =>
    (fnv1a (Bincode.utf8 (n++"#"++toString i)),n))⟩

/-- The first virtual node at or after the key's hash, around the ring. -/
def node (r : HashRing) (key : String) : Option String :=
  let h:=fnv1a (Bincode.utf8 key)
  let idx:=(r.vnodes.takeWhile fun v => decide (v.1<h)).length
  let idx:=if idx=r.vnodes.length then 0 else idx
  (r.vnodes[idx]?).map Prod.snd

theorem node_mem {sort : SortByHash} {nodes : List String} {k : ℕ} {key id : String}
    (h : (new sort nodes k).node key=some id) : id∈nodes := by
  obtain ⟨v,hv,rfl⟩:=Option.map_eq_some_iff.mp h
  have hmem:=(sort.perm _).mem_iff.mp (List.mem_of_getElem? hv)
  obtain ⟨n,hn,hv⟩:=List.mem_flatMap.mp hmem
  obtain ⟨i,-,rfl⟩:=List.mem_map.mp hv
  exact hn

theorem node_isSome (sort : SortByHash) {nodes : List String} (hnodes : nodes≠[]) {k : ℕ} (hk : 0<k)
    (key : String) : ∃ id, (new sort nodes k).node key=some id := by
  have hne : (new sort nodes k).vnodes≠[] := by
    intro hnil
    have hlen:=(sort.perm (nodes.flatMap fun n => (List.range k).map fun i =>
      (fnv1a (Bincode.utf8 (n++"#"++toString i)),n))).length_eq
    rw [show sort.sort _=[] from hnil,List.length_nil] at hlen
    obtain ⟨n,rest,rfl⟩:=List.exists_cons_of_ne_nil hnodes
    rw [List.flatMap_cons,List.length_append,List.length_map,List.length_range] at hlen
    omega
  have hpos:=List.length_pos_of_ne_nil hne
  have hle:=(List.takeWhile_sublist (l := (new sort nodes k).vnodes) fun v => decide (v.1<fnv1a (Bincode.utf8 key))).length_le
  unfold node
  dsimp only
  split
  · rw [List.getElem?_eq_getElem hpos]
    exact ⟨_,rfl⟩
  · rw [List.getElem?_eq_getElem (by omega)]
    exact ⟨_,rfl⟩

end HashRing

structure DirectoryReplica where
  raft : RaftNode
  sm : DirectorySm

def DirectoryReplica.new (clock : Clock) (id : String) (peers : List NodeId) : DirectoryReplica :=
  ⟨RaftNode.new clock id peers,.default⟩

/-- `identity` is the owner's allocation, as in a durable directory's receipts. -/
structure DirectoryShards where
  shards : String → Option DirectoryReplica
  ring : HashRing
  shardIds : List String
  identity : ℕ

structure DirectoryPosition where
  shard : String
  index : ℕ
  term : ℕ

structure DirectoryProposal where
  identity : ℕ
  positions : List DirectoryPosition
  commandDigest : Bytes

inductive DirectoryWriteError where
  | command (e : DirectoryApplyError)
  | noShards
  | unavailable (shard : String)
  | notLeader (shard : String) (leader : Option NodeId)

inductive DirectoryReadError where
  | noShards
  | unavailable (shard : String)
  | versionOverflow

def dirCmdKey : DirCmd → String
  | .upsert node _ => node
  | .remove node => node
  | .borderDeclare pre _ => "border:"++pre
  | .keyAggregate key _ => "key:"++key

def DirCmd.isRemove : DirCmd → Bool
  | .remove _ => true
  | _ => false

/-- Decode every entry, with a revision for each, before anything is applied. -/
def DirectorySm.prepare (sm : DirectorySm) (entries : List LogEntry) : Except DirectoryApplyError (List DirCmd) :=
  match checkedAdd sm.version entries.length with
  | none => .error .revisionExhausted
  | some _ => entries.mapM fun e => DirCmd.decode .bounded e.cmd

def shardNames (shardCount : ℕ) : List String := (List.range shardCount).map fun i => "dir-s"++toString i

namespace DirectoryShards

def new (sort : SortByHash) (shardCount : ℕ) (clock : Clock) (identity : ℕ) : DirectoryShards where
  shards id := if id∈shardNames shardCount then some (.new clock id []) else none
  ring := .new sort (shardNames shardCount) 256
  shardIds := shardNames shardCount
  identity := identity

def route (s : DirectoryShards) (key : String) : Option String := s.ring.node key

def set (s : DirectoryShards) (id : String) (r : DirectoryReplica) : DirectoryShards :=
  {s with shards:=Function.update s.shards id (some r)}

def targets (s : DirectoryShards) (cmd : DirCmd) : Except DirectoryWriteError (List String) :=
  if cmd.isRemove then
    if s.shardIds=[] then .error .noShards else .ok s.shardIds
  else
    match s.route (dirCmdKey cmd) with
    | none => .error .noShards
    | some id => .ok [id]

/-- Every participant must be present and lead before any append. -/
def preflight (s : DirectoryShards) : List String → Except DirectoryWriteError Unit
  | [] => .ok ()
  | id::rest =>
    match s.shards id with
    | none => .error (.unavailable id)
    | some shard =>
      if shard.raft.role ≠ .leader then .error (.notLeader id shard.raft.leaderHint) else s.preflight rest

/-- The appends, one shard after another; an error keeps those already made. -/
def appendAll (bytes : Bytes) : List String → List DirectoryPosition → DirectoryShards →
    Except Panic (Except DirectoryWriteError (List DirectoryPosition) × DirectoryShards)
  | [],positions,s => .ok (.ok positions,s)
  | id::rest,positions,s =>
    match s.shards id with
    | none => .ok (.error (.unavailable id),s)
    | some shard =>
      match shard.raft.propose bytes with
      | .error p => .error p
      | .ok (.error hint,_) => .ok (.error (.notLeader id hint),s)
      | .ok (.ok index,raft) =>
        appendAll bytes rest (positions++[⟨id,index,raft.currentTerm⟩]) (s.set id {shard with raft:=raft})

def propose (s : DirectoryShards) (cmd : DirCmd) :
    Except Panic (Except DirectoryWriteError DirectoryProposal × DirectoryShards) :=
  match cmd.encode .bounded with
  | .error e => .ok (.error (.command e),s)
  | .ok bytes =>
    match s.targets cmd with
    | .error e => .ok (.error e,s)
    | .ok targets =>
      match s.preflight targets with
      | .error e => .ok (.error e,s)
      | .ok () =>
        match appendAll bytes targets [] s with
        | .error p => .error p
        | .ok (.error e,s') => .ok (.error e,s')
        | .ok (.ok positions,s') => .ok (.ok ⟨s.identity,positions,DirectoryCodec.bounded.digest bytes⟩,s')

def prepareAll (s : DirectoryShards) : List String → Except DirectoryApplyError (List (String × List DirCmd))
  | [] => .ok []
  | id::rest =>
    match s.shards id with
    | none => s.prepareAll rest
    | some shard => do
      let commands ← shard.sm.prepare shard.raft.pendingApply
      let prepared ← s.prepareAll rest
      return (id,commands)::prepared

def applyShard (s : DirectoryShards) (p : String × List DirCmd) : DirectoryShards :=
  match s.shards p.1 with
  | none => s
  | some shard => s.set p.1 ⟨shard.raft.committed.2,p.2.foldl DirectorySm.applyValidated shard.sm⟩

/-- `order` is the order in which the map of shards is iterated. -/
def applyCommittedAll (s : DirectoryShards) (order : List String) : Except DirectoryApplyError ℕ × DirectoryShards :=
  match s.prepareAll order with
  | .error e => (.error e,s)
  | .ok prepared => (.ok (prepared.map fun p => p.2.length).sum,prepared.foldl applyShard s)

def readOwner (s : DirectoryShards) (key : String) : Except DirectoryReadError DirectoryReplica :=
  match s.route key with
  | none => .error .noShards
  | some id =>
    match s.shards id with
    | none => .error (.unavailable id)
    | some shard => .ok shard

/-- The declared prefixes of `pre`. They differ in length, so that the order of the
map's own iteration has no say in which is the longest. -/
def bordersUnder (sm : DirectorySm) (pre : String) : List (String × String) :=
  pre.toList.inits.filterMap fun p => (sm.borders (String.ofList p)).map fun node => (String.ofList p,node)

def improve (s : DirectoryShards) (id : String) (best : Option (String × String)) (e : String × String) :
    Option (String × String) :=
  if s.route ("border:"++e.1)=some id ∧ (best.all fun old => decide (e.1.utf8ByteSize>old.1.utf8ByteSize)) then some e
  else best

def scanBorders (s : DirectoryShards) (pre : String) : List String → ℕ → Option (String × String) →
    Except DirectoryReadError (ℕ × Option (String × String))
  | [],version,best => .ok (version,best)
  | id::rest,version,best =>
    match s.shards id with
    | none => .error (.unavailable id)
    | some shard =>
      match checkedAdd version shard.sm.version with
      | none => .error .versionOverflow
      | some version => s.scanBorders pre rest version ((bordersUnder shard.sm pre).foldl (s.improve id) best)

def queryChecked (s : DirectoryShards) (q : DirQuery) : Except DirectoryReadError (Option DirEntry) :=
  if s.shardIds=[] then .error .noShards
  else
    match q with
    | .resolve prefixOrNode => (s.readOwner prefixOrNode).map fun shard => shard.sm.query q
    | .nodesForKey key => (s.readOwner ("key:"++key)).map fun shard => shard.sm.query q
    | .borderFor pre => (s.scanBorders pre s.shardIds 0 none).map fun p =>
      p.2.map fun e => ⟨["parrot://"++e.2],p.1,60⟩

end DirectoryShards
end Parrot.Directory
