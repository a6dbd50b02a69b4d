import Parrot.Lib.AtomicReplace
import Parrot.Lib.Bincode
import Parrot.Lib.Sha256
import Parrot.Raft.Node

/-! # The durable Raft host (`raft/storage.rs`)

`DurableRaft` owns a node and its snapshot file. -/

namespace Parrot.Raft
open Machine CrashFs

def maxSnapshot : ℕ := 16*1024*1024
def maxEntries : ℕ := 65536
def maxCommand : ℕ := 1024*1024
def magic : Bytes := [0x50,0x52,0x41,0x46,0x54,0x30,0x31,0x00]

/- `Storage` carries the operating system's text, which the model leaves out. -/
inductive RaftStorageError where
  | storage
  | invalid (reason : String)
  | capacity
  | closed
  | notLeader (hint : Option NodeId)
  deriving DecidableEq

inductive RaftFile where
  | state
  | next
  deriving DecidableEq

structure Saved where
  version : UInt8
  cluster : String
  id : NodeId
  peers : List NodeId
  term : ℕ
  vote : Option NodeId
  log : List LogEntry
  commit : ℕ

/- `bincode` over `Saved`, read back under the limits of `open_validated`, and
SHA-256: what decodes an encoded snapshot at all returns that snapshot. -/
structure SnapshotCodec where
  encode : Saved → Bytes
  decode : Bytes → Except String Saved
  digest : Bytes → Bytes
  decode_encode : ∀ s s', decode (encode s)=.ok s' → s'=s
  digest_length : ∀ b, (digest b).length=32

def entryCodec : Bincode.Codec LogEntry :=
  (Bincode.u64.pair (Bincode.u64.pair Bincode.bytes)).via (fun e => (e.term,e.index,e.cmd))
    (fun p => some ⟨p.1,p.2.1,p.2.2⟩) fun _ => rfl

def savedCodec : Bincode.Codec Saved :=
  (Bincode.u8.pair <| Bincode.string.pair <| Bincode.string.pair <| Bincode.string.list.pair <|
    Bincode.u64.pair <| Bincode.string.option.pair <| entryCodec.list.pair Bincode.u64).via
    (fun s => (s.version,s.cluster,s.id,s.peers,s.term,s.vote,s.log,s.commit))
    (fun p => some ⟨p.1,p.2.1,p.2.2.1,p.2.2.2.1,p.2.2.2.2.1,p.2.2.2.2.2.1,p.2.2.2.2.2.2.1,
      p.2.2.2.2.2.2.2⟩) fun _ => rfl

def SnapshotCodec.standard : SnapshotCodec where
  encode := savedCodec.encode
  decode bytes := match savedCodec.decode bytes with
    | some (s,[]) => .ok s
    | _ => .error "snapshot codec"
  digest := Sha256.digest
  decode_encode := by
    intro s s' h
    have hdec:=savedCodec.decode_encode s []
    rw [List.append_nil] at hdec
    rw [hdec] at h
    by_cases hfit : savedCodec.fits s=true
    · rw [if_pos hfit] at h
      exact (Except.ok.inj h).symm
    · rw [if_neg hfit] at h
      contradiction
  digest_length := Sha256.digest_length

structure DurableRaft where
  node : RaftNode
  saved : Saved
  failed : Bool

def validId (s : String) : Bool :=
  !s.isEmpty&&decide (s.utf8ByteSize≤1024)&&!s.toList.any isControl

def snapshot (node : RaftNode) (cluster : String) : Saved where
  version := 1
  cluster := cluster
  id := node.id
  peers := node.peers
  term := node.currentTerm
  vote := node.votedFor
  log := node.log
  commit := node.commitIndex

/-- The loop of `validate`. -/
def validateOrder (term : ℕ) : ℕ → ℕ → List LogEntry → Bool
  | _,_,[] => true
  | i,previousTerm,entry::rest =>
    if entry.index≠i+1 ∨ entry.term=0 ∨ entry.term>term ∨ entry.term<previousTerm then false
    else validateOrder term (i+1) entry.term rest

def Saved.validate (s : Saved) : Except RaftStorageError Unit :=
  if s.log.length>maxEntries ∨ ∃ e∈s.log, e.cmd.length>maxCommand then .error .capacity
  else if s.commit>s.log.length ∨ (s.term=0 ∧ s.vote.isSome) ∨ ∃ v∈s.vote, v≠s.id ∧ v∉s.peers then
    .error (.invalid "invalid commit index or vote")
  else if validateOrder s.term 0 0 s.log=false then
    .error (.invalid "invalid log index/term ordering")
  else .ok ()

section codec
variable (codec : SnapshotCodec)

def chunks (s : Saved) : List Bytes := [magic,codec.digest (codec.encode s),codec.encode s]
def image (s : Saved) : Bytes := (chunks codec s).flatten

/-- The checks of `open_validated` on the bytes of `raft.state`. -/
def load (bytes : Bytes) : Except RaftStorageError Saved :=
  if bytes.length<40 ∨ bytes.length>maxSnapshot ∨ bytes.take 8≠magic ∨
      codec.digest (bytes.drop 40)≠(bytes.drop 8).take 32 then
    .error (.invalid "corrupt snapshot")
  else
    match codec.decode (bytes.drop 40) with
    | .error e => .error (.invalid e)
    | .ok s => .ok s

def publish (budget : ℕ) (s : Saved) (d : Disk RaftFile) :
    Disk RaftFile × Except RaftStorageError ℕ :=
  if 40+(codec.encode s).length>maxSnapshot then (d,.error .capacity)
  else
    match d.exec budget (replace .next .state (chunks codec s)) with
    | (d',none) => (d',.error .storage)
    | (d',some left) => (d',.ok left)

def recovered (node : RaftNode) (s : Saved) : RaftNode :=
  {node with
    currentTerm := s.term
    votedFor := s.vote
    log := s.log
    commitIndex := s.commit
    lastApplied := s.commit
    pendingApply := s.log.take s.commit}

def validateCommands (validateCommand : Bytes → Except String Unit) (log : List LogEntry) :
    Except RaftStorageError Unit :=
  match log.forM fun entry => validateCommand entry.cmd with
  | .error e => .error (.invalid e)
  | .ok () => .ok ()

/-- What a readable `raft.state` must satisfy before anything is touched. -/
def accept (cluster : String) (node : RaftNode) (validateCommand : Bytes → Except String Unit)
    (bytes : Bytes) : Except RaftStorageError Saved := do
  let saved ← load codec bytes
  if saved.version≠1 ∨ saved.cluster≠cluster ∨ saved.id≠node.id ∨ saved.peers≠node.peers then
    .error (.invalid "snapshot cluster/node/membership mismatch")
  else
    saved.validate
    validateCommands validateCommand saved.log
    return saved

/-- The directory's own name is synced last, in its parent. -/
def syncParent (host : DurableRaft) :
    Disk RaftFile × Option ℕ → Disk RaftFile × Except RaftStorageError DurableRaft
  | (d,some (_+1)) => (d,.ok host)
  | (d,_) => (d,.error .storage)

def DurableRaft.openValidated (clock : Clock) (cluster : String) (id : NodeId) (peers : List NodeId)
    (validateCommand : Bytes → Except String Unit) (budget : ℕ) (d : Disk RaftFile) :
    Disk RaftFile × Except RaftStorageError DurableRaft :=
  if validId cluster=false ∨ validId id=false ∨ peers.length>255 ∨ ∃ p∈peers, validId p=false then
    (d,.error (.invalid "invalid cluster/member identifiers or too many peers"))
  else
    let node:=RaftNode.new clock id peers
    match d.read .state with
    | some bytes =>
      match accept codec cluster node validateCommand bytes with
      | .error e => (d,.error e)
      | .ok saved =>
        let stale:=if (d.read .next).isSome then [Effect.unlink RaftFile.next] else []
        syncParent ⟨recovered node saved,saved,false⟩ (d.exec budget (stale++[.sync .state,.syncDir]))
    | none =>
      if (d.read .next).isSome then
        (d,.error (.invalid "incomplete initial snapshot; refusing reset"))
      else
        let saved:=snapshot node cluster
        match publish codec budget saved d with
        | (d',.error e) => (d',.error e)
        | (d',.ok left) => syncParent ⟨node,saved,false⟩ (d',some left)

/-- What a call leaves behind: the disk, the host and the caller's result. -/
structure Outcome (α : Type) where
  disk : Disk RaftFile
  host : DurableRaft
  result : Except RaftStorageError α

namespace DurableRaft

def role (h : DurableRaft) : Role := if h.failed then .follower else h.node.role
def currentTerm (h : DurableRaft) : ℕ := h.saved.term
def votedFor (h : DurableRaft) : Option NodeId := h.saved.vote
def commitIndex (h : DurableRaft) : ℕ := h.saved.commit
def log (h : DurableRaft) : List LogEntry := h.saved.log

def refused {α : Type} (h : DurableRaft) (d : Disk RaftFile) (e : RaftStorageError) : Outcome α :=
  ⟨d,h,.error e⟩

/- `max_by_key` keeps the last of the longest. -/
def longestVoter (s : Saved) : NodeId :=
  s.peers.foldl (fun best p => if best.utf8ByteSize≤p.utf8ByteSize then p else best) s.id

/-- The largest snapshot that the given log can ever need. -/
def reserved (s : Saved) (kept added : List LogEntry) : Saved :=
  {s with term:=u64Max,vote:=some (longestVoter s),log:=kept++added,commit:=u64Max}

def checkLogCapacity (h : DurableRaft) (kept added : List LogEntry) : Bool :=
  decide (kept.length+added.length ≤ maxEntries) &&
    decide (40+(codec.encode (reserved h.saved kept added)).length ≤ maxSnapshot)

def failure {α : Type} (h : DurableRaft) (d : Disk RaftFile) (e : RaftStorageError) : Outcome α :=
  ⟨d,{h with failed := true,node := {h.node with outbox:=[],pendingApply:=[]}},.error e⟩

def finish {α : Type} (h : DurableRaft) (budget : ℕ) (d : Disk RaftFile) (value : α) : Outcome α :=
  if h.saved.term=h.node.currentTerm ∧ h.saved.vote=h.node.votedFor ∧
      h.saved.log=h.node.log ∧ h.saved.commit=h.node.commitIndex then ⟨d,h,.ok value⟩
  else
    let saved:=snapshot h.node h.saved.cluster
    match saved.validate with
    | .error e => h.failure d e
    | .ok () =>
      match publish codec budget saved d with
      | (d',.error e) => h.failure d' e
      | (d',.ok _) => ⟨d',{h with saved:=saved},.ok value⟩

def tick (h : DurableRaft) (clock : Clock) (budget : ℕ) (d : Disk RaftFile) :
    Except Panic (Outcome Unit) :=
  if h.failed then .ok (h.refused d .closed)
  else do
    let node ← h.node.tick clock
    return finish codec {h with node:=node} budget d ()

/-- The batch limits `step` checks before the core sees the message. -/
def oversized : RaftRpc → Bool
  | .appendEntries _ _ _ _ entries _ =>
    decide (entries.length>maxEntries)||entries.any (fun e => decide (e.cmd.length>maxCommand)) ||
      decide ((entries.map fun e => e.cmd.length).sum>maxSnapshot)
  | _ => false

/-- The log a batch would leave must fit the snapshot. -/
def overflows (h : DurableRaft) (sender : NodeId) : RaftRpc → Bool
  | .appendEntries term leader prevLogIndex prevLogTerm entries _ =>
    if term≥h.node.currentTerm ∧ leader=sender ∧ sender∈h.node.peers then
      match h.node.appendPlan prevLogIndex prevLogTerm entries with
      | some (keep,skip) =>
        decide (skip<entries.length) &&
          !checkLogCapacity codec h (h.node.log.take keep) (entries.drop skip)
      | none => false
    else false
  | _ => false

def step (h : DurableRaft) (clock : Clock) (sender : NodeId) (rpc : RaftRpc) (budget : ℕ)
    (d : Disk RaftFile) : Except Panic (Outcome Unit) :=
  if h.failed then .ok (h.refused d .closed)
  else
    match rpc.validateShape with
    | .error e => .ok (h.refused d (.invalid e))
    | .ok () =>
      if oversized rpc||overflows codec h sender rpc then .ok (h.refused d .capacity)
      else do
        let node ← h.node.step clock sender rpc
        return finish codec {h with node:=node} budget d ()

def propose (h : DurableRaft) (cmd : Bytes) (budget : ℕ) (d : Disk RaftFile) :
    Except Panic (Outcome ℕ) :=
  if h.failed then .ok (h.refused d .closed)
  else if cmd.length>maxCommand ∨ h.node.log.length≥maxEntries then .ok (h.refused d .capacity)
  else if h.node.role ≠ .leader then .ok (h.refused d (.notLeader h.node.leaderHint))
  else if checkLogCapacity codec h h.node.log [⟨h.node.currentTerm,h.node.log.length+1,cmd⟩]=false then
    .ok (h.refused d .capacity)
  else do
    match ← h.node.propose cmd with
    | (.error hint,node) => return refused {h with node:=node} d (.notLeader hint)
    | (.ok index,node) => return finish codec {h with node:=node} budget d index

def outbox (h : DurableRaft) : Except RaftStorageError (List (NodeId × RaftRpc)) × DurableRaft :=
  if h.failed then (.error .closed,h)
  else (.ok h.node.takeOutbox.1,{h with node:=h.node.takeOutbox.2})

def committed (h : DurableRaft) : Except RaftStorageError (List LogEntry) × DurableRaft :=
  if h.failed then (.error .closed,h)
  else (.ok h.node.committed.1,{h with node:=h.node.committed.2})

end DurableRaft
end codec
end Parrot.Raft
