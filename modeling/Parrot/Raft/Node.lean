import Mathlib.Data.List.Destutter
import Parrot.Lib.Machine

/-! # Raft messages (`raft/mod.rs:24-111`)

Message and log types of the Raft core, and `RaftRpc::validate_shape`, the only
check made on a message before a handler reads its fields. -/

theorem Parrot.noSome {α : Type} {P : α → Prop} : ∀ a, none=some a → P a := nofun

namespace Parrot.Raft
open Machine

abbrev NodeId := String
abbrev Bytes := List UInt8

structure LogEntry where
  term : ℕ
  index : ℕ
  cmd : Bytes
  deriving DecidableEq

inductive RaftRpc where
  | requestVote (term : ℕ) (candidate : NodeId) (lastLogIndex : ℕ) (lastLogTerm : ℕ)
  | requestVoteResp (term : ℕ) (voteGranted : Bool)
  | appendEntries (term : ℕ) (leader : NodeId) (prevLogIndex : ℕ)
      (prevLogTerm : ℕ) (entries : List LogEntry) (leaderCommit : ℕ)
  | appendEntriesResp (term : ℕ) (success : Bool) (matchIndex : ℕ)

def RaftRpc.term : RaftRpc → ℕ
  | .requestVote term _ _ _ => term
  | .requestVoteResp term _ => term
  | .appendEntries term _ _ _ _ _ => term
  | .appendEntriesResp term _ _ => term

/-- The closure `position`: index zero exactly at term zero, never beyond `term`. -/
def position (index entryTerm term : ℕ) : Bool :=
  decide (index=0)==decide (entryTerm=0)&&decide (entryTerm≤term)

/-- The loop over a batch: consecutive indexes, positive non-decreasing terms. -/
def validateEntries (term : ℕ) : ℕ → ℕ → List LogEntry → Bool
  | _,_,[] => true
  | index,previousTerm,entry::rest =>
    if checkedAdd index 1≠some entry.index ∨ entry.term=0 ∨ entry.term>term ∨ entry.term<previousTerm then false
    else validateEntries term entry.index entry.term rest

def RaftRpc.validateShape : RaftRpc → Except String Unit
  | .requestVote term _ lastLogIndex lastLogTerm =>
    if term=0 ∨ position lastLogIndex lastLogTerm term=false then
      .error "invalid vote term or last-log metadata"
    else .ok ()
  | .appendEntries term _ prevLogIndex prevLogTerm entries _ =>
    if term=0 ∨ position prevLogIndex prevLogTerm term=false then
      .error "invalid append term or previous-log metadata"
    else if validateEntries term prevLogIndex prevLogTerm entries=false then
      .error "invalid append entry index or term ordering"
    else .ok ()
  | .requestVoteResp _ _ => .ok ()
  | .appendEntriesResp _ _ _ => .ok ()

theorem validateEntries_get {term : ℕ} {entries : List LogEntry} {index : ℕ} {previousTerm : ℕ}
    (h : validateEntries term index previousTerm entries=true) : ∀ k e, entries[k]? = some e → e.index=index+k+1 ∧
    e.index≤u64Max ∧ 0<e.term ∧ e.term≤term ∧ previousTerm≤e.term := by
  induction entries generalizing index previousTerm with
  | nil => intro k e he; simp at he
  | cons x xs ih =>
    simp only [validateEntries] at h
    split at h
    · contradiction
    · rename_i hx
      push Not at hx
      obtain ⟨hidx,hpos,hle,hprev⟩:=hx
      have hx1:=checkedAdd_eq_some.mp hidx
      intro k e he
      cases k with
      | zero =>
        have hxe : x=e := by simpa using he
        subst hxe
        exact ⟨by omega,by omega,by omega,by omega,by omega⟩
      | succ k =>
        have hrest : xs[k]? = some e := by simpa using he
        obtain ⟨h1,h2,h3,h4,h5⟩:=ih h k e hrest
        exact ⟨by omega,h2,h3,h4,by omega⟩

theorem validateEntries_pairwise {term : ℕ} {entries : List LogEntry} {index : ℕ} {previousTerm : ℕ}
    (h : validateEntries term index previousTerm entries=true) : entries.Pairwise fun a b => a.term≤b.term := by
  induction entries generalizing index previousTerm with
  | nil => exact List.Pairwise.nil
  | cons x xs ih =>
    simp only [validateEntries] at h
    split at h
    · contradiction
    · refine List.pairwise_cons.mpr ⟨?_,ih h⟩
      intro e he
      obtain ⟨k,hk⟩:=List.getElem?_of_mem he
      exact (validateEntries_get h k e hk).2.2.2.2

end Parrot.Raft

/-! ### The Raft core (`raft/mod.rs:113-800`)

`RaftNode` as the source has it: a pure state machine driven by `tick`, `step`
and `propose`, with outgoing messages in `outbox` and committed entries in
`pendingApply`. A `HashMap` is a partial function. A handler that indexes, slices
or adds unchecked returns in `Except Panic`. -/

namespace Parrot.Raft
open Machine

/-- One call's clock. `nowMs k` is the `k`-th reading made during the call: the
clock is a trait object, and a handler may read it more than once. -/
structure Clock where
  nowMs : ℕ → ℕ
  electionTimeoutMs : ℕ
  electionJitterMs : ℕ
  heartbeatMs : ℕ

inductive Role where
  | follower
  | candidate
  | leader
  deriving DecidableEq

structure RaftNode where
  id : NodeId
  peers : List NodeId
  currentTerm : ℕ
  votedFor : Option NodeId
  log : List LogEntry
  commitIndex : ℕ
  lastApplied : ℕ
  role : Role
  leaderHint : Option NodeId
  nextIndex : NodeId → Option ℕ
  matchIndex : NodeId → Option ℕ
  sentUpper : NodeId → Option ℕ
  votesReceived : List NodeId
  lastHeartbeatMs : ℕ
  timeoutJitterMs : ℕ
  outbox : List (NodeId × RaftRpc)
  pendingApply : List LogEntry

/-- FNV-1a; the products wrap. -/
def fnv (h : UInt64) (bytes : List UInt8) : UInt64 :=
  bytes.foldl (fun h b => (h ^^^ b.toUInt64)*0x100000001b3) h

def idJitter (id : NodeId) : UInt64 := fnv 0xcbf29ce484222325 id.toUTF8.data.toList

def leBytes (n : ℕ) : List UInt8 := (List.range 8).map fun k => UInt8.ofNat (n/256^k)

/- `retain`, `sort` and `dedup` of `RaftNode::new`. Rust orders strings by their
UTF-8 bytes, which is the order of their code points. -/
def normalizePeers (id : NodeId) (peers : List NodeId) : List NodeId :=
  ((peers.filter fun peer => peer≠id).mergeSort fun a b => decide (a≤b)).destutter (· ≠ ·)

def RaftNode.new (clock : Clock) (id : NodeId) (peers : List NodeId) : RaftNode where
  id := id
  peers := normalizePeers id peers
  currentTerm := 0
  votedFor := none
  log := []
  commitIndex := 0
  lastApplied := 0
  role := .follower
  leaderHint := none
  nextIndex := fun _ => none
  matchIndex := fun _ => none
  sentUpper := fun _ => none
  votesReceived := []
  lastHeartbeatMs := clock.nowMs 0
  timeoutJitterMs := (idJitter id).toNat % max clock.electionJitterMs 1
  outbox := []
  pendingApply := []

namespace RaftNode

variable (n : RaftNode)

def lastLogTerm : ℕ := (n.log.getLast?.map LogEntry.term).getD 0
def lastLogIndex : ℕ := n.log.length
def quorum : ℕ := (n.peers.length+1)/2+1

/-- The stateful `take_while` of `send_append`: up to 3 MiB, at least one entry. -/
def batchCount (bytes : ℕ) : List LogEntry → ℕ
  | [] => 0
  | entry::rest =>
    let next:=saturatingAdd (saturatingAdd bytes entry.cmd.length) 32
    if bytes≠0 ∧ next>3*1024*1024 then 0 else batchCount next rest+1

/- `(pli, plt)` of `send_append`. -/
def previousEntry (log : List LogEntry) (ni : ℕ) : Except Panic (ℕ × ℕ) :=
  if ni≤1 then .ok (0,0) else (index log (ni-2)).map fun e => (e.index,e.term)

def sendAppend (p : NodeId) : Except Panic RaftNode :=
  if n.role ≠ .leader then .error .debugAssert
  else do
    let ni:=(n.nextIndex p).getD 1
    let prev ← previousEntry n.log ni
    let suffix ← slice n.log (ni-1) n.log.length
    let entries ← slice suffix 0 (batchCount 0 (suffix.take 1024))
    let sentEnd:=saturatingAdd prev.1 entries.length
    return {n with
      sentUpper := Function.update n.sentUpper p (some sentEnd)
      outbox := n.outbox++[(p,.appendEntries n.currentTerm n.id prev.1 prev.2 entries n.commitIndex)]}

def broadcastAppend : Except Panic RaftNode :=
  if n.role ≠ .leader then .error .debugAssert else n.peers.foldlM sendAppend n

/-- Publish `log[last_applied..commit]` and move both marks. -/
def commitTo (commit : ℕ) : Except Panic RaftNode :=
  (slice n.log n.lastApplied commit).map fun newly => {n with
      commitIndex := commit
      pendingApply := n.pendingApply++newly
      lastApplied := commit}

def advanceCommit : Except Panic RaftNode := do
  let indexes:=n.peers.map (fun p => min ((n.matchIndex p).getD 0) n.lastLogIndex)++[n.lastLogIndex]
  let sorted:=indexes.mergeSort fun a b => decide (a≤b)
  let majority ← index sorted (sorted.length-n.quorum)
  if majority>n.commitIndex ∧ (n.log[majority-1]?).map LogEntry.term=some n.currentTerm then
    n.commitTo majority >>= broadcastAppend
  else .ok n

def observeTerm (term : ℕ) : RaftNode :=
  if term≤n.currentTerm then n
  else {n with
    currentTerm := term
    role := .follower
    votedFor := none
    leaderHint := none
    votesReceived := []
    nextIndex := fun _ => none
    matchIndex := fun _ => none
    sentUpper := fun _ => none
    outbox := []}

def becomeLeader (now : ℕ) : Except Panic RaftNode := do
  let ni ← add n.lastLogIndex 1
  broadcastAppend {n with
    role := .leader
    leaderHint := some n.id
    nextIndex := fun p => if p∈n.peers then some ni else none
    matchIndex := fun p => if p∈n.peers then some 0 else none
    sentUpper := fun p => if p∈n.peers then some 0 else none
    lastHeartbeatMs := now}

variable (clock : Clock)

/-- The candidate that `start_election` builds before it counts its own vote. -/
def campaign : RaftNode :=
  {n with
    currentTerm := n.currentTerm+1
    timeoutJitterMs := (fnv (idJitter n.id) (leBytes (n.currentTerm+1))).toNat %
      max clock.electionJitterMs 1
    role := .candidate
    votedFor := some n.id
    leaderHint := none
    votesReceived := [n.id]
    lastHeartbeatMs := clock.nowMs 1
    outbox := n.outbox++n.peers.map fun p => (p,.requestVote (n.currentTerm+1) n.id n.lastLogIndex n.lastLogTerm)}

def startElection : Except Panic RaftNode :=
  if n.currentTerm+1≤u64Max then
    let n:=n.campaign clock
    if n.votesReceived.length≥n.quorum then n.becomeLeader (clock.nowMs 2) else .ok n
  else .ok n

def upToDate (lastLogIndex lastLogTerm : ℕ) : Bool :=
  lastLogTerm>n.lastLogTerm||(lastLogTerm==n.lastLogTerm&&lastLogIndex≥n.lastLogIndex)

def reply (dest : NodeId) (rpc : RaftRpc) : RaftNode :=
  {n with outbox:=n.outbox++[(dest,rpc)]}

/-- The end of `step_request_vote`, after the term was observed. -/
def castVote (candidate : NodeId)
    (lastLogIndex lastLogTerm : ℕ) : RaftNode :=
  if n.upToDate lastLogIndex lastLogTerm ∧ (n.votedFor=none ∨ n.votedFor=some candidate) then
    reply {n with votedFor:=some candidate,lastHeartbeatMs:=clock.nowMs 0} candidate
      (.requestVoteResp n.currentTerm true)
  else n.reply candidate (.requestVoteResp n.currentTerm false)

def stepRequestVote (sender : NodeId) (term : ℕ)
    (candidate : NodeId) (lastLogIndex lastLogTerm : ℕ) : RaftNode :=
  if sender≠candidate ∨ sender∉n.peers then n
  else if term<n.currentTerm then n.reply sender (.requestVoteResp n.currentTerm false)
  else (n.observeTerm term).castVote clock candidate lastLogIndex lastLogTerm

def stepVoteResp (sender : NodeId) (term : ℕ) (granted : Bool) :
    Except Panic RaftNode :=
  if sender∉n.peers then .ok n
  else if term>n.currentTerm then .ok (n.observeTerm term)
  else if n.role ≠ .candidate ∨ term≠n.currentTerm ∨ granted=false then .ok n
  else
    let n:=if sender∈n.votesReceived then n
      else {n with votesReceived:=n.votesReceived++[sender]}
    if n.votesReceived.length≥n.quorum then n.becomeLeader (clock.nowMs 0) else .ok n

/-- The loop of `append_plan`: `none` is a refusal, `some change` the first entry
that is missing or has another term. -/
def planLoop (log : List LogEntry) (commit : ℕ) (change : Option (ℕ × ℕ)) :
    ℕ → List LogEntry → Option (Option (ℕ × ℕ))
  | _,[] => some change
  | offset,entry::rest =>
    if entry.index=0 then none
    else
      let slot:=entry.index-1
      let old:=log[slot]?
      if (∃ o∈old, o.term=entry.term ∧ o≠entry) ∨ (entry.index≤commit ∧ old≠some entry) then none
      else if change=none ∧ ∀ o∈old, o.term≠entry.term then
        planLoop log commit (some (slot,offset)) (offset+1) rest
      else planLoop log commit change (offset+1) rest

def appendPlan (prevLogIndex prevLogTerm : ℕ) (entries : List LogEntry) :
    Option (ℕ × ℕ) :=
  if prevLogIndex≠0 ∧ (n.log[prevLogIndex-1]?).map LogEntry.term≠some prevLogTerm then none
  else (planLoop n.log n.commitIndex none 0 entries).map fun change => change.getD (n.log.length,entries.length)

def followCommit (newCommit : ℕ) : Except Panic RaftNode :=
  if newCommit>n.commitIndex then n.commitTo newCommit else .ok n

/-- The rest of `step_append` once the plan is accepted. -/
def applyPlan (sender : NodeId) (prevLogIndex : ℕ) (entries : List LogEntry)
    (leaderCommit : ℕ) (plan : ℕ × ℕ) : Except Panic RaftNode := do
  let matched ← add prevLogIndex entries.length
  let log ← extend 40 (n.log.take plan.1) (entries.drop plan.2)
  let newCommit:=min leaderCommit matched
  let n ← followCommit {n with log:=log} newCommit
  return n.reply sender (.appendEntriesResp n.currentTerm true matched)

/-- A legitimate leader of the current term was heard. -/
def follow (leader : NodeId) : RaftNode :=
  {n with role:=.follower,leaderHint:=some leader,lastHeartbeatMs:=clock.nowMs 0}

def refuseAppend (sender : NodeId) : RaftNode :=
  n.reply sender (.appendEntriesResp n.currentTerm false n.lastLogIndex)

def stepAppend (sender : NodeId) (term : ℕ) (leader : NodeId)
    (prevLogIndex prevLogTerm : ℕ) (entries : List LogEntry) (leaderCommit : ℕ) :
    Except Panic RaftNode :=
  if sender≠leader ∨ sender∉n.peers then .ok n
  else if term<n.currentTerm then .ok (n.refuseAppend sender)
  else
    let n:=(n.observeTerm term).follow clock leader
    match n.appendPlan prevLogIndex prevLogTerm entries with
    | none => .ok (n.refuseAppend sender)
    | some plan => n.applyPlan sender prevLogIndex entries leaderCommit plan

def recordMatch (sender : NodeId) (matched : ℕ) : RaftNode :=
  {n with
    matchIndex := Function.update n.matchIndex sender
      (some (max ((n.matchIndex sender).getD 0) matched))
    nextIndex := Function.update n.nextIndex sender
      (some (max ((n.nextIndex sender).getD 1) (saturatingAdd matched 1)))}

def stepAppendResp (sender : NodeId) (term : ℕ) (success : Bool) (matched : ℕ) :
    Except Panic RaftNode :=
  if sender∉n.peers then .ok n
  else if term>n.currentTerm then .ok (n.observeTerm term)
  else if n.role ≠ .leader ∨ term≠n.currentTerm then .ok n
  else if success=true then
    if matched>n.lastLogIndex ∨ matched>(n.sentUpper sender).getD 0 then .ok n
    else (n.recordMatch sender matched).advanceCommit
  else
    let floor:=saturatingAdd ((n.matchIndex sender).getD 0) 1
    let ni:=(n.nextIndex sender).getD 1
    let retry:=max (ni-1) floor
    if retry≥ni then
      -- `entry(..).or_insert(1)` has already created a missing slot
      .ok {n with nextIndex:=Function.update n.nextIndex sender (some ni)}
    else sendAppend {n with nextIndex:=Function.update n.nextIndex sender (some retry)} sender

def tick : Except Panic RaftNode :=
  match n.role with
  | .leader =>
    if clock.nowMs 0-n.lastHeartbeatMs≥clock.heartbeatMs then
      broadcastAppend {n with lastHeartbeatMs:=clock.nowMs 0}
    else .ok n
  | _ =>
    if clock.nowMs 0-n.lastHeartbeatMs ≥
        saturatingAdd clock.electionTimeoutMs n.timeoutJitterMs then n.startElection clock
    else .ok n

/-- The answer to a malformed request: nothing but a refusal from a known peer. -/
def refuseMalformed (sender : NodeId) (rpc : RaftRpc) : RaftNode :=
  if sender∈n.peers then
    match rpc with
    | .requestVote _ candidate _ _ =>
      if candidate=sender then n.reply sender (.requestVoteResp n.currentTerm false) else n
    | .appendEntries _ leader _ _ _ _ =>
      if leader=sender then n.refuseAppend sender else n
    | _ => n
  else n

def step (sender : NodeId) (rpc : RaftRpc) : Except Panic RaftNode :=
  match rpc.validateShape with
  | .error _ => .ok (n.refuseMalformed sender rpc)
  | .ok () =>
    match rpc with
    | .requestVote term candidate lastLogIndex lastLogTerm =>
      .ok (n.stepRequestVote clock sender term candidate lastLogIndex lastLogTerm)
    | .requestVoteResp term granted => n.stepVoteResp clock sender term granted
    | .appendEntries term leader prevLogIndex prevLogTerm entries leaderCommit =>
      n.stepAppend clock sender term leader prevLogIndex prevLogTerm entries leaderCommit
    | .appendEntriesResp term success matched => n.stepAppendResp sender term success matched

/- `Ok(index)` with the new node, or `NotLeader(hint)` with the node unchanged. -/
def propose (cmd : Bytes) : Except Panic (Except (Option NodeId) ℕ × RaftNode) :=
  if n.role ≠ .leader then .ok (.error n.leaderHint,n)
  else do
    let i ← add n.log.length 1
    let log ← extend 40 n.log [⟨n.currentTerm,i,cmd⟩]
    let n ← broadcastAppend {n with log:=log}
    let n ← if n.peers=[] then n.advanceCommit else .ok n
    return (.ok i,n)

def takeOutbox : List (NodeId × RaftRpc) × RaftNode := (n.outbox,{n with outbox:=[]})
def committed : List LogEntry × RaftNode := (n.pendingApply,{n with pendingApply:=[]})

end RaftNode
end Parrot.Raft
