import Parrot.Directory.Command

/-! # The durable directory (`directory/durable.rs`)

One owner for a durable Raft host and the state machine it feeds. -/

namespace Parrot.Directory
open Machine Parrot.Raft
open CrashFs (Disk)

inductive DurableDirectoryError where
  | storage (e : RaftStorageError)
  | command (e : DirectoryApplyError)
  | closed
  deriving DecidableEq

/-- `identity` is the owner's allocation: two receipts share it when one open
directory issued both. -/
structure DurableDirectoryProposal where
  index : ℕ
  term : ℕ
  digest : Bytes
  identity : ℕ

inductive DurableDirectoryStatus where
  | pending
  | applied
  | conflict
  | foreign

structure DirectoryReadTicket where
  receipt : DurableDirectoryProposal
  query : DirQuery
  complete : Bool

structure DirectoryRead where
  entry : Option DirEntry
  barrierIndex : ℕ
  appliedIndex : ℕ
  term : ℕ

structure View where
  sm : DirectorySm
  requests : String × String → Option (Bytes × DirectoryRequestStatus)

def View.initial : View := ⟨.default,fun _ => none⟩

structure DurableDirectory where
  raft : DurableRaft
  view : View
  applied : ℕ
  failed : Bool
  peers : List NodeId
  identity : ℕ

structure DirOutcome (α : Type) where
  disk : Disk RaftFile
  host : DurableDirectory
  result : Except DurableDirectoryError α

abbrev Aborted := Panic × Disk RaftFile

section codec
variable (codec : DirectoryCodec)

/-- One committed entry. A request runs only under an identity not seen before. -/
def View.apply (v : View) (entry : LogEntry) : StoredCommand → Except DirectoryApplyError View
  | .readBarrier => .ok v
  | .plain command => .ok {v with sm:=v.sm.applyValidated command}
  | .request r =>
    if (v.requests (r.client,r.id)).isSome then .ok v
    else do
      let digest ← directoryCommandDigest codec r.command
      let sm:=v.sm.applyValidated r.command
      return ⟨sm,Function.update v.requests (r.client,r.id)
        (some (digest,.applied entry.index entry.term sm.version))⟩

/-- The loop of `apply_pending`; an error leaves what was applied so far. -/
def View.applyAll (v : View) : List (LogEntry × StoredCommand) → View × Option DirectoryApplyError
  | [] => (v,none)
  | (entry,cmd)::rest =>
    match v.apply codec entry cmd with
    | .error e => (v,some e)
    | .ok v' => v'.applyAll rest

def revisions (known : String × String → Bool) :
    List (String × String) → List StoredCommand → ℕ
  | _,[] => 0
  | new,.readBarrier::rest => revisions known new rest
  | new,.plain _::rest => 1+revisions known new rest
  | new,.request r::rest =>
    if known (r.client,r.id)=false ∧ (r.client,r.id)∉new then
      1+revisions known ((r.client,r.id)::new) rest
    else revisions known new rest

namespace DurableDirectory

def isClosed (h : DurableDirectory) : Bool := h.failed||h.raft.failed
def role (h : DurableDirectory) : Role := if h.isClosed then .follower else h.raft.role
def currentTerm (h : DurableDirectory) : ℕ := h.raft.currentTerm
def leaderHint (h : DurableDirectory) : Option NodeId :=
  if h.isClosed then none else h.raft.node.leaderHint

def prepareRequests (h : DurableDirectory) : Except DurableDirectoryError (List StoredCommand) :=
  if h.raft.failed then .error (.storage .closed)
  else
    match h.raft.node.pendingApply.mapM fun e => decodeStored codec e.cmd with
    | .error e => .error (.command e)
    | .ok commands =>
      if h.view.sm.version+revisions (fun k => (h.view.requests k).isSome) [] commands≤u64Max then
        .ok commands
      else .error (.command .revisionExhausted)

def applyPending (h : DurableDirectory) : DurableDirectory × Except DurableDirectoryError Unit :=
  match h.prepareRequests codec with
  | .error e => ({h with failed:=true},.error e)
  | .ok commands =>
    match h.raft.committed with
    | (.error e,raft) => ({h with raft:=raft},.error (.storage e))
    | (.ok entries,raft) =>
      match h.view.applyAll codec (entries.zip commands) with
      | (view,some e) => ({h with raft:=raft,view:=view},.error (.command e))
      | (view,none) =>
        ({h with
          raft := raft
          view := view
          applied := (entries.getLast?.map LogEntry.index).getD h.applied},.ok ())

/-- A call of the Raft host, followed by `apply_pending` when it succeeded. -/
def driven {α : Type} (h : DurableDirectory) (o : Outcome α) : DirOutcome α :=
  match o.result with
  | .error e => ⟨o.disk,{h with raft:=o.host},.error (.storage e)⟩
  | .ok value =>
    match ({h with raft:=o.host} : DurableDirectory).applyPending codec with
    | (h',.error e) => ⟨o.disk,h',.error e⟩
    | (h',.ok ()) => ⟨o.disk,h',.ok value⟩

def drive {α : Type} (h : DurableDirectory) (d : Disk RaftFile) :
    Except Panic (Outcome α) → Except Aborted (DirOutcome α)
  | .error p => .error (p,d)
  | .ok o => .ok (h.driven codec o)

def refused {α : Type} (h : DurableDirectory) (d : Disk RaftFile) (e : DurableDirectoryError) :
    DirOutcome α := ⟨d,h,.error e⟩

variable (storage : SnapshotCodec)

def openDirectory (clock : Clock) (cluster : String) (id : NodeId) (peers : List NodeId) (identity : ℕ)
    (budget : ℕ) (d : Disk RaftFile) : Disk RaftFile × Except DurableDirectoryError DurableDirectory :=
  if cluster.isEmpty||cluster.toList.any isControl then
    (d,.error (.command (.invalid "invalid cluster identifier")))
  else
    match DurableRaft.openValidated storage clock ("directory-v1:"++cluster) id peers
        (fun bytes => match decodeStored codec bytes with
          | .error e => .error e.message
          | .ok _ => .ok ()) budget d with
    | (d',.error e) => (d',.error (.storage e))
    | (d',.ok raft) =>
      match (⟨raft,.initial,0,false,normalizePeers id peers,identity⟩ : DurableDirectory).applyPending
          codec with
      | (_,.error e) => (d',.error e)
      | (h,.ok ()) => (d',.ok h)

def tick (h : DurableDirectory) (clock : Clock) (budget : ℕ) (d : Disk RaftFile) :
    Except Aborted (DirOutcome Unit) :=
  if h.isClosed then .ok (h.refused d .closed)
  else h.drive codec d (h.raft.tick storage clock budget d)

/-- The batch check of `step`: bounded, and every command decodes. -/
def checkBatch : RaftRpc → Except DirectoryApplyError Unit
  | .appendEntries _ _ _ _ entries _ =>
    if entries.length>65536 ∨ (entries.map fun e => e.cmd.length).sum>16*1024*1024 then
      .error .capacity
    else entries.forM fun e => (decodeStored codec e.cmd).map fun _ => ()
  | _ => .ok ()

def step (h : DurableDirectory) (clock : Clock) (sender : NodeId) (rpc : RaftRpc) (budget : ℕ)
    (d : Disk RaftFile) : Except Aborted (DirOutcome Unit) :=
  if h.isClosed then .ok (h.refused d .closed)
  else if sender∉h.peers then .ok ⟨d,h,.ok ()⟩
  else
    match checkBatch codec rpc with
    | .error e => .ok (h.refused d (.command e))
    | .ok () => h.drive codec d (h.raft.step storage clock sender rpc budget d)

def submit (h : DurableDirectory) (bytes : Bytes) (budget : ℕ) (d : Disk RaftFile) :
    Except Aborted (DirOutcome ℕ) :=
  h.drive codec d (h.raft.propose storage bytes budget d)

/-- A receipt for the entry at `index`, issued by the open directory `h`. -/
def receipt (h : DurableDirectory) (index : ℕ) (digest : Bytes) : DurableDirectoryProposal :=
  ⟨index,h.currentTerm,digest,h.identity⟩

def propose (h : DurableDirectory) (cmd : DirCmd) (budget : ℕ) (d : Disk RaftFile) :
    Except Aborted (DirOutcome DurableDirectoryProposal) :=
  if h.isClosed then .ok (h.refused d .closed)
  else
    match cmd.encode codec with
    | .error e => .ok (h.refused d (.command e))
    | .ok bytes => do
      let o ← h.submit codec storage bytes budget d
      return ⟨o.disk,o.host,o.result.map fun index => o.host.receipt index (codec.digest bytes)⟩

def outbox (h : DurableDirectory) :
    Except DurableDirectoryError (List (NodeId × RaftRpc)) × DurableDirectory :=
  if h.isClosed then (.error .closed,h)
  else
    match h.raft.outbox with
    | (.error e,raft) => (.error (.storage e),{h with raft:=raft})
    | (.ok msgs,raft) => (.ok msgs,{h with raft:=raft})

def scanPending (client id : String) (digest : Bytes) :
    DirectoryRequestStatus → List LogEntry → Except DirectoryApplyError DirectoryRequestStatus
  | pending,[] => .ok pending
  | pending,entry::rest => do
    match ← decodeStored codec entry.cmd with
    | .request saved =>
      if saved.client=client ∧ saved.id=id then
        if (← directoryCommandDigest codec saved.command)=digest then
          scanPending client id digest (.pending entry.index entry.term) rest
        else if pending=.unknown then return .conflict
        else scanPending client id digest pending rest
      else scanPending client id digest pending rest
    | _ => scanPending client id digest pending rest

def requestStatus (h : DurableDirectory) (client id : String) (digest : Bytes) :
    Except Panic (Except DurableDirectoryError DirectoryRequestStatus) :=
  if h.isClosed then .ok (.error .closed)
  else
    match Directory.identity client id with
    | .error e => .ok (.error (.command e))
    | .ok () =>
      match h.view.requests (client,id) with
      | some (saved,status) => .ok (.ok (if saved=digest then status else .conflict))
      | none => do
        let suffix ← slice h.raft.log h.applied h.raft.log.length
        return match scanPending codec client id digest .unknown suffix with
          | .error e => .error (.command e)
          | .ok status => .ok status

/-- What `submit_request` does with the status it finds: answer at once, or append. -/
def resubmits (h : DurableDirectory) :
    DirectoryRequestStatus → Except (Except DurableDirectoryError DirectoryRequestStatus) Unit
  | .applied index term revision => .error (.ok (.applied index term revision))
  | .conflict => .error (.ok .conflict)
  | .pending index term =>
    if h.role ≠ .leader then .error (.error (.storage (.notLeader h.leaderHint)))
    else if term=h.currentTerm then .error (.ok (.pending index term))
    else .ok ()
  | .unknown => .ok ()

def submitRequest (h : DurableDirectory) (client id : String) (command : DirCmd) (budget : ℕ)
    (d : Disk RaftFile) : Except Aborted (DirOutcome DirectoryRequestStatus) :=
  if h.isClosed then .ok (h.refused d .closed)
  else
    match encodeRequest codec client id command,directoryCommandDigest codec command with
    | .error e,_ => .ok (h.refused d (.command e))
    | _,.error e => .ok (h.refused d (.command e))
    | .ok bytes,.ok digest =>
      match h.requestStatus codec client id digest with
      | .error p => .error (p,d)
      | .ok (.error e) => .ok (h.refused d e)
      | .ok (.ok status) =>
        match h.resubmits status with
        | .error answer => .ok ⟨d,h,answer⟩
        | .ok () => do
          let o ← h.submit codec storage bytes budget d
          match o.result with
          | .error e => return ⟨o.disk,o.host,.error e⟩
          | .ok _ =>
            match o.host.requestStatus codec client id digest with
            | .error p => .error (p,o.disk)
            | .ok status =>
              if status=.ok .unknown then .error (.debugAssert,o.disk)
              else return ⟨o.disk,o.host,status⟩

def queryLocal (h : DurableDirectory) (query : DirQuery) :
    Except DurableDirectoryError (Option DirEntry) :=
  if h.isClosed then .error .closed else .ok (h.view.sm.query query)

def beginLinearRead (h : DurableDirectory) (query : DirQuery) (budget : ℕ) (d : Disk RaftFile) :
    Except Aborted (DirOutcome DirectoryReadTicket) :=
  if h.isClosed then .ok (h.refused d .closed)
  else
    match validateQuery query with
    | .error e => .ok (h.refused d (.command e))
    | .ok _ => do
      let o ← h.submit codec storage readBarrierBytes budget d
      return ⟨o.disk,o.host,o.result.map fun index =>
        ⟨o.host.receipt index (codec.digest readBarrierBytes),query,false⟩⟩

def proposalStatus (h : DurableDirectory) (receipt : DurableDirectoryProposal) :
    Except DurableDirectoryError DurableDirectoryStatus :=
  if h.isClosed then .error .closed
  else if h.identity≠receipt.identity then .ok .foreign
  else
    match h.raft.log[receipt.index-1]? with
    | none => .ok .conflict
    | some entry =>
      if entry.term≠receipt.term ∨ codec.digest entry.cmd≠receipt.digest then .ok .conflict
      else if h.applied≥receipt.index then .ok .applied
      else .ok .pending

def pollLinearRead (h : DurableDirectory) (ticket : DirectoryReadTicket) :
    Except DurableDirectoryError (Option DirectoryRead) × DirectoryReadTicket :=
  if h.isClosed then (.error .closed,ticket)
  else if ticket.complete ∨ h.identity≠ticket.receipt.identity then
    (.error (.command (.invalid "foreign or completed read ticket")),ticket)
  else if h.role ≠ .leader ∨ h.currentTerm≠ticket.receipt.term then
    (.error (.storage (.notLeader h.leaderHint)),{ticket with complete:=true})
  else
    match h.proposalStatus codec ticket.receipt with
    | .error e => (.error e,ticket)
    | .ok .applied =>
      (.ok (some ⟨h.view.sm.query ticket.query,ticket.receipt.index,h.applied,ticket.receipt.term⟩),
        {ticket with complete:=true})
    | .ok .pending => (.ok none,ticket)
    | .ok _ => (.error (.command (.invalid "read barrier replaced")),{ticket with complete:=true})

end DurableDirectory
end codec
end Parrot.Directory
