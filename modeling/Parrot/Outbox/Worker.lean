import Parrot.Inbox.Store
import Parrot.Outbox.Admission
import Parrot.Wire.Batch

/-! # The worker of an outbox (`durable/outbox.rs:395-595,657-781`, `durable/outbox/group.rs`)

One thread owns the log. -/

namespace Parrot.Outbox
open Machine Wal
open Bincode (Bytes)
open CrashFs (Disk Effect)
open Inbox (DurableEnvelope durableKey durableReceiptKey)

inductive OutboxError where
  | invalid (reason : String)
  | capacity
  | storage (reason : String)
  deriving DecidableEq

def OutboxError.text : OutboxError → String
  | .invalid reason => "invalid outbox configuration or input: "++reason
  | .capacity => "outbox command capacity exhausted"
  | .storage reason => "outbox storage failure: "++reason

structure BoundIdentity extends Identity where
  version : ℕ
  transactional : Bool
  source : String

def BoundIdentity.idempotent (identity : BoundIdentity) : Bool :=
  decide (identity.version=2 ∨ identity.version=4)

def BoundIdentity.envelope (identity : BoundIdentity) (r : WalRecord) : DurableEnvelope where
  source := identity.source
  session := identity.sender
  receiver := identity.receiver
  path := identity.path
  sequence := r.seq
  typeKey := r.typeKey
  payload := r.payload

/- `Option::is_none_or` over a checked size. -/
def exceedsFrame (size : Option ℕ) : Bool := size.all fun n => decide (n>Wire.maxFrameLen)

def validateProbe (probe : DurableEnvelope) (payloadLen extra : ℕ) : Except String Unit := do
  probe.validate
  let size ← probe.encodedLen
  if exceedsFrame ((checkedAdd size payloadLen).bind (checkedAdd · extra)) then
    .error "durable frame exceeds limit"
  else .ok ()

def BoundIdentity.validateMessage (identity : BoundIdentity) (typeKey : String) (payloadLen : ℕ) (traced : Bool) :
    Except OutboxError ℕ :=
  let traceBytes:=if traced then Wire.traceContextBytes else 0
  let pathBytes := "parrot://".utf8ByteSize+identity.receiver.utf8ByteSize+identity.path.utf8ByteSize
  if typeKey.isEmpty ∨ submissionReserved typeKey ∨ causalReserved typeKey ∨ typeKey="#ack" ∨
      typeKey=durableKey ∨ typeKey=durableReceiptKey then .error (.invalid "empty/reserved type key")
  else
    match ((checkedAdd typeKey.utf8ByteSize payloadLen).bind (checkedAdd · traceBytes)).filter
        (fun n => decide (n<2^32)) with
    | none => .error .capacity
    | some size =>
      if exceedsFrame ((checkedAdd pathBytes size).bind (checkedAdd · Wire.bodyFixedOverhead)) then
        .error (.invalid "wire frame exceeds limit")
      else if identity.transactional then
        match validateProbe ⟨identity.source,identity.sender,identity.receiver,identity.path,1,typeKey,[]⟩ payloadLen
            (pathBytes+durableKey.utf8ByteSize+Wire.bodyFixedOverhead+traceBytes) with
        | .error e => .error (.invalid e)
        | .ok () => .ok size
      else .ok size

structure OutboxStatus where
  submissionReceipts : ℕ
  pending : ℕ
  lastEnqueued : ℕ
  lastAcked : ℕ
  acceptanceSyncs : ℕ
  lastGroupRecords : ℕ
  deriving DecidableEq

/-- The loop of `bind_and_recover` over the pending records. -/
def recoverPending (identity : BoundIdentity) : ℕ → List PendingRecord → Except OutboxError ℕ
  | last,[] => .ok last
  | last,p::rest =>
    if p.record.endpoint≠identity.receiver ∨ p.record.sender≠identity.sender ∨
        p.record.path≠identity.path ∨ checkedAdd last 1≠some p.record.seq then
      .error (.storage "foreign, duplicate or noncontiguous outbox record")
    else
      match identity.validateMessage p.record.typeKey p.record.payload.length p.parent.isSome with
      | .error e => .error (.storage ("invalid saved request: "++e.text))
      | .ok _ => recoverPending identity p.record.seq rest

def bindAndRecover (identity : BoundIdentity) (w : WalInner) : Except OutboxError OutboxStatus :=
  if w.acked.keys.any fun s => s != identity.stream then .error (.storage "foreign ACK stream in outbox")
  else do
    let acked:=(w.acked.lookup identity.stream).getD 0
    let last ← recoverPending identity acked w.pending
    if identity.idempotent=false ∧ w.receipts.len≠0 then
      .error (.storage "submission receipts require v2 directory binding")
    else
      match w.receipts.validateBinding identity.receiver identity.sender last with
      | .error e => .error (.storage e)
      | .ok () => return ⟨w.receipts.len,w.pending.length,last,acked,0,0⟩

inductive Phase where
  | ready
  | group (last appended : ℕ) (staged : List (ℕ × Command))
  | acked (seq : ℕ)
  deriving DecidableEq

structure Worker where
  wal : WalInner
  status : OutboxStatus
  phase : Phase

/-- A move's file operations, the worker after them unless it ends, and the sequences
that `enqueue` returns. -/
structure Outcome where
  effects : List (Effect ℕ)
  worker : Option Worker
  replies : List (ℕ × Command)

inductive Move where
  | begin
  | persist (cmd : Command)
  | commit
  | ack (acks : Order (Stream × ℕ)) (receipts : Order Receipt)
  | settle
  | stop

section env
variable (env : WalEnv) (limits : WalLimits) (segmentMax : ℕ) (identity : BoundIdentity)

/- One command of the loop of `persist`. A refusal leaves the group as it is, unless the
log is poisoned. -/
def Worker.persist (worker : Worker) (last appended : ℕ) (staged : List (ℕ × Command)) (cmd : Command) :
    Outcome :=
  match appendForGroup env limits segmentMax worker.wal identity.toIdentity cmd ((checkedAdd last 1).getD 0) with
  | .error _ => ⟨[],if worker.wal.failed then none else some worker,[]⟩
  | .ok plan =>
    match plan.result with
    | .error _ =>
      ⟨plan.effects,if plan.wal.failed then none else some {worker with wal:=plan.wal},[]⟩
    | .ok (seq,isNew) =>
      ⟨plan.effects,some {worker with
        wal := plan.wal
        phase := .group (if isNew then seq else last) (if isNew then appended+1 else appended)
          (staged++[(seq,cmd)])},[]⟩

/-- The end of `persist`. -/
def Worker.commit (worker : Worker) (last appended : ℕ) (staged : List (ℕ × Command)) : Outcome :=
  if staged.isEmpty then ⟨[],some {worker with phase:=.ready},[]⟩
  else
    match worker.wal.sync with
    | .error _ => ⟨[],none,[]⟩
    | .ok plan =>
      ⟨plan.effects,some {
        wal := plan.wal
        status := {worker.status with
          lastEnqueued := last
          pending := worker.status.pending+appended
          submissionReceipts := plan.wal.receipts.len
          acceptanceSyncs := saturatingAdd worker.status.acceptanceSyncs 1
          lastGroupRecords := appended}
        phase := .ready},staged⟩

def Worker.ack (d : Disk ℕ) (acks : Order (Stream × ℕ)) (receipts : Order Receipt) (worker : Worker)
    (r : WalRecord) : Outcome :=
  match Wal.ack env limits (d.dir.map Prod.fst) acks receipts worker.wal identity.receiver identity.sender r.seq with
  | .error _ => ⟨[],none,[]⟩
  | .ok plan =>
    match plan.result with
    | .error _ => ⟨plan.effects,none,[]⟩
    | .ok () => ⟨plan.effects,some {worker with wal:=plan.wal,phase:=.acked r.seq},[]⟩

def Worker.settle (worker : Worker) (seq : ℕ) : Outcome :=
  match worker.wal.sync with
  | .error _ => ⟨[],none,[]⟩
  | .ok plan =>
    ⟨plan.effects,some {
      wal := plan.wal
      status := {worker.status with lastAcked:=seq,pending:=worker.status.pending-1}
      phase := .ready},[]⟩

def Worker.stop (worker : Worker) : Outcome :=
  match worker.wal.sync with
  | .error _ => ⟨[],none,[]⟩
  | .ok plan => ⟨plan.effects,none,[]⟩

/-- `none` where the worker is not at a point for this move. -/
def Move.outcome (d : Disk ℕ) (worker : Worker) : Move → Option Outcome
  | .begin =>
    match worker.phase with
    | .ready => some ⟨[],some {worker with phase:=.group worker.status.lastEnqueued 0 []},[]⟩
    | _ => none
  | .persist cmd =>
    match worker.phase with
    | .group last appended staged =>
      some (worker.persist env limits segmentMax identity last appended staged cmd)
    | _ => none
  | .commit =>
    match worker.phase with
    | .group last appended staged => some (worker.commit last appended staged)
    | _ => none
  | .ack acks receipts =>
    match worker.phase,worker.wal.pending.head? with
    | .ready,some p => some (worker.ack env limits identity d acks receipts p.record)
    | _,_ => none
  | .settle =>
    match worker.phase with
    | .acked seq => some (worker.settle seq)
    | _ => none
  | .stop =>
    match worker.phase with
    | .ready => some worker.stop
    | _ => none

/-! Only a commit replies. -/

variable {env limits segmentMax identity} {worker : Worker} {d : Disk ℕ} {last appended : ℕ}
  {staged : List (ℕ × Command)}

@[simp] theorem persist_replies (cmd : Command) :
    (worker.persist env limits segmentMax identity last appended staged cmd).replies=[] := by
  unfold Worker.persist
  split
  · rfl
  · split
    · rfl
    · rfl

@[simp] theorem ack_replies (acks : Order (Stream × ℕ)) (receipts : Order Receipt) (r : WalRecord) :
    (worker.ack env limits identity d acks receipts r).replies=[] := by
  unfold Worker.ack
  split
  · rfl
  · split
    · rfl
    · rfl

@[simp] theorem settle_replies (worker : Worker) (seq : ℕ) : (worker.settle seq).replies=[] := by
  unfold Worker.settle
  split
  · rfl
  · rfl

@[simp] theorem stop_replies (worker : Worker) : worker.stop.replies=[] := by
  unfold Worker.stop
  split
  · rfl
  · rfl

end env

/-- What is delivered of a record, beside its place in the stream. -/
structure Content where
  typeKey : String
  payload : Bytes

def Command.content (cmd : Command) : Content := ⟨cmd.key,cmd.payload⟩
def content (r : WalRecord) : Content := ⟨r.typeKey,r.payload⟩

def Identity.recordOf (identity : Identity) (c : Content) (seq : ℕ) : WalRecord :=
  ⟨identity.receiver,identity.sender,seq,identity.path,c.typeKey,c.payload⟩

/-- The records of these contents, with the sequences behind `n`. -/
def Identity.records (identity : Identity) : ℕ → List Content → List WalRecord
  | _,[] => []
  | n,c::cs => identity.recordOf c (n+1)::identity.records (n+1) cs

end Parrot.Outbox
