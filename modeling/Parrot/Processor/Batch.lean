import Mathlib.Data.List.Basic

/-! # Coalesced message processing (`processor/core/batch.rs`)

One call of `process_coalesced` as a machine whose steps lie between its awaits and its calls of
actor code. -/

namespace Parrot.Processor

inductive ActorError where
  | initializationError (text : String)
  | messageHandlingError (text : String)
  | stopped
  | timeout
  | timeoutDetail (text : String)
  | actorNotFound (text : String)
  | internalError (text : String)
  | processMessageError (text : String)
  | replyChannelError (text : String)
  | panic (text : String)
  | other (text : String)
  deriving DecidableEq

/-- `actor_summary`: a business error is not formatted. -/
def ActorError.summary : ActorError → String
  | .initializationError text => "Actor initialization failed: " ++ text
  | .messageHandlingError text => "Message handling failed: " ++ text
  | .stopped => "Actor stopped"
  | .timeout => "Timeout"
  | .timeoutDetail text => "Timeout: " ++ text
  | .actorNotFound text => "Actor not found: " ++ text
  | .internalError text => "Internal error: " ++ text
  | .processMessageError text => "Process message error: " ++ text
  | .replyChannelError text => "Reply channel error: " ++ text
  | .panic text => "Panic: " ++ text
  | .other _ => "actor operation failed (original error retained in source chain)"

inductive SystemError where
  | workerStateError (text : String)
  | actorNotFound (path : String)

inductive ProcessorStatus where
  | initializing
  | running
  | paused
  | stopping
  | stopped
  | failed
  deriving DecidableEq

def ProcessorStatus.debug : ProcessorStatus → String
  | .initializing => "Initializing"
  | .running => "Running"
  | .paused => "Paused"
  | .stopping => "Stopping"
  | .stopped => "Stopped"
  | .failed => "Failed"

/-- The message types that never enter a business batch; ask envelopes apart. -/
inductive Engine where
  | control
  | idleSignal
  | streamEvent
  | childTerminated
  | actorTerminated
  | terminated
  | watchRequest
  | unwatchRequest

/- `P` is the payload of a message, `T` a trace context. A reply channel is its identity. -/
variable {P T R : Type}

inductive BoxedMessage (P T : Type) where
  | ask (traceContext : Option T) (payload : BoxedMessage P T) (reply : Option ℕ)
  | traced (payload : BoxedMessage P T) (parent : T)
  | engine (kind : Engine) (payload : P)
  | business (payload : P)

/-- What the engine's part of `can_batch_message` asks of the message. -/
def BoxedMessage.batchable : BoxedMessage P T → Bool
  | .traced .. | .business _ => true
  | .ask .. | .engine .. => false

def BoxedMessage.isControl : BoxedMessage P T → Bool
  | .engine .control _ => true
  | _ => false

inductive MailboxItem (P T : Type) where
  | ask (traceContext : Option T) (payload : BoxedMessage P T) (reply : Option ℕ)
  | plain (message : BoxedMessage P T)

structure Pending (P T : Type) where
  traceContext : Option T
  message : BoxedMessage P T
  reply : Option ℕ

def Pending.fromItem : MailboxItem P T → Pending P T
  | .ask traceContext payload reply => ⟨traceContext,payload,reply⟩
  | .plain (.ask traceContext payload reply) => ⟨traceContext,payload,reply⟩
  | .plain (.traced payload parent) => ⟨some parent,payload,none⟩
  | .plain message => ⟨none,message,none⟩

abbrev Outcome (R : Type) := Except ActorError R

structure Config where
  path : String
  messageBatchSize : Option ℕ
  maxMessages : ℕ
  yields : Bool

namespace Config

variable (c : Config)

def limit : ℕ := if c.yields then 1 else max 1 (min (c.messageBatchSize.getD 1) 256)

def panicMessage (payload : String) : String := "Panic in actor " ++ c.path ++ ": " ++ payload

def notRunning : SystemError := .workerStateError ("Actor at " ++ c.path ++ " is not running")

def refused (status : ProcessorStatus) : ActorError :=
  .messageHandlingError ("Actor at " ++ c.path ++ " is not running, current status: " ++ status.debug)

def wrongCount (returned count : ℕ) : ActorError :=
  .messageHandlingError ("batch handler at " ++ c.path ++ " returned " ++ toString returned ++ " results for " ++
    toString count ++ " messages")

end Config

/-- How the messages of a group came to their outcomes. -/
inductive Verdict (R : Type) where
  | predicatePanicked (reason : String)
  | notRunning
  | returned (outcomes : List (Outcome R))
  | panicked (payload : String)

namespace Verdict

def outcomes (c : Config) (count : ℕ) : Verdict R → List (Outcome R)
  | .predicatePanicked reason => List.replicate count (.error (.panic reason))
  | .notRunning => List.replicate count (.error .stopped)
  | .returned outcomes =>
    if outcomes.length=count then outcomes else List.replicate count (.error (c.wrongCount outcomes.length count))
  | .panicked payload => List.replicate count (.error (.panic (c.panicMessage payload)))

def invalidCount (count : ℕ) : Verdict R → Bool
  | .returned outcomes => outcomes.length≠count
  | _ => false

def called : Verdict R → Bool
  | .returned _ | .panicked _ => true
  | .predicatePanicked _ | .notRunning => false

@[simp] theorem outcomes_length (c : Config) (count : ℕ) (v : Verdict R) : (v.outcomes c count).length=count := by
  cases v with
  | returned outcomes =>
    by_cases h : outcomes.length=count
    · simp [Verdict.outcomes,h]
    · simp [Verdict.outcomes,h]
  | predicatePanicked reason | notRunning | panicked payload => simp [Verdict.outcomes]

theorem outcomes_returned (c : Config) (outcomes : List (Outcome R)) :
    (Verdict.returned outcomes).outcomes c outcomes.length=outcomes := if_pos rfl

end Verdict

/-- What became of popped messages, in the order in which they leave the processor. -/
inductive Turn (P T R : Type) where
  | refused (p : Pending P T) (o : Outcome R)
  | single (p : Pending P T) (o : Outcome R)
  | batch (group : List (Pending P T)) (v : Verdict R)

namespace Turn

def pendings : Turn P T R → List (Pending P T)
  | .refused p _ => [p]
  | .single p _ => [p]
  | .batch group _ => group

def answers (c : Config) : Turn P T R → List (Pending P T × Outcome R)
  | .refused p o => [(p,o)]
  | .single p o => [(p,o)]
  | .batch group v => group.zip (v.outcomes c group.length)

def handed : Turn P T R → Option (List (Pending P T))
  | .refused .. => none
  | .single p _ => some [p]
  | .batch group v => if v.called then some group else none

@[simp] theorem map_fst_answers (c : Config) (t : Turn P T R) : (t.answers c).map Prod.fst=t.pendings := by
  cases t with
  | refused p o | single p o => rfl
  | batch group v => exact List.map_fst_zip (by simp)

end Turn

/-- How a call of `ThreadActor::process_message` ended. -/
inductive Handled (R : Type) where
  | finished (outcome : Outcome R)
  | constructorPanicked (payload : String)
  | panicked (payload : String)

/-- Where the call stands, from one await or call of actor code to the next. -/
inductive Stage (P T R : Type) where
  | start
  | head (lookahead : Option (Pending P T))
  | take (lookahead : Option (Pending P T))
  | lock (first : Pending P T)
  | ask (first : Pending P T)
  | inner (p : Pending P T)
  | enter (p : Pending P T)
  | running (p : Pending P T)
  | supervise (p : Pending P T) (e : ActorError)
  | finish (p : Pending P T) (called : Bool) (outcome : Outcome R)
  | grow (parent : Option T) (group : List (Pending P T))
  | pop (parent : Option T) (group : List (Pending P T))
  | probe (parent : Option T) (group : List (Pending P T)) (next : Pending P T)
  | dispatch (group : List (Pending P T)) (lookahead : Option (Pending P T)) (fatal : Option String)
  | context (group : List (Pending P T)) (lookahead : Option (Pending P T))
  | batch (group : List (Pending P T)) (lookahead : Option (Pending P T))
  | settle (rest : List (Pending P T × Outcome R)) (lookahead : Option (Pending P T)) (invalid decided : Bool)
      (fatal : Option String)
  | decided (p : Pending P T) (e : ActorError) (rest : List (Pending P T × Outcome R))
      (lookahead : Option (Pending P T)) (invalid : Bool)
  | done (result : Except SystemError (ℕ × ℕ))

def Stage.holdsActor : Stage P T R → Bool
  | .ask _ | .running _ | .supervise .. | .grow .. | .pop .. | .probe .. | .dispatch .. | .context .. | .batch .. => true
  | .start | .head _ | .take _ | .lock _ | .inner _ | .enter _ | .finish .. | .settle .. | .decided .. | .done _ => false

/- `actor` and `context` tell that the slot is filled, `failed` that a failure cause is
recorded. The fields from `arrived` on are history: the items in mailbox order, those popped,
the groups handed to handlers, the turns and the outcomes settled. -/
structure Sys (P T R : Type) where
  mailbox : List (MailboxItem P T)
  closed : Bool
  status : ProcessorStatus
  actor : Bool
  context : Bool
  failed : Bool
  processed : ℕ
  errors : ℕ
  stage : Stage P T R
  arrived : List (MailboxItem P T)
  popped : List (MailboxItem P T)
  handled : List (List (Pending P T))
  turns : List (Turn P T R)
  settled : List (Pending P T × Outcome R)

/- The first five are steps of the call: on its own, and with what the predicate, a handler,
the batch handler and supervision answer. -/
inductive Act (P T R : Type) where
  | proceed
  | predicate (answer : Except String Bool)
  | returned (how : Handled R)
  | batch (how : Except String (List (Outcome R)))
  | decide (resume : Bool)
  | arrive (item : MailboxItem P T)
  | evict
  | close
  | status (status : ProcessorStatus)
  | fail
  | retire

namespace Sys

def new (mailbox : List (MailboxItem P T)) (closed : Bool) (status : ProcessorStatus) (alive failed : Bool) : Sys P T R where
  mailbox := mailbox
  closed := closed
  status := status
  actor := alive
  context := alive
  failed := failed
  processed := 0
  errors := 0
  stage := .start
  arrived := mailbox
  popped := []
  handled := []
  turns := []
  settled := []

variable (s : Sys P T R)

def goto (stage : Stage P T R) : Sys P T R := {s with stage:=stage}

def settle (p : Pending P T) (o : Outcome R) : Sys P T R := {s with settled:=s.settled++[(p,o)]}

def refuse (p : Pending P T) : Sys P T R :=
  settle {s with turns:=s.turns++[.refused p (.error .stopped)]} p (.error .stopped)

/-- A look-ahead message that will not be handled. -/
def refuseAhead : Option (Pending P T) → Sys P T R
  | none => s
  | some p => s.refuse p

def leave : Sys P T R := s.goto (.done (.ok (s.processed,s.errors)))

def recordFailure : Sys P T R := {s with failed:=true,status:=.failed}

def superviseMessageError (resume : Bool) : Sys P T R := if resume then s else s.recordFailure

/-- The outcomes of a group, counted and ready to be sent. -/
def conclude (c : Config) (s : Sys P T R) (group : List (Pending P T)) (lookahead : Option (Pending P T)) (v : Verdict R) :
    Sys P T R :=
  {s with
    turns := s.turns++[.batch group v]
    processed := s.processed+group.length
    stage := .settle (group.zip (v.outcomes c group.length)) lookahead (v.invalidCount group.length) false none}

def groupLimit (c : Config) (s : Sys P T R) : ℕ := min c.limit (c.maxMessages-s.processed)

/-- The outcome of `process_message_with_context` is sent. -/
def answer (p : Pending P T) (called : Bool) (outcome : Outcome R) : Sys P T R :=
  {s with
    turns := s.turns++[if called then .single p outcome else .refused p outcome]
    settled := s.settled++[(p,outcome)]
    processed := s.processed+1
    errors := s.errors+if outcome.isOk then 0 else 1
    stage := match outcome with
      | .ok _ => .head none
      | .error e => if s.failed then .done (.error (.workerStateError e.summary)) else .head none}

def send (rest : List (Pending P T × Outcome R)) (lookahead : Option (Pending P T)) (invalid decided : Bool)
    (fatal : Option String) : Sys P T R :=
  match rest with
  | [] =>
    match fatal with
    | some reason => (s.refuseAhead lookahead).goto (.done (.error (.workerStateError reason)))
    | none => s.goto (.head lookahead)
  | (p,.ok r)::rest => (s.settle p (.ok r)).goto (.settle rest lookahead invalid decided fatal)
  | (p,.error e)::rest =>
    if decided then ({s with errors:=s.errors+1}.settle p (.error e)).goto (.settle rest lookahead invalid decided fatal)
    else if invalid then {s with errors:=s.errors+1}.recordFailure.goto (.decided p e rest lookahead invalid)
    else s

variable [DecidableEq T]

/-- `process_coalesced` from one await to the next. -/
def proceed (c : Config) (s : Sys P T R) : Sys P T R :=
  match s.stage with
  | .start => if s.status=.running then s.goto (.head none) else s.goto (.done (.error c.notRunning))
  | .head lookahead =>
    if s.processed<c.maxMessages then
      if s.status ≠ .running ∨ s.closed=true then (s.refuseAhead lookahead).leave else s.goto (.take lookahead)
    else s.leave
  | .take (some p) => s.goto (.lock p)
  | .take none =>
    match s.mailbox with
    | [] => s.leave
    | item::items => {s with mailbox:=items,popped:=s.popped++[item],stage:=.lock (.fromItem item)}
  | .lock p => if s.actor then s.goto (.ask p) else (s.refuse p).leave
  | .inner p =>
    if s.status=.running then s.goto (.enter p) else s.goto (.finish p false (.error (c.refused s.status)))
  | .enter p =>
    if s.actor&&s.context then {s with handled:=s.handled++[[p]],stage:=.running p}
    else s.goto (.finish p false (.error .stopped))
  | .finish p called outcome => s.answer p called outcome
  | .grow parent group =>
    if group.length<s.groupLimit c ∧ s.status=.running ∧ s.closed=false then s.goto (.pop parent group)
    else s.goto (.dispatch group none none)
  | .pop parent group =>
    match s.mailbox with
    | [] => s.goto (.dispatch group none none)
    | item::items =>
      let s:={s with mailbox:=items,popped:=s.popped++[item]}
      let next:=Pending.fromItem item
      if next.traceContext=parent then s.goto (.probe parent group next) else s.goto (.dispatch group (some next) none)
  | .dispatch group lookahead (some reason) => s.conclude c group lookahead (.predicatePanicked reason)
  | .dispatch group lookahead none =>
    if s.status=.running then s.goto (.context group lookahead) else s.conclude c group lookahead .notRunning
  | .context group lookahead =>
    if s.context then {s with handled:=s.handled++[group],stage:=.batch group lookahead}
    else s.goto (.done (.error (.actorNotFound c.path)))
  | .settle rest lookahead invalid decided fatal => s.send rest lookahead invalid decided fatal
  | .decided p e rest lookahead invalid =>
    (s.settle p (.error e)).goto (.settle rest lookahead invalid true (if s.failed then some e.summary else none))
  | .ask _ | .running _ | .supervise .. | .probe .. | .batch .. | .done _ => s

/-- `can_batch_message` of the engine actor, which keeps its own messages from the predicate. -/
def predicate (c : Config) (s : Sys P T R) (answer : Except String Bool) : Sys P T R :=
  match s.stage with
  | .ask p =>
    match if p.message.batchable then answer else .ok false with
    | .ok true => s.goto (.grow p.traceContext [p])
    | .ok false => s.goto (.inner p)
    | .error payload => s.goto (.dispatch [p] none (some (c.panicMessage payload)))
  | .probe parent group next =>
    match if next.message.batchable then answer else .ok false with
    | .ok true => s.goto (.grow parent (group++[next]))
    | .ok false => s.goto (.dispatch group (some next) none)
    | .error payload => s.goto (.dispatch (group++[next]) none (some (c.panicMessage payload)))
  | _ => s

/-- `process_message_inner` after the handler. -/
def returned (c : Config) (s : Sys P T R) (how : Handled R) : Sys P T R :=
  match s.stage with
  | .running p =>
    match how with
    | .finished (.ok r) => s.goto (.finish p true (.ok r))
    | .finished (.error e) =>
      if p.message.isControl then s.goto (.finish p true (.error e)) else s.goto (.supervise p e)
    | .panicked payload =>
      if p.message.isControl then s.goto (.finish p true (.error (.panic (c.panicMessage payload))))
      else s.goto (.supervise p (.panic (c.panicMessage payload)))
    | .constructorPanicked payload => s.goto (.supervise p (.panic (c.panicMessage payload)))
  | _ => s

def batched (c : Config) (s : Sys P T R) (how : Except String (List (Outcome R))) : Sys P T R :=
  match s.stage with
  | .batch group lookahead =>
    match how with
    | .ok outcomes => s.conclude c group lookahead (.returned outcomes)
    | .error payload => s.conclude c group lookahead (.panicked payload)
  | _ => s

def decide (resume : Bool) : Sys P T R :=
  match s.stage with
  | .supervise p e => (s.superviseMessageError resume).goto (.finish p true (.error e))
  | .settle ((p,.error e)::rest) lookahead false false _ =>
    ({s with errors:=s.errors+1}.superviseMessageError resume).goto (.decided p e rest lookahead false)
  | _ => s

def step (c : Config) (s : Sys P T R) : Act P T R → Sys P T R
  | .proceed => s.proceed c
  | .predicate answer => s.predicate c answer
  | .returned how => s.returned c how
  | .batch how => s.batched c how
  | .decide resume => s.decide resume
  | .arrive item => {s with mailbox:=s.mailbox++[item],arrived:=s.arrived++[item]}
  | .evict => {s with mailbox:=s.mailbox.tail}
  | .close => {s with closed:=true}
  | .status status => {s with status:=status}
  | .fail => s.recordFailure
  | .retire => if s.stage.holdsActor then s else {s with actor:=false,context:=false}

def run (c : Config) (s : Sys P T R) (acts : List (Act P T R)) : Sys P T R := acts.foldl (step c) s

def replies : List (ℕ × Outcome R) := s.settled.filterMap fun (p,o) => p.reply.map fun channel => (channel,o)

end Sys

end Parrot.Processor
