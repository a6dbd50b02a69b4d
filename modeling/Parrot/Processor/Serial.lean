import Mathlib.Logic.Function.Iterate
import Parrot.Processor.Kept

/-! # Coalesced and one-by-one processing

The handlers are functions of the actor's state. -/

namespace Parrot.Processor
open Function (iterate_succ_apply iterate_zero)

variable {A P T R : Type}

inductive ActorState where
  | starting
  | running
  | stopping
  | stopped
  deriving DecidableEq

structure ThreadActor (A : Type) where
  state : ActorState
  inner : A

/- A handler gets the causal parent and answers a new state with an outcome, or with the
payload of its panic. `engine` stands for the engine's own handlers. -/
structure Handlers (A P T R : Type) where
  canBatch : A → BoxedMessage P T → Except String Bool
  receive : Option T → A → BoxedMessage P T → A × Except String (Outcome R)
  engine : Option T → ThreadActor A → BoxedMessage P T → ThreadActor A × Except String (Outcome R)

namespace ThreadActor

def receive (h : Handlers A P T R) (a : ThreadActor A) (parent : Option T) (m : BoxedMessage P T) :
    ThreadActor A × Except String (Outcome R) :=
  ({a with inner:=(h.receive parent a.inner m).1},(h.receive parent a.inner m).2)

def processMessage (h : Handlers A P T R) (a : ThreadActor A) (parent : Option T) (m : BoxedMessage P T) :
    ThreadActor A × Except String (Outcome R) :=
  match m with
  | .engine .control _ | .engine .watchRequest _ | .engine .unwatchRequest _ => h.engine parent a m
  | _ =>
    if a.state ≠ .running then (a,.ok (.error (.other "Actor is not running")))
    else
      match m with
      | .engine .idleSignal _ | .engine .childTerminated _ | .engine .streamEvent _ | .ask .. => h.engine parent a m
      | _ => a.receive h parent m

def canBatchMessage (h : Handlers A P T R) (a : ThreadActor A) (m : BoxedMessage P T) : Except String Bool :=
  if a.state=.running ∧ m.batchable=true then h.canBatch a.inner m else .ok false

/-- The default `receive_batch`. -/
def receiveBatch (h : Handlers A P T R) (parent : Option T) : A → List (BoxedMessage P T) → A × Except String (List (Outcome R))
  | a,[] => (a,.ok [])
  | a,m::ms =>
    match h.receive parent a m with
    | (b,.error payload) => (b,.error payload)
    | (b,.ok (.error (.panic text))) => (b,.ok (.error (.panic text)::ms.map fun _ => .error .stopped))
    | (b,.ok outcome) => ((receiveBatch h parent b ms).1,(receiveBatch h parent b ms).2.map (outcome::·))

def processBusinessBatch (h : Handlers A P T R) (a : ThreadActor A) (parent : Option T) (ms : List (BoxedMessage P T)) :
    ThreadActor A × Except String (List (Outcome R)) :=
  if a.state ≠ .running then (a,.ok (ms.map fun _ => .error .stopped))
  else ({a with inner:=(receiveBatch h parent a.inner ms).1},(receiveBatch h parent a.inner ms).2)

end ThreadActor

/-- `process_batch_of_messages` takes an item apart by itself. -/
def unpackItem : MailboxItem P T → Pending P T
  | .ask traceContext payload reply => ⟨traceContext,payload,reply⟩
  | .plain message =>
    match message with
    | .ask traceContext payload reply => ⟨traceContext,payload,reply⟩
    | .traced payload parent => ⟨some parent,payload,none⟩
    | .engine kind payload => ⟨none,.engine kind payload,none⟩
    | .business payload => ⟨none,.business payload,none⟩

theorem unpackItem_eq (item : MailboxItem P T) : unpackItem item=Pending.fromItem item := by
  cases item with
  | ask traceContext payload reply => rfl
  | plain message => cases message <;> rfl

def Stage.isDone : Stage P T R → Bool
  | .done _ => true
  | _ => false

def Stage.counts : Stage P T R → Option (ℕ × ℕ)
  | .done (.ok counts) => some counts
  | _ => none

structure Served (A P T R : Type) where
  sys : Sys P T R
  actor : ThreadActor A
  called : Bool
  outcome : Outcome R

/-- `process_message_inner`. -/
def processMessageInner (c : Config) (h : Handlers A P T R) (resume : ActorError → Bool) (s : Sys P T R) (a : ThreadActor A)
    (p : Pending P T) : Served A P T R :=
  if s.status ≠ .running then ⟨s,a,false,.error (c.refused s.status)⟩
  else if (s.actor&&s.context)=false then ⟨s,a,false,.error .stopped⟩
  else
    let s:={s with handled:=s.handled++[[p]]}
    let fails (b : ThreadActor A) (e : ActorError) : Served A P T R :=
      if p.message.isControl then ⟨s,b,true,.error e⟩ else ⟨s.superviseMessageError (resume e),b,true,.error e⟩
    match a.processMessage h p.traceContext p.message with
    | (b,.ok (.ok r)) => ⟨s,b,true,.ok r⟩
    | (b,.ok (.error e)) => fails b e
    | (b,.error payload) => fails b (.panic (c.panicMessage payload))

def oneByOne (c : Config) (h : Handlers A P T R) (resume : ActorError → Bool) :
    ℕ → Sys P T R → ThreadActor A → Sys P T R × ThreadActor A
  | 0,s,a => (s.leave,a)
  | n+1,s,a =>
    if s.status ≠ .running ∨ s.closed=true then (s.leave,a)
    else
      match s.mailbox with
      | [] => (s.leave,a)
      | item::items =>
        let p:=unpackItem item
        let x:=processMessageInner c h resume {s with mailbox:=items,popped:=s.popped++[item]} a p
        let s:=x.sys.answer p x.called x.outcome
        if s.stage.isDone then (s,x.actor) else oneByOne c h resume n s x.actor

def processBatchOfMessages (c : Config) (h : Handlers A P T R) (resume : ActorError → Bool) (s : Sys P T R)
    (a : ThreadActor A) : Sys P T R × ThreadActor A :=
  if s.status=.running then oneByOne c h resume c.maxMessages s a
  else (s.goto (.done (.error (.workerStateError
    ("Actor at " ++ c.path ++ " is not running, current status: " ++ s.status.debug)))),a)

/-- `process_message` is an async function: it panics in a poll only. -/
def Handled.ofPoll : Except String (Outcome R) → Handled R
  | .ok outcome => .finished outcome
  | .error payload => .panicked payload

variable [DecidableEq T]

/-- The next step of `process_coalesced`, with the answers of the actor and of supervision. -/
def drive (c : Config) (h : Handlers A P T R) (resume : ActorError → Bool) (x : Sys P T R × ThreadActor A) :
    Sys P T R × ThreadActor A :=
  match x.1.stage with
  | .ask p => (x.1.predicate c (x.2.canBatchMessage h p.message),x.2)
  | .probe _ _ next => (x.1.predicate c (x.2.canBatchMessage h next.message),x.2)
  | .running p =>
    (x.1.returned c (.ofPoll (x.2.processMessage h p.traceContext p.message).2),
      (x.2.processMessage h p.traceContext p.message).1)
  | .batch group _ =>
    (x.1.batched c (x.2.processBusinessBatch h (group.head?.bind (·.traceContext)) (group.map (·.message))).2,
      (x.2.processBusinessBatch h (group.head?.bind (·.traceContext)) (group.map (·.message))).1)
  | .supervise _ e | .settle ((_,.error e)::_) _ false false _ => (x.1.decide (resume e),x.2)
  | _ => (x.1.proceed c,x.2)

theorem drive_step (c : Config) (h : Handlers A P T R) (resume : ActorError → Bool) (x : Sys P T R × ThreadActor A) :
    ∃ a, (drive c h resume x).1=x.1.step c a := by
  unfold drive
  split
  · exact ⟨.predicate _,rfl⟩
  · exact ⟨.predicate _,rfl⟩
  · exact ⟨.returned _,rfl⟩
  · exact ⟨.batch _,rfl⟩
  · exact ⟨.decide _,rfl⟩
  · exact ⟨.decide _,rfl⟩
  · exact ⟨.proceed,rfl⟩

variable {c : Config} {h : Handlers A P T R} {resume : ActorError → Bool} {x y z : Sys P T R × ThreadActor A}

/-- Steps of the call lead from the one to the other. -/
def Leads (c : Config) (h : Handlers A P T R) (resume : ActorError → Bool) (x y : Sys P T R × ThreadActor A) : Prop :=
  ∃ n, (drive c h resume)^[n] x=y

theorem Leads.refl (x : Sys P T R × ThreadActor A) : Leads c h resume x x := ⟨0,rfl⟩

theorem Leads.trans (hxy : Leads c h resume x y) (hyz : Leads c h resume y z) : Leads c h resume x z := by
  obtain ⟨n,rfl⟩:=hxy
  obtain ⟨m,rfl⟩:=hyz
  exact ⟨m+n,Function.iterate_add_apply ..⟩

theorem Leads.step (hyz : Leads c h resume (drive c h resume x) z) : Leads c h resume x z :=
  Leads.trans ⟨1,rfl⟩ hyz

theorem Leads.runs (hxy : Leads c h resume x y) : ∃ acts, y.1=x.1.run c acts := by
  obtain ⟨n,rfl⟩:=hxy
  induction n generalizing x with
  | zero => exact ⟨[],rfl⟩
  | succ n ih =>
    obtain ⟨a,ha⟩:=drive_step c h resume x
    obtain ⟨acts,hacts⟩:=@ih (drive c h resume x)
    exact ⟨a::acts,by rw [iterate_succ_apply,hacts,ha]; rfl⟩

inductive Succeeds (h : Handlers A P T R) : ThreadActor A → List (Pending P T) → ThreadActor A → List R → Prop
  | nil (a : ThreadActor A) : Succeeds h a [] a []
  | cons {a b d : ThreadActor A} {p : Pending P T} {ps : List (Pending P T)} {r : R} {rs : List R} :
    a.processMessage h p.traceContext p.message=(b,.ok (.ok r)) → Succeeds h b ps d rs → Succeeds h a (p::ps) d (r::rs)

variable {a b d : ThreadActor A} {ps qs : List (Pending P T)} {rs : List R}

omit [DecidableEq T] in
theorem Succeeds.length (hs : Succeeds h a ps d rs) : rs.length=ps.length := by
  induction hs with
  | nil => rfl
  | cons _ _ ih => simp [ih]

omit [DecidableEq T] in
theorem Succeeds.split (hs : Succeeds h a (ps++qs) d rs) :
    ∃ b rs₁ rs₂, Succeeds h a ps b rs₁ ∧ Succeeds h b qs d rs₂ ∧ rs=rs₁++rs₂ := by
  induction ps generalizing a rs with
  | nil => exact ⟨a,[],rs,.nil a,hs,rfl⟩
  | cons p ps ih =>
    cases hs with
    | cons hfirst hrest =>
      obtain ⟨b,rs₁,rs₂,hps,hqs,rfl⟩:=ih hrest
      exact ⟨b,_,rs₂,.cons hfirst hps,hqs,rfl⟩

omit [DecidableEq T] in
theorem processMessage_batchable (parent : Option T) {m : BoxedMessage P T} (hrunning : a.state=.running)
    (hbatchable : m.batchable=true) : a.processMessage h parent m=a.receive h parent m := by
  cases m with
  | ask | engine => simp [BoxedMessage.batchable] at hbatchable
  | traced | business => simp [ThreadActor.processMessage,hrunning]

omit [DecidableEq T] in
theorem receiveBatch_succeeds {parent : Option T} (hs : Succeeds h a ps d rs) (hrunning : a.state=.running)
    (hbatchable : ∀ p∈ps, p.message.batchable=true) (hshares : Shares parent ps) :
    ThreadActor.receiveBatch h parent a.inner (ps.map (·.message))=(d.inner,.ok (rs.map .ok)) ∧ d.state=.running := by
  induction hs with
  | nil a => exact ⟨rfl,hrunning⟩
  | @cons a b d p ps r rs hfirst hrest ih =>
    have hp : p.traceContext=parent := hshares p (by simp)
    rw [processMessage_batchable _ hrunning (hbatchable p (by simp)),hp,ThreadActor.receive,Prod.mk.injEq] at hfirst
    obtain ⟨rfl,hout⟩:=hfirst
    obtain ⟨hbatch,hstate⟩:=ih hrunning (fun q hq => hbatchable q (by simp [hq])) fun q hq => hshares q (by simp [hq])
    have hreceive : h.receive parent a.inner p.message=((h.receive parent a.inner p.message).1,.ok (.ok r)) := by
      rw [← hout]
    refine ⟨?_,hstate⟩
    rw [List.map_cons,ThreadActor.receiveBatch,hreceive]
    simp only [hbatch]
    rfl

omit [DecidableEq T] in
theorem processBusinessBatch_succeeds {parent : Option T} (hs : Succeeds h a ps d rs) (hrunning : a.state=.running)
    (hbatchable : ∀ p∈ps, p.message.batchable=true) (hshares : Shares parent ps) :
    a.processBusinessBatch h parent (ps.map (·.message))=(d,.ok (rs.map .ok)) := by
  obtain ⟨hbatch,hstate⟩:=receiveBatch_succeeds hs hrunning hbatchable hshares
  simp only [ThreadActor.processBusinessBatch,hrunning,ne_eq,not_true_eq_false,if_false,hbatch,Prod.mk.injEq,and_true]
  rw [← hrunning] at hstate ⊢
  cases a
  cases d
  simp_all

structure Calm (s : Sys P T R) : Prop where
  status : s.status=.running
  closed : s.closed=false
  actor : s.actor=true
  context : s.context=true

structure After (s s' : Sys P T R) (sent : List (Pending P T × Outcome R)) : Prop where
  status : s'.status=s.status
  closed : s'.closed=s.closed
  actor : s'.actor=s.actor
  context : s'.context=s.context
  errors : s'.errors=s.errors
  processed : s'.processed=s.processed+sent.length
  settled : s'.settled=s.settled++sent
  handled : s'.handled.flatten=s.handled.flatten++sent.map Prod.fst

variable {s s' s'' : Sys P T R} {sent sent' : List (Pending P T × Outcome R)}

omit [DecidableEq T] in
theorem After.refl (s : Sys P T R) : After s s [] := ⟨rfl,rfl,rfl,rfl,rfl,rfl,by simp,by simp⟩

omit [DecidableEq T] in
theorem After.trans (h : After s s' sent) (h' : After s' s'' sent') : After s s'' (sent++sent') :=
  ⟨h'.status.trans h.status,h'.closed.trans h.closed,h'.actor.trans h.actor,h'.context.trans h.context,
    h'.errors.trans h.errors,by rw [h'.processed,h.processed,List.length_append,Nat.add_assoc],
    by rw [h'.settled,h.settled,List.append_assoc],
    by rw [h'.handled,h.handled,List.map_append,List.append_assoc]⟩

omit [DecidableEq T] in
theorem Calm.after (hc : Calm s) (h : After s s' sent) : Calm s' :=
  ⟨h.status.trans hc.status,h.closed.trans hc.closed,h.actor.trans hc.actor,h.context.trans hc.context⟩

variable (resume) in
theorem single_turn {p : Pending P T} {r : R} (hat : s.stage=.inner p) (hcalm : Calm s)
    (hok : a.processMessage h p.traceContext p.message=(b,.ok (.ok r))) :
    ∃ s', Leads c h resume (s,a) (s',b) ∧ After s s' [(p,.ok r)] ∧ s'.stage=.head none ∧ s'.mailbox=s.mailbox := by
  have hinner : drive c h resume (s,a)=(s.goto (.enter p),a) := by simp [drive,hat,Sys.proceed,hcalm.status]
  have henter : drive c h resume (s.goto (.enter p),a)=({s with handled:=s.handled++[[p]],stage:=.running p},a) := by
    simp [drive,Sys.goto,Sys.proceed,hcalm.actor,hcalm.context]
  have hrunning : drive c h resume ({s with handled:=s.handled++[[p]],stage:=.running p},a) =
      ({s with handled:=s.handled++[[p]],stage:=.finish p true (.ok r)},b) := by
    simp [drive,hok,Handled.ofPoll,Sys.returned,Sys.goto]
  have hfinish : drive c h resume ({s with handled:=s.handled++[[p]],stage:=.finish p true (.ok r)},b) =
      (({s with handled:=s.handled++[[p]]} : Sys P T R).answer p true (.ok r),b) := by
    simp [drive,Sys.proceed,Sys.answer]
  refine ⟨({s with handled:=s.handled++[[p]]} : Sys P T R).answer p true (.ok r),⟨4,?_⟩,?_,rfl,rfl⟩
  · rw [iterate_succ_apply,iterate_succ_apply,iterate_succ_apply,iterate_succ_apply,hinner,henter,hrunning,hfinish]
    rfl
  · exact ⟨rfl,rfl,rfl,rfl,rfl,rfl,rfl,by simp [Sys.answer]⟩

theorem settles (rs : List (Pending P T × R)) (lookahead : Option (Pending P T)) (s : Sys P T R)
    (hat : s.stage=.settle (rs.map fun x => (x.1,.ok x.2)) lookahead false false none) :
    Leads c h resume (s,a) ({s with settled:=s.settled++rs.map (fun x => (x.1,.ok x.2)),stage:=.head lookahead},a) := by
  induction rs generalizing s with
  | nil =>
    refine ⟨1,?_⟩
    simp [drive,hat,Sys.proceed,Sys.send,Sys.goto]
  | cons x rs ih =>
    have hstep : drive c h resume (s,a)=((s.settle x.1 (.ok x.2)).goto
        (.settle (rs.map fun x => (x.1,.ok x.2)) lookahead false false none),a) := by
      simp [drive,hat,Sys.proceed,Sys.send]
    refine Leads.step ?_
    rw [hstep]
    have hrest:=ih ((s.settle x.1 (.ok x.2)).goto (.settle (rs.map fun x => (x.1,.ok x.2)) lookahead false false none)) rfl
    simpa [Sys.settle,Sys.goto] using hrest

def Handlers.Decides (h : Handlers A P T R) : Prop := ∀ a m, ∃ answer, h.canBatch a m=.ok answer

omit [DecidableEq T] in
theorem canBatchMessage_ok (hdecides : h.Decides) (a : ThreadActor A) (m : BoxedMessage P T) :
    a.canBatchMessage h m=.ok true ∧ a.state=.running ∧ m.batchable=true ∨ a.canBatchMessage h m=.ok false := by
  unfold ThreadActor.canBatchMessage
  split
  · rename_i heligible
    obtain ⟨answer,hanswer⟩:=hdecides a.inner m
    cases answer with
    | true => exact .inl ⟨hanswer,heligible⟩
    | false => exact .inr hanswer
  · exact .inr rfl

/-- The group is complete: it took messages in mailbox order, and the item after them may be
held back. -/
def Grown (c : Config) (h : Handlers A P T R) (resume : ActorError → Bool) (s : Sys P T R) (a : ThreadActor A)
    (group : List (Pending P T)) (items : List (MailboxItem P T)) : Prop :=
  ∃ s' more ahead, Leads c h resume (s,a) (s',a) ∧ After s s' [] ∧ items=more++Option.toList ahead++s'.mailbox ∧
    s'.stage=.dispatch (group++more.map Pending.fromItem) (ahead.map Pending.fromItem) none ∧
    (∀ p∈group++more.map Pending.fromItem, p.message.batchable=true)

variable {items : List (MailboxItem P T)} {group : List (Pending P T)}

theorem Grown.here (ahead : Option (MailboxItem P T)) (s' : Sys P T R)
    (hleads : Leads c h resume (s,a) (s'.goto (.dispatch group (ahead.map Pending.fromItem) none),a)) (hafter : After s s' [])
    (hitems : items=ahead.toList++s'.mailbox) (hbatchable : ∀ p∈group, p.message.batchable=true) :
    Grown c h resume s a group items :=
  ⟨s'.goto (.dispatch group (ahead.map Pending.fromItem) none),[],ahead,hleads,
    ⟨hafter.status,hafter.closed,hafter.actor,hafter.context,hafter.errors,hafter.processed,hafter.settled,hafter.handled⟩,
    hitems,by simp [Sys.goto],by simpa using hbatchable⟩

variable (resume) in
theorem grows (hdecides : h.Decides) {parent : Option T} (items : List (MailboxItem P T)) (s : Sys P T R)
    (hat : s.stage=.grow parent group) (hmailbox : s.mailbox=items)
    (hbatchable : ∀ p∈group, p.message.batchable=true) : Grown c h resume s a group items := by
  induction items generalizing group s with
  | nil =>
    refine Grown.here none s ?_ (After.refl s) (by simp [hmailbox]) hbatchable
    by_cases hmore : group.length<s.groupLimit c ∧ s.status=.running ∧ s.closed=false
    · have hgrow : drive c h resume (s,a)=(s.goto (.pop parent group),a) := by simp only [drive,hat,Sys.proceed,if_pos hmore]
      have hpop : drive c h resume (s.goto (.pop parent group),a)=(s.goto (.dispatch group none none),a) := by
        simp [drive,Sys.goto,Sys.proceed,hmailbox]
      refine ⟨2,?_⟩
      rw [iterate_succ_apply,iterate_succ_apply,hgrow,hpop]
      rfl
    · refine ⟨1,?_⟩
      simp only [iterate_succ_apply,iterate_zero,id,drive,hat,Sys.proceed,if_neg hmore,Option.map_none]
  | cons item items ih =>
    by_cases hmore : group.length<s.groupLimit c ∧ s.status=.running ∧ s.closed=false
    · have hgrow : drive c h resume (s,a)=(s.goto (.pop parent group),a) := by simp only [drive,hat,Sys.proceed,if_pos hmore]
      let popped : Sys P T R := {s with mailbox:=items,popped:=s.popped++[item]}
      have hpopped : After s popped [] := ⟨rfl,rfl,rfl,rfl,rfl,rfl,by simp [popped],by simp [popped]⟩
      by_cases hsame : (Pending.fromItem item).traceContext=parent
      · have hpop : drive c h resume (s.goto (.pop parent group),a)=(popped.goto (.probe parent group (.fromItem item)),a) := by
          simp [drive,Sys.goto,Sys.proceed,hmailbox,hsame,popped]
        have hprobe : Leads c h resume (s,a) (popped.goto (.probe parent group (.fromItem item)),a) := by
          refine ⟨2,?_⟩
          rw [iterate_succ_apply,iterate_succ_apply,hgrow,hpop]
          rfl
        obtain ⟨hyes,-,hm⟩ | hno:=canBatchMessage_ok hdecides a (Pending.fromItem item).message
        · have hjoin : drive c h resume (popped.goto (.probe parent group (.fromItem item)),a) =
              (popped.goto (.grow parent (group++[.fromItem item])),a) := by
            simp [drive,Sys.goto,Sys.predicate,hyes,hm]
          obtain ⟨s',more,ahead,hleads,hafter,hitems,hstage,hall⟩ :=
            ih (popped.goto (.grow parent (group++[.fromItem item]))) rfl rfl (by
              simpa [or_imp,forall_and,hm] using hbatchable)
          refine ⟨s',item::more,ahead,hprobe.trans (Leads.step (by rw [hjoin]; exact hleads)),?_,by simp [hitems],?_,?_⟩
          · exact hpopped.trans ⟨hafter.status,hafter.closed,hafter.actor,hafter.context,hafter.errors,hafter.processed,
              hafter.settled,hafter.handled⟩
          · simpa using hstage
          · simpa using hall
        · have hstop : drive c h resume (popped.goto (.probe parent group (.fromItem item)),a) =
              (popped.goto (.dispatch group (some (.fromItem item)) none),a) := by
            simp [drive,Sys.goto,Sys.predicate,hno]
          have hleads:=hprobe.trans (Leads.step (by rw [hstop]; exact Leads.refl _))
          exact Grown.here (some item) popped hleads hpopped rfl hbatchable
      · have hpop : drive c h resume (s.goto (.pop parent group),a) =
            (popped.goto (.dispatch group (some (.fromItem item)) none),a) := by
          simp [drive,Sys.goto,Sys.proceed,hmailbox,hsame,popped]
        refine Grown.here (some item) popped ⟨2,?_⟩ hpopped rfl hbatchable
        rw [iterate_succ_apply,iterate_succ_apply,hgrow,hpop]
        rfl
    · refine Grown.here none s ⟨1,?_⟩ (After.refl s) (by simp [hmailbox]) hbatchable
      simp only [iterate_succ_apply,iterate_zero,id,drive,hat,Sys.proceed,if_neg hmore,Option.map_none]

variable (resume) in
theorem group_turn {lookahead : Option (Pending P T)} (hat : s.stage=.dispatch group lookahead none) (hcalm : Calm s)
    (hnonempty : 0<group.length) {parent : Option T} (hshares : Shares parent group) (hbatchable : ∀ p∈group,
    p.message.batchable=true) (hrunning : a.state=.running) (hs : Succeeds h a group d rs) : ∃ s', Leads c h resume
    (s,a) (s',d) ∧ After s s' (group.zip (rs.map .ok)) ∧ s'.stage=.head lookahead ∧ s'.mailbox=s.mailbox := by
  have hlength : rs.length=group.length := hs.length
  have hparent : group.head?.bind (·.traceContext)=parent := by
    cases group with
    | nil => simp at hnonempty
    | cons p ps => exact hshares p (by simp)
  have hbatch:=processBusinessBatch_succeeds hs hrunning hbatchable hshares
  let called : Sys P T R := {s with handled:=s.handled++[group],stage:=.batch group lookahead}
  have hdispatch : drive c h resume (s,a)=(s.goto (.context group lookahead),a) := by
    simp [drive,hat,Sys.proceed,hcalm.status]
  have hcontext : drive c h resume (s.goto (.context group lookahead),a)=(called,a) := by
    simp [drive,Sys.goto,Sys.proceed,hcalm.context,called]
  have hhandler : drive c h resume (called,a)=(called.conclude c group lookahead (.returned (rs.map .ok)),d) := by
    simp [drive,called,hparent,hbatch,Sys.batched]
  have hzip : group.zip (rs.map .ok)=(group.zip rs).map fun x => (x.1,(.ok x.2 : Outcome R)) := by
    rw [List.zip_map_right]
    rfl
  have houtcomes : (Verdict.returned (rs.map .ok)).outcomes c group.length=rs.map (.ok : R → Outcome R) := by
    simp [Verdict.outcomes,hlength]
  have hsettle:=@settles A P T R _ c h resume d (group.zip rs) lookahead
    (called.conclude c group lookahead (.returned (rs.map .ok)))
    (by simp [Sys.conclude,houtcomes,hzip,Verdict.invalidCount,hlength])
  have hleads:=Leads.step (x := (s,a)) (by rw [hdispatch]; exact .step (by rw [hcontext]; exact .step (by rw [hhandler]; exact hsettle)))
  refine ⟨_,hleads,?_,rfl,rfl⟩
  have hfst : (group.zip (rs.map (.ok : R → Outcome R))).map Prod.fst=group := List.map_fst_zip (by simp [hlength])
  exact ⟨rfl,rfl,rfl,rfl,rfl,by simp [Sys.conclude,called,hlength],by simp [Sys.conclude,called,hzip],by
    simp [Sys.conclude,called,hfst]⟩

/-- What a call comes to when the messages it takes succeed: one outcome each, and the rest of
the mailbox. -/
def Ends (s s' : Sys P T R) (items : List (MailboxItem P T)) (k : ℕ) (rs : List R) : Prop :=
  After s s' (((items.take k).map Pending.fromItem).zip (rs.map .ok)) ∧ s'.stage=.done (.ok (s'.processed,s'.errors)) ∧
    s'.mailbox=items.drop k

omit [DecidableEq T] in
theorem Ends.before {first rest : List (MailboxItem P T)} {k : ℕ} {rs₁ rs₂ : List R} (hle : first.length≤k)
    (hrs : rs₁.length=first.length) (hafter : After s s' ((first.map Pending.fromItem).zip (rs₁.map .ok)))
    (h : Ends s' s'' rest (k-first.length) rs₂) : Ends s s'' (first++rest) k (rs₁++rs₂) := by
  obtain ⟨hrest,hstage,hmailbox⟩:=h
  refine ⟨?_,hstage,?_⟩
  · rw [List.take_append,List.take_of_length_le hle,List.map_append,List.map_append,List.zip_append (by simp [hrs])]
    exact hafter.trans hrest
  · rw [List.drop_append,List.drop_of_length_le hle,List.nil_append,hmailbox]

omit [DecidableEq T] in
theorem After.goto (hafter : After s s' sent) (stage : Stage P T R) : After s (s'.goto stage) sent :=
  ⟨hafter.status,hafter.closed,hafter.actor,hafter.context,hafter.errors,hafter.processed,hafter.settled,hafter.handled⟩

omit [DecidableEq T] in
theorem Ends.leave {k : ℕ} (hnone : items.take k=[]) (hmailbox : s.mailbox=items.drop k) :
    Ends s s.leave items k ([] : List R) :=
  ⟨by rw [hnone]; exact (After.refl s).goto _,rfl,hmailbox⟩

variable (resume) in
theorem asks {ahead : Option (MailboxItem P T)} {item : MailboxItem P T} {rest : List (MailboxItem P T)}
    (hat : s.stage=.head (ahead.map Pending.fromItem)) (hitems : ahead.toList++s.mailbox=item::rest) (hcalm : Calm s)
    (hbudget : s.processed<c.maxMessages) :
    ∃ s', Leads c h resume (s,a) (s',a) ∧ After s s' [] ∧ s'.stage=.ask (.fromItem item) ∧ s'.mailbox=rest := by
  have hhead : drive c h resume (s,a)=(s.goto (.take (ahead.map Pending.fromItem)),a) := by
    simp [drive,hat,Sys.proceed,hbudget,hcalm.status,hcalm.closed]
  cases ahead with
  | none =>
    have hmailbox : s.mailbox=item::rest := hitems
    let popped : Sys P T R := {s with mailbox:=rest,popped:=s.popped++[item]}
    have htake : drive c h resume (s.goto (.take none),a)=(popped.goto (.lock (.fromItem item)),a) := by
      simp [drive,Sys.goto,Sys.proceed,hmailbox,popped]
    have hlock : drive c h resume (popped.goto (.lock (.fromItem item)),a)=(popped.goto (.ask (.fromItem item)),a) := by
      simp [drive,Sys.goto,Sys.proceed,hcalm.actor,popped]
    refine ⟨popped.goto (.ask (.fromItem item)),⟨3,?_⟩,⟨rfl,rfl,rfl,rfl,rfl,rfl,by simp [Sys.goto,popped],by simp [Sys.goto,popped]⟩,
      rfl,rfl⟩
    rw [iterate_succ_apply,iterate_succ_apply,iterate_succ_apply,hhead,Option.map_none,htake,hlock]
    rfl
  | some first =>
    obtain ⟨rfl,hmailbox⟩ : first=item ∧ s.mailbox=rest := by simpa using hitems
    have htake : drive c h resume (s.goto (.take (some (.fromItem first))),a)=(s.goto (.lock (.fromItem first)),a) := by
      simp [drive,Sys.goto,Sys.proceed]
    have hlock : drive c h resume (s.goto (.lock (.fromItem first)),a)=(s.goto (.ask (.fromItem first)),a) := by
      simp [drive,Sys.goto,Sys.proceed,hcalm.actor]
    refine ⟨s.goto (.ask (.fromItem first)),⟨3,?_⟩,(After.refl s).goto _,rfl,hmailbox⟩
    rw [iterate_succ_apply,iterate_succ_apply,iterate_succ_apply,hhead,Option.map_some,htake,hlock]
    rfl

omit [DecidableEq T] in
theorem Succeeds.first {first rest : List (MailboxItem P T)} {k : ℕ} (hle : first.length≤k)
    (hs : Succeeds h a (((first++rest).take k).map Pending.fromItem) d rs) :
    ∃ b rs₁ rs₂, Succeeds h a (first.map Pending.fromItem) b rs₁ ∧
      Succeeds h b ((rest.take (k-first.length)).map Pending.fromItem) d rs₂ ∧ rs=rs₁++rs₂ := by
  rw [List.take_append,List.take_of_length_le hle,List.map_append] at hs
  exact hs.split

variable (resume) in
theorem takes_turn (hinv : Inv c s) (hdecides : h.Decides) {ahead : Option (MailboxItem P T)} {item : MailboxItem P T} (hat : s.stage=.head (ahead.map Pending.fromItem))
    (hitems : ahead.toList++s.mailbox=item::items) (hcalm : Calm s) (hbudget : s.processed<c.maxMessages)
    (hs : Succeeds h a (((item::items).take (c.maxMessages-s.processed)).map Pending.fromItem) d rs) :
    ∃ s' b first rest ahead' rs₁ rs₂, Leads c h resume (s,a) (s',b) ∧ item::items=first++rest ∧ 0<first.length ∧
      first.length≤c.maxMessages-s.processed ∧ rs₁.length=first.length ∧
      After s s' ((first.map Pending.fromItem).zip (rs₁.map .ok)) ∧ s'.stage=.head (Option.map Pending.fromItem ahead') ∧
      ahead'.toList++s'.mailbox=rest ∧ rs=rs₁++rs₂ ∧
      Succeeds h b ((rest.take (c.maxMessages-s.processed-first.length)).map Pending.fromItem) d rs₂ := by
  obtain ⟨s₁,hasks,hafter₁,hask,hmailbox₁⟩:=asks (h := h) (a := a) resume hat hitems hcalm hbudget
  obtain ⟨hyes,hrunning,hm⟩ | hno:=canBatchMessage_ok hdecides a (Pending.fromItem item).message
  · have hjoin : drive c h resume (s₁,a) =
        (s₁.goto (.grow (Pending.fromItem item).traceContext [Pending.fromItem item]),a) := by
      simp [drive,hask,Sys.predicate,hyes,hm]
    obtain ⟨s₂,more,ahead',hgrows,hafter₂,hrest,hstage,hall⟩:=grows (c := c) (a := a) resume hdecides items
      (s₁.goto (.grow (Pending.fromItem item).traceContext [Pending.fromItem item])) rfl hmailbox₁ (by simpa using hm)
    have hleads : Leads c h resume (s,a) (s₂,a) := hasks.trans (.step (by rw [hjoin]; exact hgrows))
    have hafter : After s s₂ [] := (hafter₁.goto _).trans hafter₂
    have hgroup : [Pending.fromItem item]++more.map Pending.fromItem=(item::more).map Pending.fromItem := rfl
    rw [hgroup] at hstage hall
    -- the invariant bounds the group and gives it one parent
    have hsound : s₂.stage.Sound c s₂.processed := by
      obtain ⟨acts,hacts⟩:=hleads.runs
      rw [show s₂=s.run c acts from hacts]
      exact (run_inv hinv acts).stage
    rw [hstage] at hsound
    obtain ⟨hnonempty,⟨parent,hshares⟩,hroom,-⟩:=hsound
    have hlength : (item::more).length≤c.maxMessages-s.processed := by
      rw [hafter.processed] at hroom
      simpa [Config.room] using (Nat.le_min.mp hroom).2
    have hsplit : item::items=(item::more)++(ahead'.toList++s₂.mailbox) := by rw [hrest]; simp
    rw [hsplit] at hs
    obtain ⟨b,rs₁,rs₂,hfirst,hothers,hrs⟩:=hs.first hlength
    obtain ⟨s₃,hturn,hafter₃,hhead,hmailbox₃⟩ :=
      group_turn resume hstage (hcalm.after hafter) hnonempty hshares hall hrunning hfirst
    exact ⟨s₃,b,item::more,_,ahead',rs₁,rs₂,hleads.trans hturn,hsplit,by simp,hlength,by simpa using hfirst.length,
      hafter.trans hafter₃,hhead,by rw [hmailbox₃],hrs,hothers⟩
  · have hpass : drive c h resume (s₁,a)=(s₁.goto (.inner (.fromItem item)),a) := by
      simp [drive,hask,Sys.predicate,hno]
    have hlength : [item].length≤c.maxMessages-s.processed := by simp; omega
    obtain ⟨b,rs₁,rs₂,hfirst,hothers,hrs⟩:=@Succeeds.first A P T R h a d rs [item] items _ hlength hs
    cases hfirst with
    | cons hok hnil =>
      cases hnil
      obtain ⟨s₂,hturn,hafter₂,hhead,hmailbox₂⟩:=single_turn (c := c) resume
        (show (s₁.goto (.inner (.fromItem item))).stage=_ from rfl) (hcalm.after (hafter₁.goto _)) hok
      exact ⟨s₂,b,[item],items,none,_,rs₂,hasks.trans (.step (by rw [hpass]; exact hturn)),rfl,by simp,hlength,by simp,
        (hafter₁.goto _).trans hafter₂,hhead,by rw [hmailbox₂]; exact hmailbox₁,hrs,hothers⟩

variable (resume) in
theorem coalesced_ends (hdecides : h.Decides) (ahead : Option (MailboxItem P T))
    (hinv : Inv c s) (hat : s.stage=.head (ahead.map Pending.fromItem)) (hitems : ahead.toList++s.mailbox=items)
    (hstatus : s.status=.running) (hclosed : s.closed=false)
    (hslots : items.take (c.maxMessages-s.processed)≠[] → s.actor=true ∧ s.context=true)
    (hs : Succeeds h a ((items.take (c.maxMessages-s.processed)).map Pending.fromItem) d rs) :
    ∃ s', Leads c h resume (s,a) (s',d) ∧ Ends s s' items (c.maxMessages-s.processed) rs := by
  induction hk : c.maxMessages-s.processed using Nat.strongRecOn generalizing s a ahead items rs with
  | ind k ih =>
  subst hk
  by_cases hbudget : s.processed<c.maxMessages
  · cases items with
    | nil =>
      obtain ⟨rfl,hmailbox⟩ : ahead=none ∧ s.mailbox=[] := by simpa using hitems
      rw [List.take_nil,List.map_nil] at hs
      cases hs
      have hhead : drive c h resume (s,d)=(s.goto (.take none),d) := by
        simp [drive,hat,Sys.proceed,hbudget,hstatus,hclosed]
      have htake : drive c h resume (s.goto (.take none),d)=(s.leave,d) := by
        simp [drive,Sys.goto,Sys.proceed,hmailbox,Sys.leave]
      refine ⟨s.leave,⟨2,?_⟩,Ends.leave (by simp) (by simpa using hmailbox)⟩
      rw [iterate_succ_apply,iterate_succ_apply,hhead,htake]
      rfl
    | cons item items =>
      obtain ⟨k,hk⟩ : ∃ k, c.maxMessages-s.processed=k+1 := ⟨c.maxMessages-s.processed-1,by omega⟩
      obtain ⟨hactor,hcontext⟩:=hslots (by simp [hk])
      obtain ⟨s',b,first,rest,ahead',rs₁,rs₂,hleads,hsplit,hpos,hle,hlen,hafter,hhead,hrest,rfl,hothers⟩ :=
        takes_turn resume hinv hdecides hat hitems ⟨hstatus,hclosed,hactor,hcontext⟩ hbudget hs
      have hprocessed : s'.processed=s.processed+first.length := by
        rw [hafter.processed]
        simp [hlen]
      have hleft : c.maxMessages-s'.processed=c.maxMessages-s.processed-first.length := by omega
      have hinv' : Inv c s' := by
        obtain ⟨acts,hacts⟩:=hleads.runs
        rw [show s'=s.run c acts from hacts]
        exact run_inv hinv acts
      obtain ⟨s'',hleads',hends⟩:=ih (c.maxMessages-s'.processed) (by omega) ahead' hinv' hhead hrest
        (hafter.status.trans hstatus) (hafter.closed.trans hclosed)
        (fun _ => ⟨hafter.actor.trans hactor,hafter.context.trans hcontext⟩) (by rw [hleft]; exact hothers) rfl
      rw [hsplit]
      rw [hleft] at hends
      exact ⟨s'',hleads.trans hleads',hends.before hle hlen hafter⟩
  · have hzero : c.maxMessages-s.processed=0 := by omega
    -- the budget is spent, so nothing was taken ahead
    have hnone : ahead=none := by
      cases ahead with
      | none => rfl
      | some first =>
        have hsound:=hinv.stage
        rw [hat] at hsound
        exact absurd (hsound.2 rfl) hbudget
    subst hnone
    have hmailbox : s.mailbox=items := by simpa using hitems
    rw [hzero,List.take_zero,List.map_nil] at hs
    cases hs
    have hhead : drive c h resume (s,d)=(s.leave,d) := by
      simp only [drive,hat,Sys.proceed,if_neg hbudget]
    exact ⟨s.leave,⟨1,hhead⟩,Ends.leave (by simp [hzero]) (by simpa [hzero] using hmailbox)⟩

omit [DecidableEq T] in
theorem inner_settled (s : Sys P T R) (a : ThreadActor A) (p : Pending P T) :
    (processMessageInner c h resume s a p).sys.settled=s.settled := by
  have hsupervised (s : Sys P T R) (r : Bool) : (s.superviseMessageError r).settled=s.settled := by cases r <;> rfl
  unfold processMessageInner
  split
  · rfl
  · split
    · rfl
    · dsimp only
      split
      · rfl
      · split
        · rfl
        · exact hsupervised _ _
      · split
        · rfl
        · exact hsupervised _ _

omit [DecidableEq T] in
theorem oneByOne_settled (n : ℕ) (s : Sys P T R) (a : ThreadActor A) :
    List.IsPrefix s.settled (oneByOne c h resume n s a).1.settled := by
  induction n generalizing s a with
  | zero => exact List.prefix_refl _
  | succ n ih =>
    unfold oneByOne
    split
    · exact List.prefix_refl _
    · split
      · exact List.prefix_refl _
      · rename_i item items hmailbox
        let x:=processMessageInner c h resume {s with mailbox:=items,popped:=s.popped++[item]} a (unpackItem item)
        have hanswer : List.IsPrefix s.settled (x.sys.answer (unpackItem item) x.called x.outcome).settled := by
          refine ⟨[(unpackItem item,x.outcome)],?_⟩
          simp [Sys.answer,x,inner_settled]
        dsimp only
        split
        · exact hanswer
        · exact hanswer.trans (ih _ _)

omit [DecidableEq T] in
theorem inner_ok {p : Pending P T} {r : R} (hok : (processMessageInner c h resume s a p).outcome=.ok r) :
    (s.actor=true ∧ s.context=true) ∧ ∃ b, a.processMessage h p.traceContext p.message=(b,.ok (.ok r)) ∧
      processMessageInner c h resume s a p=⟨{s with handled:=s.handled++[[p]]},b,true,.ok r⟩ := by
  by_cases hrunning : s.status=.running
  · cases hslots : s.actor&&s.context with
    | false => simp [processMessageInner,hrunning,hslots] at hok
    | true =>
      refine ⟨by simpa using hslots,?_⟩
      cases hhandler : a.processMessage h p.traceContext p.message with
      | mk b how =>
        cases how with
        | error payload =>
          cases hcontrol : p.message.isControl <;>
            simp [processMessageInner,hrunning,hslots,hhandler,hcontrol] at hok
        | ok outcome =>
          cases outcome with
          | error e =>
            cases hcontrol : p.message.isControl <;>
              simp [processMessageInner,hrunning,hslots,hhandler,hcontrol] at hok
          | ok r' =>
            obtain rfl : r'=r := by simpa [processMessageInner,hrunning,hslots,hhandler] using hok
            exact ⟨b,rfl,by simp [processMessageInner,hrunning,hslots,hhandler]⟩
  · simp [processMessageInner,hrunning] at hok

omit [DecidableEq T] in
theorem oneByOne_ends (n : ℕ) (s : Sys P T R) (a : ThreadActor A) (hstatus : s.status=.running) (hclosed : s.closed=false)
    (hok : ∀ x∈(oneByOne c h resume n s a).1.settled, ∃ r, x.2=.ok r) :
    ∃ d rs, Succeeds h a ((s.mailbox.take n).map Pending.fromItem) d rs ∧ (oneByOne c h resume n s a).2=d ∧
      Ends s (oneByOne c h resume n s a).1 s.mailbox n rs ∧ (s.mailbox.take n≠[] → s.actor=true ∧ s.context=true) := by
  induction n generalizing s a with
  | zero => exact ⟨a,[],by simpa using Succeeds.nil a,rfl,Ends.leave (by simp) (by simp),by simp⟩
  | succ n ih =>
    have hopen : ¬(s.status ≠ .running ∨ s.closed=true) := by simp [hstatus,hclosed]
    rw [oneByOne,if_neg hopen] at hok ⊢
    cases hmailbox : s.mailbox with
    | nil => exact ⟨a,[],by simpa using Succeeds.nil a,rfl,Ends.leave (by simp) (by simpa using hmailbox),by simp⟩
    | cons item items =>
      simp only [hmailbox,unpackItem_eq] at hok ⊢
      let s₁ : Sys P T R := {s with mailbox:=items,popped:=s.popped++[item]}
      let p:=Pending.fromItem item
      -- the first outcome stays among those settled
      obtain ⟨r,hr⟩ : ∃ r, (processMessageInner c h resume s₁ a p).outcome=.ok r := by
        refine hok (p,(processMessageInner c h resume s₁ a p).outcome) ?_
        split
        · simp [Sys.answer,p,s₁]
        · exact (oneByOne_settled n _ _).subset (by simp [Sys.answer,p,s₁])
      obtain ⟨hslots,b,hhandler,hx⟩:=inner_ok hr
      let s₂ : Sys P T R := ({s₁ with handled:=s₁.handled++[[p]]} : Sys P T R).answer p true (.ok r)
      rw [hx] at hok ⊢
      obtain ⟨d,rs,hs,hactor,hends,-⟩:=ih s₂ b hstatus hclosed hok
      have hafter : After s s₂ (([item].map Pending.fromItem).zip ([r].map .ok)) :=
        ⟨rfl,rfl,rfl,rfl,rfl,rfl,by simp [s₂,s₁,Sys.answer,p],by simp [s₂,s₁,Sys.answer,p]⟩
      exact ⟨d,r::rs,.cons hhandler hs,hactor,@Ends.before P T R s s₂ _ [item] items (n+1) [r] rs (by simp) rfl hafter hends,fun _ => hslots⟩

/-- The two calls returned the same counts after the same messages and the same outcomes. -/
structure Agrees (s t : Sys P T R) : Prop where
  done : s.stage.isDone=true
  counts : s.stage.counts=t.stage.counts
  settled : s.settled=t.settled
  handled : s.handled.flatten=t.handled.flatten
  mailbox : s.mailbox=t.mailbox

theorem paths_agree (hinv : Inv c s) (hat : s.stage=.start) (hdecides : h.Decides)
    (hok : ∀ x∈(processBatchOfMessages c h resume s a).1.settled, ∃ r, x.2=.ok r) : ∃ s', Leads c h resume (s,a)
    (s',(processBatchOfMessages c h resume s a).2) ∧ Agrees s' (processBatchOfMessages c h resume s a).1 := by
  by_cases hrunning : s.status=.running
  · have hstart : drive c h resume (s,a)=(s.goto (.head none),a) := by simp [drive,hat,Sys.proceed,hrunning]
    rw [processBatchOfMessages,if_pos hrunning] at hok ⊢
    cases hclosed : s.closed with
    | true =>
      have hhead : drive c h resume (s.goto (.head none),a)=(s.leave,a) := by
        by_cases hbudget : s.processed<c.maxMessages
        · simp [drive,Sys.goto,Sys.proceed,hbudget,hclosed,Sys.refuseAhead,Sys.leave]
        · simp [drive,Sys.goto,Sys.proceed,hbudget,Sys.leave]
      have hleave : oneByOne c h resume c.maxMessages s a=(s.leave,a) := by
        cases c.maxMessages with
        | zero => rfl
        | succ n => rw [oneByOne,if_pos (.inr hclosed)]
      rw [hleave]
      refine ⟨s.leave,⟨2,?_⟩,⟨rfl,rfl,rfl,rfl,rfl⟩⟩
      rw [iterate_succ_apply,iterate_succ_apply,hstart,hhead]
      rfl
    | false =>
      obtain ⟨d,rs,hs,hactor,⟨hafter,hdone,hmailbox⟩,hslots⟩:=oneByOne_ends c.maxMessages s a hrunning hclosed hok
      have hzero : s.processed=0 := by
        have hsound:=hinv.stage
        rwa [hat] at hsound
      have hbudget : c.maxMessages-(s.goto (.head none)).processed=c.maxMessages := by
        change c.maxMessages-s.processed=c.maxMessages
        omega
      have hinv' : Inv c (s.goto (.head none)) :=
        hinv.goto hat rfl rfl rfl ⟨by omega,by simp⟩ (by simp [Stage.holdsActor])
      obtain ⟨s',hleads,⟨hafter',hdone',hmailbox'⟩⟩:=coalesced_ends resume hdecides none hinv' rfl rfl hrunning hclosed
        (by rw [hbudget]; exact hslots) (by rw [hbudget]; exact hs)
      rw [hbudget] at hafter' hmailbox'
      refine ⟨s',.step (by rw [hstart,hactor]; exact hleads),⟨by rw [hdone']; rfl,?_,?_,?_,?_⟩⟩
      · rw [hdone,hdone',hafter.processed,hafter'.processed,hafter.errors,hafter'.errors]
        rfl
      · rw [hafter.settled,hafter'.settled]
        rfl
      · rw [hafter.handled,hafter'.handled]
        rfl
      · rw [hmailbox,hmailbox']
        rfl
  · rw [processBatchOfMessages,if_neg hrunning]
    have hstart : drive c h resume (s,a)=(s.goto (.done (.error c.notRunning)),a) := by
      simp [drive,hat,Sys.proceed,hrunning]
    exact ⟨s.goto (.done (.error c.notRunning)),⟨1,hstart⟩,⟨rfl,rfl,rfl,rfl,rfl⟩⟩

/-- What a run of `process_coalesced` has done so far, and, once it has returned, what became of
the messages it popped. -/
structure Orderly (c : Config) (s : Sys P T R) : Prop where
  order : List.Sublist (s.popped++s.mailbox) s.arrived
  segments : ∃ parts : List (List (Pending P T)), parts.flatten=s.popped.map Pending.fromItem ∧ List.Sublist s.handled parts
  parent : ∀ group∈s.handled, ∃ parent, ∀ p∈group, p.traceContext=parent
  size : ∀ group∈s.handled, 0<group.length ∧ group.length ≤ max 1 (c.messageBatchSize.getD 1)
  budget : ∀ n errors, s.stage=.done (.ok (n,errors)) → n≤c.maxMessages
  settled : s.stage.isDone=true → s.settled.map Prod.fst=s.popped.map Pending.fromItem
  replies : s.stage.isDone=true → s.replies.map Prod.fst=s.popped.filterMap fun item => (Pending.fromItem item).reply
  positions : s.stage.isDone=true → ∀ group outcomes, Turn.batch group (.returned outcomes)∈s.turns →
    outcomes.length=group.length → List.IsInfix (group.zip outcomes) s.settled

omit [DecidableEq T] in
theorem Inv.orderly (hinv : Inv c s) : Orderly c s := by
  have hresult (hdone : s.stage.isDone=true) : ∃ result, s.stage=.done result := by
    cases hat : s.stage with
    | done result => exact ⟨result,rfl⟩
    | start | head | take | lock | ask | inner | enter | running | supervise | finish | grow | pop | probe | dispatch
    | context | batch | settle | decided => simp [hat,Stage.isDone] at hdone
  have hlimit : c.limit ≤ max 1 (c.messageBatchSize.getD 1) := by
    unfold Config.limit
    split <;> omega
  refine ⟨hinv.order,hinv.segments,fun group hg => (hinv.fits group hg).parent,fun group hg =>
    ⟨(hinv.fits group hg).nonempty,Nat.le_trans (hinv.fits group hg).limit hlimit⟩,?_,?_,?_,?_⟩
  · intro n errors hat
    have hsound:=hinv.stage
    rwa [hat] at hsound
  · intro hdone
    obtain ⟨result,hat⟩:=hresult hdone
    exact (hinv.returns hat).1
  · intro hdone
    obtain ⟨result,hat⟩:=hresult hdone
    exact replies_channels (hinv.returns hat).1
  · intro hdone group outcomes hturn hlength
    obtain ⟨result,hat⟩:=hresult hdone
    exact hinv.positions hat hturn hlength

/-- Every run is orderly, whatever the mailbox, the predicate and the handlers do and whenever
the actor is paused, stopped or closed; and an undisturbed run whose predicate does not panic
agrees with the one-by-one path when every message there succeeds. -/
theorem coalesced_processing (c : Config) (mailbox : List (MailboxItem P T)) (closed : Bool) (status : ProcessorStatus)
    (alive failed : Bool) :
    (∀ acts : List (Act P T R), Orderly c ((Sys.new mailbox closed status alive failed).run c acts)) ∧
    ∀ (h : Handlers A P T R) (resume : ActorError → Bool) (a : ThreadActor A), h.Decides →
      (∀ x∈(processBatchOfMessages c h resume (Sys.new mailbox closed status alive failed) a).1.settled, ∃ r, x.2=.ok r) →
      ∃ s', Leads c h resume (Sys.new mailbox closed status alive failed,a)
          (s',(processBatchOfMessages c h resume (Sys.new mailbox closed status alive failed) a).2) ∧
        Agrees s' (processBatchOfMessages c h resume (Sys.new mailbox closed status alive failed) a).1 ∧
        s'.replies=(processBatchOfMessages c h resume (Sys.new mailbox closed status alive failed) a).1.replies := by
  have hnew : Inv c (Sys.new mailbox closed status alive failed : Sys P T R) := new_inv mailbox closed status alive failed
  refine ⟨fun acts => (run_inv hnew acts).orderly,fun h resume a hdecides hok => ?_⟩
  obtain ⟨s',hleads,hagrees⟩:=paths_agree hnew rfl hdecides hok
  exact ⟨s',hleads,hagrees,by rw [Sys.replies,hagrees.settled]; rfl⟩

/-- An actor whose handler succeeds and whose predicate panics. -/
def fragile : Handlers Unit ℕ ℕ ℕ where
  canBatch := fun _ _ => .error "boom"
  receive := fun _ _ _ => ((),.ok (.ok 7))
  engine := fun _ a _ => (a,.ok (.ok 0))

/-- One by one the ask is answered with the handler's reply; coalesced, with the panic of the
predicate. -/
theorem predicate_panic_differs :
    (processBatchOfMessages ⟨"/user/a",some 4,3,false⟩ fragile (fun _ => true)
      (Sys.new [.ask none (.business 1) (some 0)] false .running true false) ⟨.running,()⟩).1.replies=[(0,.ok 7)] ∧
    ((drive ⟨"/user/a",some 4,3,false⟩ fragile (fun _ => true))^[11]
      (Sys.new [.ask none (.business 1) (some 0)] false .running true false,⟨.running,()⟩)).1.replies =
        [(0,.error (.panic "Panic in actor /user/a: boom"))] ∧
    ((drive ⟨"/user/a",some 4,3,false⟩ fragile (fun _ => true))^[11]
      (Sys.new [.ask none (.business 1) (some 0)] false .running true false,⟨.running,()⟩)).1.stage.isDone=true := by
  decide +kernel

end Parrot.Processor
