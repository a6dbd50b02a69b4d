import Parrot.Processor.Batch

/-! # What every run of `process_coalesced` keeps

Popped messages are in a turn that is over or held by the stage, an outcome of a turn is
settled or owed, and a group that a handler got belongs to a turn or is given by the stage. -/

namespace Parrot.Processor
open List (Sublist append_assoc)

variable {P T R : Type}

def Stage.held : Stage P T R → List (Pending P T)
  | .start | .done _ => []
  | .head lookahead | .take lookahead | .settle _ lookahead _ _ _ | .decided _ _ _ lookahead _ => lookahead.toList
  | .lock p | .ask p | .inner p | .enter p | .running p | .supervise p _ | .finish p _ _ => [p]
  | .grow _ group | .pop _ group => group
  | .probe _ group next => group++[next]
  | .dispatch group lookahead _ | .context group lookahead | .batch group lookahead => group++lookahead.toList

def Stage.given : Stage P T R → List (List (Pending P T))
  | .running p | .supervise p _ => [[p]]
  | .finish p called _ => if called then [[p]] else []
  | .batch group _ => [group]
  | .start | .done _ | .head _ | .take _ | .settle .. | .decided .. | .lock _ | .ask _ | .inner _ | .enter _
  | .grow .. | .pop .. | .probe .. | .dispatch .. | .context .. => []

def Stage.owed : Stage P T R → List (Pending P T × Outcome R)
  | .settle rest _ _ _ _ => rest
  | .decided p e rest _ _ => (p,.error e)::rest
  | .start | .done _ | .head _ | .take _ | .lock _ | .ask _ | .inner _ | .enter _ | .running _ | .supervise .. | .finish ..
  | .grow .. | .pop .. | .probe .. | .dispatch .. | .context .. | .batch .. => []

def Shares (parent : Option T) (group : List (Pending P T)) : Prop := ∀ p∈group, p.traceContext=parent

structure Fits (c : Config) (group : List (Pending P T)) : Prop where
  nonempty : 0<group.length
  limit : group.length≤c.limit
  parent : ∃ parent, Shares parent group

def Ahead (used bound : ℕ) (lookahead : Option (Pending P T)) : Prop := used≤bound ∧ (lookahead.isSome → used<bound)

def Config.room (c : Config) (processed : ℕ) : ℕ := min c.limit (c.maxMessages-processed)

def Stage.Sound (c : Config) (processed : ℕ) : Stage P T R → Prop
  | .start => processed=0
  | .head lookahead | .settle _ lookahead _ _ _ | .decided _ _ _ lookahead _ => Ahead processed c.maxMessages lookahead
  | .take _ | .lock _ | .ask _ | .inner _ | .enter _ | .running _ | .supervise .. | .finish .. => processed<c.maxMessages
  | .grow parent group => 0<group.length ∧ Shares parent group ∧ group.length≤c.room processed
  | .pop parent group => 0<group.length ∧ Shares parent group ∧ group.length<c.room processed
  | .probe parent group next => 0<group.length ∧ Shares parent (group++[next]) ∧ group.length<c.room processed
  | .dispatch group lookahead _ | .context group lookahead | .batch group lookahead =>
    0<group.length ∧ (∃ parent, Shares parent group) ∧ Ahead group.length (c.room processed) lookahead
  | .done (.ok (n,_)) => n≤c.maxMessages
  | .done (.error _) => True

structure Inv (c : Config) (s : Sys P T R) : Prop where
  popped : s.popped.map Pending.fromItem=s.turns.flatMap Turn.pendings++s.stage.held
  settled : s.settled++s.stage.owed=s.turns.flatMap (Turn.answers c)
  handled : s.handled=s.turns.filterMap Turn.handed++s.stage.given
  order : Sublist (s.popped++s.mailbox) s.arrived
  fits : ∀ group∈s.handled, Fits c group
  stage : s.stage.Sound c s.processed
  slots : s.context=s.actor
  locked : s.stage.holdsActor=true → s.actor=true

/-- What a step moves: items out of the mailbox, turns that end, outcomes that are sent and
groups that handlers get. -/
structure Moved (c : Config) (s s' : Sys P T R) (items : List (MailboxItem P T)) (ended : List (Turn P T R))
    (sent : List (Pending P T × Outcome R)) (groups : List (List (Pending P T))) : Prop where
  popped : s'.popped=s.popped++items
  mailbox : s.mailbox=items++s'.mailbox
  arrived : s'.arrived=s.arrived
  turns : s'.turns=s.turns++ended
  settled : s'.settled=s.settled++sent
  handled : s'.handled=s.handled++groups
  actor : s'.actor=s.actor
  context : s'.context=s.context
  held : s.stage.held++items.map Pending.fromItem=ended.flatMap Turn.pendings++s'.stage.held
  owed : s.stage.owed++ended.flatMap (Turn.answers c)=sent++s'.stage.owed
  given : s.stage.given++groups=ended.filterMap Turn.handed++s'.stage.given

variable {c : Config} {s s' : Sys P T R} {old : Stage P T R}

theorem Inv.next (h : Inv c s) {items : List (MailboxItem P T)} {turns : List (Turn P T R)}
    {sent : List (Pending P T × Outcome R)} {groups : List (List (Pending P T))} (m : Moved c s s' items turns sent groups)
    (hfits : ∀ group∈groups, Fits c group) (hstage : s'.stage.Sound c s'.processed)
    (hlocked : s'.stage.holdsActor=true → s.actor=true) : Inv c s' where
  popped := by rw [m.popped,m.turns,List.map_append,List.flatMap_append,h.popped,append_assoc,m.held,append_assoc]
  settled := by
    rw [m.settled,m.turns,List.flatMap_append,← h.settled,append_assoc,append_assoc,m.owed]
  handled := by
    rw [m.handled,m.turns,List.filterMap_append,h.handled,append_assoc,m.given,append_assoc]
  order := by
    have horder:=h.order
    rw [m.mailbox] at horder
    rw [m.popped,m.arrived,append_assoc]
    exact horder
  fits := by
    intro group hgroup
    rw [m.handled,List.mem_append] at hgroup
    exact hgroup.elim (h.fits group) (hfits group)
  stage := hstage
  slots := by rw [m.context,m.actor,h.slots]
  locked := by
    intro hholds
    rw [m.actor]
    exact hlocked hholds

theorem Inv.apart (h : Inv c s) (status : ProcessorStatus) (closed failed : Bool) (errors : ℕ) :
    Inv c {s with status:=status,closed:=closed,failed:=failed,errors:=errors} :=
  ⟨h.popped,h.settled,h.handled,h.order,h.fits,h.stage,h.slots,h.locked⟩

theorem Inv.recordFailure (h : Inv c s) : Inv c s.recordFailure := h.apart .failed s.closed true s.errors

theorem Inv.superviseMessageError (h : Inv c s) (resume : Bool) : Inv c (s.superviseMessageError resume) := by
  cases resume with
  | true => exact h
  | false => exact h.recordFailure

variable {stage : Stage P T R}

theorem Inv.goto (h : Inv c s) (hat : s.stage=old) (hheld : old.held=stage.held)
    (howed : old.owed=stage.owed) (hgiven : old.given=stage.given) (hstage : stage.Sound c s.processed)
    (hlocked : stage.holdsActor=true → s.actor=true) : Inv c (s.goto stage) := by
  subst hat
  have hmoved : Moved c s (s.goto stage) [] [] [] [] :=
    ⟨by simp [Sys.goto],by simp [Sys.goto],rfl,by simp [Sys.goto],by simp [Sys.goto],by simp [Sys.goto],rfl,rfl,
      by simpa [Sys.goto] using hheld,by simpa [Sys.goto] using howed,by simpa [Sys.goto] using hgiven⟩
  exact h.next hmoved (by simp) hstage hlocked

theorem Inv.pops (h : Inv c s) {item : MailboxItem P T} {items : List (MailboxItem P T)}
    (hmailbox : s.mailbox=item::items) (hat : s.stage=old) (hheld : old.held++[Pending.fromItem item]=stage.held)
    (howed : old.owed=stage.owed) (hgiven : old.given=stage.given) (hstage : stage.Sound c s.processed)
    (hlocked : stage.holdsActor=true → s.actor=true) :
    Inv c {s with mailbox:=items,popped:=s.popped++[item],stage:=stage} := by
  subst hat
  have hmoved : Moved c s {s with mailbox:=items,popped:=s.popped++[item],stage:=stage} [item] [] [] [] :=
    ⟨rfl,hmailbox,rfl,by simp,by simp,by simp,rfl,rfl,by simpa using hheld,by simpa using howed,by simpa using hgiven⟩
  exact h.next hmoved (by simp) hstage hlocked

variable {group : List (Pending P T)}

theorem Inv.hands (h : Inv c s) (hfits : Fits c group) (hat : s.stage=old)
    (hheld : old.held=stage.held) (howed : old.owed=stage.owed) (hgiven : old.given++[group]=stage.given)
    (hstage : stage.Sound c s.processed) (hlocked : stage.holdsActor=true → s.actor=true) :
    Inv c {s with handled:=s.handled++[group],stage:=stage} := by
  subst hat
  have hmoved : Moved c s {s with handled:=s.handled++[group],stage:=stage} [] [] [] [group] :=
    ⟨by simp,by simp,rfl,by simp,by simp,by simp,rfl,rfl,by simpa using hheld,by simpa using howed,by simpa using hgiven⟩
  exact h.next hmoved (by simpa using hfits) hstage hlocked

variable {result : Except SystemError (ℕ × ℕ)} {p : Pending P T}

theorem Inv.refuses (h : Inv c s) (hat : s.stage=old) (hheld : old.held=[p]) (howed : old.owed=[])
    (hgiven : old.given=[]) (hresult : (Stage.done result : Stage P T R).Sound c s.processed) :
    Inv c ((s.refuse p).goto (.done result)) := by
  subst hat
  have hmoved : Moved c s ((s.refuse p).goto (.done result)) [] [.refused p (.error .stopped)] [(p,.error .stopped)] [] :=
    ⟨by simp [Sys.goto,Sys.refuse,Sys.settle],by simp [Sys.goto,Sys.refuse,Sys.settle],rfl,rfl,rfl,
      by simp [Sys.goto,Sys.refuse,Sys.settle],rfl,rfl,by rw [hheld]; rfl,by rw [howed]; rfl,by rw [hgiven]; rfl⟩
  exact h.next hmoved (by simp) hresult (by simp [Sys.goto,Stage.holdsActor])

variable {lookahead : Option (Pending P T)}

section
variable (h : Inv c s)
include h

theorem Inv.refusesAhead (hat : s.stage=old) (hheld : old.held=lookahead.toList) (howed : old.owed=[])
    (hgiven : old.given=[]) (hresult : (Stage.done result : Stage P T R).Sound c s.processed) :
    Inv c ((s.refuseAhead lookahead).goto (.done result)) := by
  cases lookahead with
  | none => exact h.goto hat hheld howed hgiven hresult (by simp [Stage.holdsActor])
  | some p => exact h.refuses hat hheld howed hgiven hresult

theorem answer_inv {called : Bool} {outcome : Outcome R}
    (hat : s.stage=.finish p called outcome) : Inv c (s.answer p called outcome) := by
  have hsound : s.processed<c.maxMessages := by simpa [hat,Stage.Sound] using h.stage
  have hnext : (s.answer p called outcome).stage.held=[] ∧ (s.answer p called outcome).stage.owed=[] ∧
      (s.answer p called outcome).stage.given=[] ∧ (s.answer p called outcome).stage.Sound c (s.processed+1) ∧
      (s.answer p called outcome).stage.holdsActor=false := by
    cases outcome with
    | ok r => simp [Sys.answer,Stage.held,Stage.owed,Stage.given,Stage.Sound,Ahead,Stage.holdsActor]; omega
    | error e =>
      by_cases hfailed : s.failed=true
      · simp [Sys.answer,hfailed,Stage.held,Stage.owed,Stage.given,Stage.Sound,Stage.holdsActor]
      · simp [Sys.answer,hfailed,Stage.held,Stage.owed,Stage.given,Stage.Sound,Ahead,Stage.holdsActor]; omega
  obtain ⟨hheld,howed,hgiven,hstage,hfree⟩:=hnext
  have hmoved : Moved c s (s.answer p called outcome) []
      [if called then .single p outcome else .refused p outcome] [(p,outcome)] [] := by
    refine ⟨by simp [Sys.answer],by simp [Sys.answer],rfl,rfl,rfl,by simp [Sys.answer],rfl,rfl,?_,?_,?_⟩
    · rw [hat,hheld]
      cases called <;> rfl
    · rw [hat,howed]
      cases called <;> rfl
    · rw [hat,hgiven]
      cases called <;> rfl
  exact h.next hmoved (by simp) hstage (by simp [hfree])

theorem conclude_inv {v : Verdict R}
    (hat : s.stage=old) (hheld : old.held=group++lookahead.toList) (howed : old.owed=[])
    (hgiven : old.given=if v.called then [group] else []) (hroom : Ahead group.length (c.room s.processed) lookahead)
    (hnonempty : 0<group.length) : Inv c (s.conclude c group lookahead v) := by
  subst hat
  have hmoved : Moved c s (s.conclude c group lookahead v) [] [.batch group v] [] [] := by
    refine ⟨by simp [Sys.conclude],by simp [Sys.conclude],rfl,rfl,by simp [Sys.conclude],by simp [Sys.conclude],rfl,rfl,?_,?_,?_⟩
    · rw [hheld]
      simp [Sys.conclude,Turn.pendings,Stage.held]
    · rw [howed]
      simp [Sys.conclude,Turn.answers,Stage.owed]
    · rw [hgiven]
      cases hcalled : v.called <;> simp [Sys.conclude,hcalled,Turn.handed,Stage.given]
  refine h.next hmoved (by simp) ?_ (by simp [Sys.conclude,Stage.holdsActor])
  simp only [Sys.conclude,Stage.Sound,Ahead] at hroom ⊢
  unfold Config.room at hroom
  constructor
  · omega
  · intro hsome
    have hlt:=hroom.2 hsome
    omega

theorem Inv.sends {o : Outcome R} {errors : ℕ} (hat : s.stage=old)
    (hheld : old.held=stage.held) (howed : old.owed=(p,o)::stage.owed) (hgiven : old.given=stage.given)
    (hstage : stage.Sound c s.processed) (hfree : stage.holdsActor=false) :
    Inv c (({s with errors:=errors}.settle p o).goto stage) := by
  subst hat
  have hmoved : Moved c s (({s with errors:=errors}.settle p o).goto stage) [] [] [(p,o)] [] :=
    ⟨by simp [Sys.goto,Sys.settle],by simp [Sys.goto,Sys.settle],rfl,by simp [Sys.goto,Sys.settle],rfl,
      by simp [Sys.goto,Sys.settle],rfl,rfl,by simpa [Sys.goto] using hheld,by simpa [Sys.goto] using howed,
      by simpa [Sys.goto] using hgiven⟩
  exact h.next hmoved (by simp) hstage (by simp [Sys.goto,hfree])

theorem Inv.judges {e : ActorError} {rest : List (Pending P T × Outcome R)} {invalid decided : Bool} {fatal : Option String}
    (hat : s.stage=.settle ((p,.error e)::rest) lookahead invalid decided fatal) (status : ProcessorStatus) (failed : Bool) :
    Inv c ({s with status:=status,failed:=failed,errors:=s.errors+1}.goto (.decided p e rest lookahead invalid)) := by
  have hstage:=h.stage
  rw [hat] at hstage
  exact (h.apart status s.closed failed (s.errors+1)).goto hat rfl rfl rfl hstage
    (by simp [Stage.holdsActor])

theorem send_inv {rest : List (Pending P T × Outcome R)}
    {invalid decided : Bool} {fatal : Option String} (hat : s.stage=.settle rest lookahead invalid decided fatal) :
    Inv c (s.send rest lookahead invalid decided fatal) := by
  have hstage:=h.stage
  rw [hat] at hstage
  cases rest with
  | nil =>
    cases fatal with
    | none => exact h.goto hat rfl rfl rfl hstage (by simp [Stage.holdsActor])
    | some reason => exact h.refusesAhead hat rfl rfl rfl trivial
  | cons answer rest =>
    obtain ⟨p,o⟩:=answer
    cases o with
    | ok r => exact h.sends hat rfl rfl rfl hstage rfl
    | error e =>
      cases decided with
      | true => exact h.sends hat rfl rfl rfl hstage rfl
      | false =>
        cases invalid with
        | false => exact h
        | true =>
          exact h.judges hat .failed true

theorem predicate_inv (answer : Except String Bool) : Inv c (s.predicate c answer) := by
  have hstage:=h.stage
  have hlocked:=h.locked
  cases hat : s.stage with
  | ask p =>
    rw [hat] at hstage hlocked
    have hroom : 1≤c.room s.processed := by
      have hlimit : 1≤c.limit := by unfold Config.limit; split <;> omega
      have hbudget : s.processed<c.maxMessages := hstage
      unfold Config.room
      omega
    simp only [Sys.predicate,hat]
    split
    · exact h.goto hat rfl rfl rfl ⟨by simp,by simp [Shares],hroom⟩ hlocked
    · exact h.goto hat rfl rfl rfl hstage (by simp [Stage.holdsActor])
    · exact h.goto hat rfl rfl rfl
        ⟨by simp,⟨p.traceContext,by simp [Shares]⟩,hroom,by simp⟩ hlocked
  | probe parent group next =>
    rw [hat] at hstage hlocked
    obtain ⟨hnonempty,hshares,hroom⟩:=hstage
    have hgrown : (group++[next]).length≤c.room s.processed := by
      rw [List.length_append]
      exact hroom
    simp only [Sys.predicate,hat]
    split
    · exact h.goto hat rfl rfl rfl ⟨by simp,hshares,hgrown⟩ hlocked
    · exact h.goto hat rfl rfl rfl
        ⟨hnonempty,⟨parent,fun p hp => hshares p (by simp [hp])⟩,Nat.le_of_lt hroom,fun _ => hroom⟩ hlocked
    · exact h.goto hat (by simp [Stage.held]) rfl rfl
        ⟨by simp,⟨parent,hshares⟩,hgrown,by simp⟩ hlocked
  | start | head | take | lock | inner | enter | running | supervise | finish | grow | pop | dispatch | context | batch
  | settle | decided | done =>
    simp only [Sys.predicate,hat]
    exact h

theorem returned_inv (how : Handled R) : Inv c (s.returned c how) := by
  have hstage:=h.stage
  have hlocked:=h.locked
  cases hat : s.stage with
  | running p =>
    rw [hat] at hstage hlocked
    have hfinish (o : Outcome R) : Inv c (s.goto (.finish p true o)) :=
      h.goto hat rfl rfl rfl hstage (by simp [Stage.holdsActor])
    have hsupervise (e : ActorError) : Inv c (s.goto (.supervise p e)) := h.goto hat rfl rfl rfl hstage hlocked
    simp only [Sys.returned,hat]
    split
    · exact hfinish _
    · split
      · exact hfinish _
      · exact hsupervise _
    · split
      · exact hfinish _
      · exact hsupervise _
    · exact hsupervise _
  | start | head | take | lock | ask | inner | enter | supervise | finish | grow | pop | probe | dispatch | context | batch
  | settle | decided | done =>
    simp only [Sys.returned,hat]
    exact h

theorem batched_inv (how : Except String (List (Outcome R))) : Inv c (s.batched c how) := by
  have hstage:=h.stage
  cases hat : s.stage with
  | batch group lookahead =>
    rw [hat] at hstage
    obtain ⟨hnonempty,-,hroom⟩:=hstage
    simp only [Sys.batched,hat]
    cases how with
    | ok | error => exact conclude_inv h hat rfl rfl rfl hroom hnonempty
  | start | head | take | lock | ask | inner | enter | running | supervise | finish | grow | pop | probe | dispatch | context
  | settle | decided | done =>
    simp only [Sys.batched,hat]
    exact h

theorem decide_inv (resume : Bool) : Inv c (s.decide resume) := by
  have hstage:=h.stage
  unfold Sys.decide
  split
  · rename_i p e hat
    rw [hat] at hstage
    have hsame : (s.superviseMessageError resume).stage=s.stage ∧ (s.superviseMessageError resume).processed=s.processed := by
      cases resume <;> simp [Sys.superviseMessageError,Sys.recordFailure]
    exact (h.superviseMessageError resume).goto (hsame.1.trans hat) rfl rfl rfl
      (by rw [hsame.2]; exact hstage) (by simp [Stage.holdsActor])
  · rename_i p e rest lookahead fatal hat
    rw [hat] at hstage
    cases resume with
    | true => exact h.judges hat s.status s.failed
    | false => exact h.judges hat .failed true
  · exact h

end

theorem new_inv (mailbox : List (MailboxItem P T)) (closed : Bool) (status : ProcessorStatus) (alive failed : Bool) :
    Inv c (Sys.new mailbox closed status alive failed : Sys P T R) :=
  ⟨rfl,rfl,rfl,by simp [Sys.new],by simp [Sys.new],rfl,rfl,by simp [Sys.new,Stage.holdsActor]⟩

theorem handed_pendings {t : Turn P T R} (h : t.handed=some group) : group=t.pendings := by
  cases t with
  | refused p o => simp [Turn.handed] at h
  | single p o => simpa [Turn.handed,Turn.pendings,eq_comm] using h
  | batch g v => simpa [Turn.handed,Turn.pendings,eq_comm] using (Option.ite_none_right_eq_some.mp h).2

theorem handed_sublist (turns : List (Turn P T R)) : Sublist (turns.filterMap Turn.handed) (turns.map Turn.pendings) := by
  induction turns with
  | nil => simp
  | cons t turns ih =>
    cases hhanded : t.handed with
    | none => simpa [hhanded] using ih.cons t.pendings
    | some group => simpa [hhanded,handed_pendings hhanded] using ih

theorem given_segments (stage : Stage P T R) : ∃ parts, parts.flatten=stage.held ∧ Sublist stage.given parts := by
  cases stage with
  | running p | supervise p e => exact ⟨[[p]],by simp [Stage.held],by simp [Stage.given]⟩
  | finish p called outcome => exact ⟨[[p]],by simp [Stage.held],by cases called <;> simp [Stage.given]⟩
  | batch group lookahead => exact ⟨[group,lookahead.toList],by simp [Stage.held],by simp [Stage.given]⟩
  | start | head | take | lock | ask | inner | enter | grow | pop | probe | dispatch | context | settle | decided | done =>
    exact ⟨[_],List.flatten_singleton,by simp [Stage.given]⟩

theorem Inv.segments (h : Inv c s) : ∃ parts : List (List (Pending P T)),
    parts.flatten=s.popped.map Pending.fromItem ∧ Sublist s.handled parts := by
  obtain ⟨parts,hflat,hsub⟩:=given_segments s.stage
  refine ⟨s.turns.map Turn.pendings++parts,?_,?_⟩
  · rw [List.flatten_append,hflat,h.popped,List.flatMap_def]
  · rw [h.handled]
    exact (handed_sublist s.turns).append hsub

theorem flatMap_answers_fst (c : Config) (turns : List (Turn P T R)) :
    (turns.flatMap (Turn.answers c)).map Prod.fst=turns.flatMap Turn.pendings := by
  simp [List.map_flatMap]

theorem Inv.returns (h : Inv c s) (hdone : s.stage=.done result) :
    s.settled.map Prod.fst=s.popped.map Pending.fromItem ∧ s.settled=s.turns.flatMap (Turn.answers c) := by
  have hsettled : s.settled=s.turns.flatMap (Turn.answers c) := by simpa [hdone,Stage.owed] using h.settled
  have hpopped : s.popped.map Pending.fromItem=s.turns.flatMap Turn.pendings := by simpa [hdone,Stage.held] using h.popped
  exact ⟨by rw [hsettled,flatMap_answers_fst,hpopped],hsettled⟩

theorem replies_channels (hpopped : s.settled.map Prod.fst=s.popped.map Pending.fromItem) :
    s.replies.map Prod.fst=s.popped.filterMap fun item => (Pending.fromItem item).reply := by
  have hboth : s.replies.map Prod.fst=(s.settled.map Prod.fst).filterMap Pending.reply := by
    simp [Sys.replies,List.map_filterMap,List.filterMap_map,Function.comp_def]
  rw [hboth,hpopped,List.filterMap_map]
  rfl

theorem Inv.positions (h : Inv c s) (hdone : s.stage=.done result) {outcomes : List (Outcome R)} (hturn : Turn.batch group (.returned outcomes)∈s.turns)
    (hlength : outcomes.length=group.length) : List.IsInfix (group.zip outcomes) s.settled := by
  obtain ⟨before,after,hsplit⟩:=List.append_of_mem hturn
  have hanswers : (Turn.batch group (.returned outcomes)).answers c=group.zip outcomes := by
    rw [Turn.answers,← hlength,Verdict.outcomes_returned]
  refine ⟨before.flatMap (Turn.answers c),after.flatMap (Turn.answers c),?_⟩
  rw [(h.returns hdone).2,hsplit,List.flatMap_append,List.flatMap_cons,hanswers,append_assoc]

variable [DecidableEq T]

theorem proceed_inv (h : Inv c s) : Inv c (s.proceed c) := by
  have hstage:=h.stage
  have hlocked:=h.locked
  cases hat : s.stage with
  | start =>
    rw [hat] at hstage
    simp only [Sys.proceed,hat]
    by_cases hrunning : s.status=.running
    · rw [if_pos hrunning]
      exact h.goto hat rfl rfl rfl ⟨by rw [hstage]; omega,by simp⟩
        (by simp [Stage.holdsActor])
    · rw [if_neg hrunning]
      exact h.goto hat rfl rfl rfl trivial (by simp [Stage.holdsActor])
  | head lookahead =>
    rw [hat] at hstage
    simp only [Sys.proceed,hat]
    by_cases hbudget : s.processed<c.maxMessages
    · rw [if_pos hbudget]
      by_cases hclosing : s.status ≠ .running ∨ s.closed=true
      · rw [if_pos hclosing]
        cases lookahead with
        | none | some => exact h.refusesAhead hat rfl rfl rfl hstage.1
      · rw [if_neg hclosing]
        exact h.goto hat rfl rfl rfl hbudget (by simp [Stage.holdsActor])
    · rw [if_neg hbudget]
      -- a look-ahead message would have left room for itself
      have hnone : lookahead=none := by
        cases lookahead with
        | none => rfl
        | some p => exact absurd (hstage.2 rfl) hbudget
      subst hnone
      exact h.goto hat rfl rfl rfl hstage.1 (by simp [Stage.holdsActor])
  | take lookahead =>
    rw [hat] at hstage
    cases lookahead with
    | some p =>
      simp only [Sys.proceed,hat]
      exact h.goto hat rfl rfl rfl hstage (by simp [Stage.holdsActor])
    | none =>
      simp only [Sys.proceed,hat]
      cases hmailbox : s.mailbox with
      | nil =>
        exact h.goto hat rfl rfl rfl (Nat.le_of_lt hstage) (by simp [Stage.holdsActor])
      | cons item items =>
        exact h.pops hmailbox hat rfl rfl rfl hstage (by simp [Stage.holdsActor])
  | lock p =>
    rw [hat] at hstage
    simp only [Sys.proceed,hat]
    by_cases hactor : s.actor=true
    · rw [if_pos hactor]
      exact h.goto hat rfl rfl rfl hstage fun _ => hactor
    · rw [if_neg hactor]
      exact h.refuses hat rfl rfl rfl (Nat.le_of_lt hstage)
  | inner p =>
    rw [hat] at hstage
    simp only [Sys.proceed,hat]
    by_cases hrunning : s.status=.running
    · rw [if_pos hrunning]
      exact h.goto hat rfl rfl rfl hstage (by simp [Stage.holdsActor])
    · rw [if_neg hrunning]
      exact h.goto hat rfl rfl rfl hstage (by simp [Stage.holdsActor])
  | enter p =>
    rw [hat] at hstage
    simp only [Sys.proceed,hat]
    by_cases hslots : (s.actor&&s.context)=true
    · rw [if_pos hslots]
      have hactor : s.actor=true := by simpa [h.slots] using hslots
      have hlimit : 1≤c.limit := by unfold Config.limit; split <;> omega
      exact h.hands ⟨by simp,by simpa using hlimit,p.traceContext,by simp [Shares]⟩ hat rfl rfl rfl hstage fun _ => hactor
    · rw [if_neg hslots]
      exact h.goto hat rfl rfl rfl hstage (by simp [Stage.holdsActor])
  | finish p called outcome =>
    simp only [Sys.proceed,hat]
    exact answer_inv h hat
  | grow parent group =>
    rw [hat] at hstage hlocked
    obtain ⟨hnonempty,hshares,hroom⟩:=hstage
    simp only [Sys.proceed,hat]
    by_cases hmore : group.length<s.groupLimit c ∧ s.status=.running ∧ s.closed=false
    · rw [if_pos hmore]
      exact h.goto hat rfl rfl rfl ⟨hnonempty,hshares,hmore.1⟩ hlocked
    · rw [if_neg hmore]
      exact h.goto hat (by simp [Stage.held]) rfl rfl
        ⟨hnonempty,⟨parent,hshares⟩,hroom,by simp⟩ hlocked
  | pop parent group =>
    rw [hat] at hstage hlocked
    obtain ⟨hnonempty,hshares,hroom⟩:=hstage
    simp only [Sys.proceed,hat]
    cases hmailbox : s.mailbox with
    | nil =>
      exact h.goto hat (by simp [Stage.held]) rfl rfl
        ⟨hnonempty,⟨parent,hshares⟩,Nat.le_of_lt hroom,by simp⟩ hlocked
    | cons item items =>
      by_cases hsame : (Pending.fromItem item).traceContext=parent
      · simp only [hsame,if_true]
        have hboth : Shares parent (group++[Pending.fromItem item]) := by
          simpa [Shares,or_imp,forall_and,hsame] using hshares
        exact h.pops hmailbox hat rfl rfl rfl ⟨hnonempty,hboth,hroom⟩ hlocked
      · simp only [hsame,if_false]
        exact h.pops hmailbox hat rfl rfl rfl
          ⟨hnonempty,⟨parent,hshares⟩,Nat.le_of_lt hroom,fun _ => hroom⟩ hlocked
  | dispatch group lookahead fatal =>
    rw [hat] at hstage hlocked
    obtain ⟨hnonempty,hshares,hroom⟩:=hstage
    cases fatal with
    | some reason =>
      simp only [Sys.proceed,hat]
      exact conclude_inv h hat rfl rfl rfl hroom hnonempty
    | none =>
      simp only [Sys.proceed,hat]
      by_cases hrunning : s.status=.running
      · rw [if_pos hrunning]
        exact h.goto hat rfl rfl rfl ⟨hnonempty,hshares,hroom⟩ hlocked
      · rw [if_neg hrunning]
        exact conclude_inv h hat rfl rfl rfl hroom hnonempty
  | context group lookahead =>
    rw [hat] at hstage hlocked
    obtain ⟨hnonempty,hshares,hroom⟩:=hstage
    -- the actor lock is held, so the context is there with the actor
    have hcontext : s.context=true := by rw [h.slots]; exact hlocked rfl
    simp only [Sys.proceed,hat,if_pos hcontext]
    have hlimit : group.length≤c.limit := Nat.le_trans hroom.1 (Nat.min_le_left ..)
    exact h.hands ⟨hnonempty,hlimit,hshares⟩ hat rfl rfl rfl
      ⟨hnonempty,hshares,hroom⟩ hlocked
  | settle rest lookahead invalid decided fatal =>
    simp only [Sys.proceed,hat]
    exact send_inv h hat
  | decided p e rest lookahead invalid =>
    rw [hat] at hstage
    simp only [Sys.proceed,hat]
    exact h.sends hat rfl rfl rfl hstage rfl
  | ask | running | supervise | probe | batch | done =>
    simp only [Sys.proceed,hat]
    exact h

theorem step_inv (h : Inv c s) (a : Act P T R) : Inv c (s.step c a) := by
  cases a with
  | proceed => exact proceed_inv h
  | predicate answer => exact predicate_inv h answer
  | returned how => exact returned_inv h how
  | batch how => exact batched_inv h how
  | decide resume => exact decide_inv h resume
  | arrive item =>
    have horder:=h.order.append (List.Sublist.refl [item])
    rw [append_assoc] at horder
    exact ⟨h.popped,h.settled,h.handled,horder,h.fits,h.stage,h.slots,h.locked⟩
  | evict =>
    have horder:=((List.Sublist.refl s.popped).append (List.tail_sublist s.mailbox)).trans h.order
    exact ⟨h.popped,h.settled,h.handled,horder,h.fits,h.stage,h.slots,h.locked⟩
  | close => exact h.apart s.status true s.failed s.errors
  | status status => exact h.apart status s.closed s.failed s.errors
  | fail => exact h.recordFailure
  | retire =>
    cases hholds : s.stage.holdsActor with
    | true => simpa only [Sys.step,hholds,if_true] using h
    | false =>
      simp only [Sys.step,hholds]
      exact ⟨h.popped,h.settled,h.handled,h.order,h.fits,h.stage,rfl,by simp [hholds]⟩

theorem run_inv (h : Inv c s) (acts : List (Act P T R)) : Inv c (s.run c acts) := by
  induction acts generalizing s with
  | nil => exact h
  | cons a acts ih => exact ih (step_inv h a)

end Parrot.Processor
