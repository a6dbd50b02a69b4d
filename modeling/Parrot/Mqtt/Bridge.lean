import Parrot.Inbox.Store

/-! # Draining the MQTT bridge (`mqtt/bridge.rs:187-198,362-576`)

The worker and the network task of `run` over one session: nothing fails, the connection and the
receiver stay and `close` is not called. An arm of a select may be taken while an earlier one has
just become ready. Decoding, the byte permits and the status are left out. -/

namespace Parrot.Mqtt
open Parrot.Inbox Parrot.Wire

inductive Work where
  | tell (frame : Frame)
  | durable (envelope : DurableEnvelope) (cid : UInt64)

/-- `pkid` is the packet of the publication. -/
structure Job where
  pkid : ℕ
  work : Work

/-- A job is known by the number of its admission. -/
inductive Stage where
  | selecting
  | operating (i : ℕ)
  | waiting (i seq : ℕ)
  | sending (i : ℕ)
  | draining (last : ℕ)
  | closing
  | closed
  deriving DecidableEq

structure Pending where
  job : ℕ
  outgoing : Option ℕ
  brokerAcked : Bool
  deriving DecidableEq

/-- `fence` is the number of admissions when `drain` was called first, and the channel holds the
admissions from `received` on. `outbox` has the submissions by their producer sequences. -/
structure Bridge where
  capacity : ℕ
  outbox : List ℕ
  acked : ℕ
  fence : Option ℕ := none
  admitted : List Job := []
  received : ℕ := 0
  worker : Stage := .selecting
  sent : List ℕ := []
  results : Option ℕ := none
  jobsOpen : Bool := true
  pending : Option Pending := none
  resultsDone : Bool := false
  returned : Bool := false
  published : List ℕ := []
  acknowledged : List ℕ := []

/-- The caller of `drain`, the outbox, the worker, and the network with the events it polls. -/
inductive Move where
  | drain
  | deliver
  | receive
  | drained
  | hungUp
  | operate
  | wake
  | send
  | close
  | accept (job : Job)
  | stopJobs
  | complete
  | noResults
  | outgoingPublish (id : ℕ)
  | pubAck (id : ℕ)
  | outgoingPubAck (id : ℕ)
  | leave

/-- `enqueue_idempotent`: the records and the sequence of the one asked for. -/
def enqueue (outbox : List ℕ) (key : ℕ) : List ℕ × ℕ :=
  if key∈outbox then (outbox,outbox.idxOf key+1) else (outbox++[key],outbox.length+1)

namespace Bridge

def opened (capacity : ℕ) (outbox : List ℕ) (acked : ℕ) : Bridge := {capacity, outbox, acked}

variable (b : Bridge)

def work (i : ℕ) : Option Work := (b.admitted[i]?).map Job.work

def moveWorker : Move → Option Bridge
  | .receive => if b.worker=.selecting ∧ b.received<b.admitted.length then
      some {b with worker:=.operating b.received,received:=b.received+1} else none
  | .drained => if b.worker=.selecting ∧ b.fence.isSome=true then
      some {b with worker:=if b.outbox.length=0 then .closing else .draining b.outbox.length} else none
  | .hungUp => if b.worker=.selecting ∧ b.received=b.admitted.length ∧ b.jobsOpen=false then
      some {b with worker:=.closing} else none
  | .operate =>
    match b.worker with
    | .operating i =>
      match b.work i with
      | some (.tell _) => some {b with sent:=b.sent++[i],worker:=.sending i}
      | some (.durable e _) => some {b with
          outbox := (enqueue b.outbox e.sequence).1
          worker := .waiting i (enqueue b.outbox e.sequence).2}
      | none => none
    | _ => none
  | .wake =>
    match b.worker with
    | .waiting i seq => if seq≤b.acked then some {b with worker:=.sending i} else none
    | .draining last => if last≤b.acked then some {b with worker:=.closing} else none
    | _ => none
  | .send =>
    match b.worker with
    | .sending i => if b.results=none then some {b with results:=some i,worker:=.selecting} else none
    | _ => none
  | .close => if b.worker=.closing then some {b with worker:=.closed} else none
  | _ => none

def moveNetwork : Move → Option Bridge
  | .accept job => if b.jobsOpen=true ∧ b.admitted.length-b.received<b.capacity then
      some {b with admitted:=b.admitted++[job]} else none
  | .stopJobs => if b.jobsOpen=true ∧ b.fence.isSome=true then some {b with jobsOpen:=false} else none
  | .complete =>
    match b.results, b.pending with
    | some i, none =>
      match b.work i with
      | some (.durable _ _) => some {b with results:=none,pending:=some ⟨i,none,false⟩}
      | _ => some {b with results:=none}
    | _, _ => none
  | .noResults => if b.results=none ∧ b.pending=none ∧ b.worker=.closed then some {b with resultsDone:=true} else none
  | .outgoingPublish id =>
    match b.pending with
    | some p => some {b with pending := some {p with outgoing:=some id},published := b.published++[p.job]}
    | none => none
  | .pubAck id =>
    match b.pending with
    | some p => if p.outgoing=some id ∧ p.brokerAcked=false then some {b with pending := some {p with brokerAcked:=true}} else none
    | none => none
  | .outgoingPubAck id =>
    match b.pending with
    | some p =>
      if p.brokerAcked=true ∧ (b.admitted[p.job]?).map Job.pkid=some id then
        some {b with pending:=none,acknowledged:=b.acknowledged++[p.job]} else none
    | none => none
  | .leave => if b.resultsDone=true ∧ b.pending=none then some {b with returned:=true} else none
  | _ => none

def step : Move → Option Bridge
  | .drain => some {b with fence:=some (b.fence.getD b.admitted.length)}
  | .deliver => if b.acked<b.outbox.length then some {b with acked:=b.acked+1} else none
  | m => if b.returned then b.moveWorker m else (b.moveWorker m).or (b.moveNetwork m)

def run (b : Bridge) (moves : List Move) : Option Bridge := moves.foldlM step b

/-- What a job asks for before its publication is acknowledged. -/
def Handled (i : ℕ) : Prop :=
  match b.work i with
  | some (.tell _) => i∈b.sent
  | some (.durable e _) => ∃ k, b.outbox[k]? = some e.sequence ∧ k<b.acked
  | none => False

def Completed (i : ℕ) : Prop :=
  b.Handled i ∧ ((∃ e cid, b.work i=some (.durable e cid)) → i∈b.published ∧ i∈b.acknowledged)

/-- `drain` returns `Ok`. -/
def Drained : Prop := b.fence.isSome=true ∧ b.worker=.closed ∧ b.returned=true

end Bridge

@[simp] def Stage.job : Stage → Option ℕ
  | .operating i | .waiting i _ | .sending i => some i
  | _ => none

/-- The loop of the worker has ended. -/
def Stage.left : Stage → Bool
  | .draining _ | .closing | .closed => true
  | _ => false

namespace Bridge
variable {b b' : Bridge} {m : Move} {moves : List Move} {i : ℕ}

/-- What no step takes back. -/
structure Grows (b b' : Bridge) : Prop where
  admitted : b.admitted<+:b'.admitted
  sent : b.sent⊆b'.sent
  outbox : b.outbox<+:b'.outbox
  acked : b.acked≤b'.acked
  published : b.published⊆b'.published
  acknowledged : b.acknowledged⊆b'.acknowledged

theorem Grows.work (h : Grows b b') (hi : i<b.admitted.length) : b'.work i=b.work i := by
  obtain ⟨more,hmore⟩:=h.admitted
  rw [Bridge.work,Bridge.work,← hmore,List.getElem?_append_left hi]

theorem Grows.handled (h : Grows b b') (hi : i<b.admitted.length) (hh : b.Handled i) : b'.Handled i := by
  unfold Handled at hh ⊢
  rw [h.work hi]
  split at hh
  · exact h.sent hh
  · obtain ⟨k,hk,hlt⟩:=hh
    obtain ⟨more,hmore⟩:=h.outbox
    refine ⟨k,?_,hlt.trans_le h.acked⟩
    rw [← hmore,List.getElem?_append_left (List.getElem?_eq_some_iff.mp hk).1,hk]
  · exact hh

theorem Grows.completed (h : Grows b b') (hi : i<b.admitted.length) (hh : b.Completed i) : b'.Completed i := by
  refine ⟨h.handled hi hh.1,fun hdurable => ?_⟩
  rw [h.work hi] at hdurable
  exact ⟨h.published (hh.2 hdurable).1,h.acknowledged (hh.2 hdurable).2⟩

structure Inv (b : Bridge) : Prop where
  received : b.received≤b.admitted.length
  busy : ∀ i, b.worker.job=some i → i<b.received
  sending : ∀ i, b.worker=.sending i → b.Handled i
  waiting : ∀ i seq, b.worker=.waiting i seq → ∃ e cid k, b.work i=some (.durable e cid) ∧ seq=k+1 ∧ b.outbox[k]? = some e.sequence
  result : ∀ i, b.results=some i → i<b.received ∧ b.Handled i
  pending : ∀ p, b.pending=some p → p.job<b.received ∧ b.Handled p.job ∧
    (p.brokerAcked=true → p.outgoing.isSome=true) ∧ (p.outgoing.isSome=true → p.job∈b.published)
  cover : ∀ i<b.received, b.Completed i ∨ b.worker.job=some i ∨ b.results=some i ∨ ∃ p, b.pending=some p ∧ p.job=i
  done : b.resultsDone=true → b.worker=.closed ∧ b.results=none
  returned : b.returned=true → b.resultsDone=true ∧ b.pending=none

theorem enqueue_grows (outbox : List ℕ) (key : ℕ) : outbox<+:(enqueue outbox key).1 ∧
    ∃ k, (enqueue outbox key).2=k+1 ∧ (enqueue outbox key).1[k]? = some key := by
  unfold enqueue
  split
  · rename_i hmem
    exact ⟨List.prefix_rfl,_,rfl,by rw [List.getElem?_eq_getElem (List.idxOf_lt_length_of_mem hmem),List.getElem_idxOf]⟩
  · exact ⟨List.prefix_append ..,_,rfl,by simp⟩

theorem step_grows (h : b.step m=some b') : b.Grows b' := by
  cases m with
  | operate =>
    simp only [step,moveWorker,moveNetwork,Option.or_none,ite_self] at h
    split at h
    · split at h
      · cases h
        exact ⟨List.prefix_rfl,List.subset_append_left ..,List.prefix_rfl,le_rfl,List.Subset.refl _,List.Subset.refl _⟩
      · rename_i e cid _
        cases h
        exact ⟨List.prefix_rfl,List.Subset.refl _,(enqueue_grows ..).1,le_rfl,List.Subset.refl _,List.Subset.refl _⟩
      · contradiction
    · contradiction
  | _ =>
    simp only [step,moveWorker,moveNetwork,Option.or_none,Option.none_or,ite_self] at h
    grind [Grows]

theorem handled_tell {frame : Frame} (h : b.work i=some (.tell frame)) : b.Handled i ↔ i∈b.sent := by
  unfold Handled
  rw [h]

theorem handled_durable {e : DurableEnvelope} {cid : UInt64} (h : b.work i=some (.durable e cid)) :
    b.Handled i ↔ ∃ k, b.outbox[k]? = some e.sequence ∧ k<b.acked := by
  unfold Handled
  rw [h]

theorem Inv.keeps (hi : Inv b) (hgrows : b.Grows b') (hlt : i<b.received) :
    (b.Handled i → b'.Handled i) ∧ (b.Completed i → b'.Completed i) ∧ b'.work i=b.work i :=
  have hlen:=hlt.trans_le hi.received
  ⟨hgrows.handled hlen,hgrows.completed hlen,hgrows.work hlen⟩

theorem operate_inv (hi : Inv b) (h : b.step .operate=some b') : Inv b' := by
  have hkeeps:=fun i => hi.keeps (i := i) (step_grows h)
  obtain ⟨hreceived,hbusy,hsending,hwaiting,hresult,hpending,hcover,hdone,hreturned⟩:=hi
  simp only [step,moveWorker,moveNetwork,Option.or_none,ite_self] at h
  split at h
  · rename_i i hworker
    have hlt:=hbusy i (by simp [hworker])
    obtain ⟨-,-,hsame⟩:=hkeeps i hlt
    split at h
    · rename_i frame hwork
      have hsent : b'.Handled i ↔ i∈b'.sent := handled_tell (hsame.trans hwork)
      constructor <;> grind [Stage.job]
    · rename_i e cid hwork
      obtain ⟨k,hseq,hget⟩:=(enqueue_grows b.outbox e.sequence).2
      constructor <;> grind [Stage.job]
    · contradiction
  · contradiction

theorem wake_inv (hi : Inv b) (h : b.step .wake=some b') : Inv b' := by
  have hkeeps:=fun i => hi.keeps (i := i) (step_grows h)
  obtain ⟨hreceived,hbusy,hsending,hwaiting,hresult,hpending,hcover,hdone,hreturned⟩:=hi
  simp only [step,moveWorker,moveNetwork,Option.or_none,ite_self] at h
  split at h
  · rename_i i seq hworker
    obtain ⟨e,cid,k,hwork,rfl,hget⟩:=hwaiting i seq hworker
    have hstored:=handled_durable hwork
    constructor <;> grind [Stage.job]
  · constructor <;> grind [Stage.job]
  · contradiction

theorem complete_inv (hi : Inv b) (h : b.step .complete=some b') : Inv b' := by
  have hkeeps:=fun i => hi.keeps (i := i) (step_grows h)
  obtain ⟨hreceived,hbusy,hsending,hwaiting,hresult,hpending,hcover,hdone,hreturned⟩:=hi
  simp only [step,moveWorker,moveNetwork,Option.none_or] at h
  constructor <;> grind [Stage.job,Completed]

theorem outgoingPubAck_inv {id : ℕ} (hi : Inv b) (h : b.step (.outgoingPubAck id)=some b') : Inv b' := by
  have hkeeps:=fun i => hi.keeps (i := i) (step_grows h)
  obtain ⟨hreceived,hbusy,hsending,hwaiting,hresult,hpending,hcover,hdone,hreturned⟩:=hi
  simp only [step,moveWorker,moveNetwork,Option.none_or] at h
  constructor <;> grind [Stage.job,Completed]

/-- The moves after which every job is where it was, or one place on. -/
theorem place_inv (hi : Inv b) (h : b.step m=some b') (hm : m∈[.drain,.deliver,.receive,.drained,.hungUp,.send,.close]) : Inv b' := by
  have hkeeps:=fun i => hi.keeps (i := i) (step_grows h)
  obtain ⟨hreceived,hbusy,hsending,hwaiting,hresult,hpending,hcover,hdone,hreturned⟩:=hi
  simp only [List.mem_cons,List.not_mem_nil,or_false] at hm
  rcases hm with rfl | rfl | rfl | rfl | rfl | rfl | rfl <;>
    simp only [step,moveWorker,moveNetwork,Option.or_none,ite_self] at h <;> constructor <;> grind -linarith [Stage.job]

theorem step_inv (hi : Inv b) (h : b.step m=some b') : Inv b' := by
  cases m with
  | operate => exact operate_inv hi h
  | wake => exact wake_inv hi h
  | complete => exact complete_inv hi h
  | outgoingPubAck id => exact outgoingPubAck_inv hi h
  | drain | deliver | receive | drained | hungUp | send | close => exact place_inv hi h (by simp)
  | _ =>
    have hkeeps:=fun i => hi.keeps (i := i) (step_grows h)
    obtain ⟨hreceived,hbusy,hsending,hwaiting,hresult,hpending,hcover,hdone,hreturned⟩:=hi
    simp only [step,moveWorker,moveNetwork,Option.none_or] at h
    constructor <;> grind -linarith [Stage.job]

/-- The jobs on their way, behind those that are acknowledged. -/
def line (b : Bridge) : List ℕ :=
  b.acknowledged++((b.pending.map Pending.job).toList++(b.results.toList++b.worker.job.toList))

structure InLine (b : Bridge) : Prop where
  order : b.line.Pairwise (·<·)
  received : ∀ i∈b.line, i<b.received

theorem step_line (h : b.step m=some b') : b'.line=b.line++[b.received] ∧ b'.received=b.received+1 ∨
    b'.line.Sublist b.line ∧ b'.received=b.received := by
  cases m with
  | receive =>
    simp only [step,moveWorker,moveNetwork,Option.or_none,ite_self] at h
    obtain ⟨⟨hselecting,-⟩,heq⟩:=Option.ite_none_right_eq_some.mp h
    left
    cases heq
    simp [line,hselecting]
  | complete =>
    right
    simp only [step,moveWorker,moveNetwork,Option.none_or] at h
    split at h
    · contradiction
    · split at h
      · rename_i hresults hpending
        split at h <;> cases h <;> simp [line,hresults,hpending]
      · contradiction
  | _ =>
    right
    simp only [step,moveWorker,moveNetwork,Option.or_none,Option.none_or,ite_self] at h
    have hline : b'.line=b.line ∧ b'.received=b.received := by grind [line,Stage.job]
    exact ⟨hline.1 ▸ List.Sublist.refl _,hline.2⟩

theorem step_inLine (hl : InLine b) (h : b.step m=some b') : InLine b' := by
  rcases step_line h with ⟨hline,hreceived⟩ | ⟨hline,hreceived⟩
  · constructor
    · rw [hline,List.pairwise_append]
      exact ⟨hl.order,List.pairwise_singleton ..,fun i hi j hj => List.mem_singleton.mp hj ▸ hl.received i hi⟩
    · rw [hline,hreceived]
      intro i hi
      rcases List.mem_append.mp hi with hi | hi
      · exact (hl.received i hi).trans (Nat.lt_succ_self _)
      · exact List.mem_singleton.mp hi ▸ Nat.lt_succ_self _
  · exact ⟨hl.order.sublist hline,fun i hi => hreceived ▸ hl.received i (hline.subset hi)⟩

theorem run_acks (hi : Inv b) (hl : InLine b) (h : b.run moves=some b') : Inv b' ∧ InLine b' := by
  induction moves generalizing b with
  | nil =>
    cases h
    exact ⟨hi,hl⟩
  | cons m moves ih =>
    obtain ⟨b1,h1,hrest⟩:=Option.bind_eq_some_iff.mp h
    exact ih (step_inv hi h1) (step_inLine hl h1) hrest

theorem opened_inv (capacity : ℕ) (outbox : List ℕ) (acked : ℕ) : Inv (.opened capacity outbox acked) := by
  constructor <;> simp [opened]

theorem received_completed (hi : Inv b) (hdrained : b.Drained) (hlt : i<b.received) : b.Completed i := by
  obtain ⟨-,hclosed,hreturned⟩:=hdrained
  obtain ⟨hdone,hpending⟩:=hi.returned hreturned
  rcases hi.cover i hlt with h | h | h | ⟨p,hp,-⟩
  · exact h
  · simp [hclosed] at h
  · simp [(hi.done hdone).2] at h
  · simp [hpending] at hp

/-- Where the worker takes the drain arm, no job from before the fence is in the channel. -/
def Spared (b : Bridge) (m : Move) : Prop := m=.drained → ∀ n, b.fence=some n → n≤b.received

structure Fenced (b : Bridge) : Prop where
  shut : b.jobsOpen=false → b.fence.isSome=true
  behind : ∀ n, b.fence=some n → n≤b.admitted.length
  left : b.worker.left=true → b.fence.isSome=true ∧ ∀ n, b.fence=some n → n≤b.received

theorem step_fenced (hf : Fenced b) (hi : Inv b) (hspared : b.Spared m) (h : b.step m=some b') : Fenced b' := by
  obtain ⟨hshut,hbehind,hleft⟩:=hf
  have hreceived:=hi.received
  cases m with
  | drain =>
    cases h
    refine ⟨fun _ => rfl,?_,?_⟩ <;> cases hfence : b.fence <;> simp_all
  | drained =>
    simp only [step,moveWorker,moveNetwork,Option.or_none,ite_self] at h
    have:=hspared rfl
    constructor <;> grind
  | _ =>
    simp only [step,moveWorker,moveNetwork,Option.or_none,Option.none_or,ite_self] at h
    constructor <;> grind -linarith [Stage.left]

/-- The states of the runs in which the worker leaves nothing behind. -/
inductive Reaches (start : Bridge) : Bridge → Prop where
  | refl : Reaches start start
  | step {x m y} : Reaches start x → x.Spared m → x.step m=some y → Reaches start y

theorem reaches_inv {start : Bridge} (h : Reaches start b) (hi : Inv start) (hf : Fenced start) : Inv b ∧ Fenced b := by
  induction h with
  | refl => exact ⟨hi,hf⟩
  | step _ hspared hstep ih => exact ⟨step_inv ih.1 hstep,step_fenced ih.2 ih.1 hspared hstep⟩

end Bridge

/-- When `drain` has returned, the jobs from before its fence are completed, unless the worker
took the drain arm while one of them was in the channel. -/
theorem drain_completes (capacity : ℕ) (outbox : List ℕ) (acked : ℕ) (b : Bridge)
    (hrun : Bridge.Reaches (.opened capacity outbox acked) b) (hdrained : b.Drained) :
    ∀ n, b.fence=some n → ∀ i<n, b.Completed i := by
  have hstart : Bridge.Inv (.opened capacity outbox acked) := by constructor <;> simp [Bridge.opened]
  have hfresh : Bridge.Fenced (.opened capacity outbox acked) := by constructor <;> simp [Bridge.opened,Stage.left]
  obtain ⟨hinv,hfenced⟩:=Bridge.reaches_inv hrun hstart hfresh
  intro n hn i hlt
  have hle:=(hfenced.left (by rw [hdrained.2.1]; rfl)).2 n hn
  exact Bridge.received_completed hinv hdrained (hlt.trans_le hle)

def tellJob : Job := ⟨0,.tell ⟨⟨0,1,0,0,0,0,0,0⟩,"/user/a","key",[]⟩⟩

theorem drain_completes_told : ∃ b, Bridge.Reaches (.opened 1 [] 0) b ∧ ∀ n, b.fence=some n → ∀ i<n, b.Completed i := by
  have hno {b : Bridge} {m : Move} (hm : m≠.drained) : b.Spared m := fun h => absurd h hm
  have hreach : Bridge.Reaches (.opened 1 [] 0) _ :=
    .step (m := .leave) (.step (m := .noResults) (.step (m := .close) (.step (m := .drained) (.step (m := .stopJobs)
      (.step (m := .drain) (.step (m := .complete) (.step (m := .send) (.step (m := .operate) (.step (m := .receive)
        (.step (m := .accept tellJob) .refl (hno (by simp)) rfl) (hno (by simp)) rfl) (hno (by simp)) rfl) (hno (by simp)) rfl)
          (hno (by simp)) rfl) (hno (by simp)) rfl) (hno (by simp)) rfl) (fun _ n hn => by cases hn; decide) rfl)
            (hno (by simp)) rfl) (hno (by simp)) rfl) (hno (by simp)) rfl
  exact ⟨_,hreach,drain_completes 1 [] 0 _ hreach ⟨rfl,rfl,rfl⟩⟩

/- `drain` is called while the first of two tells is sent. -/
def crossed : List Move := [.accept tellJob,.receive,.accept tellJob,.drain,.stopJobs,.operate,.send,.drained,.close,
  .complete,.noResults,.leave]

theorem drain_loses : ∃ b, Bridge.run (.opened 1 [] 0) crossed=some b ∧ b.Drained ∧ b.fence=some 2 ∧ ¬b.Completed 1 :=
  ⟨_,rfl,⟨rfl,rfl,rfl⟩,rfl,fun h => absurd (List.mem_singleton.mp h.1) (by decide)⟩

/-- Publications are acknowledged in the order of their admission, each once and when its job is
completed. -/
theorem acknowledged_in_order (capacity : ℕ) (outbox : List ℕ) (acked : ℕ) (moves : List Move) (b : Bridge)
    (hrun : (Bridge.opened capacity outbox acked).run moves=some b) :
    b.acknowledged.Pairwise (·<·) ∧ ∀ i∈b.acknowledged, i<b.received ∧ b.Completed i := by
  obtain ⟨hi,hl⟩:=Bridge.run_acks (Bridge.opened_inv ..) (by constructor <;> simp [Bridge.line,Bridge.opened]) hrun
  obtain ⟨horder,-,hbehind⟩:=List.pairwise_append.mp hl.order
  refine ⟨horder,fun i hacked => ?_⟩
  have hlt:=hl.received i (List.mem_append_left _ hacked)
  have hfirst:=fun j hj => (hbehind i hacked j hj).ne
  refine ⟨hlt,?_⟩
  rcases hi.cover i hlt with h | h | h | ⟨p,hp,h⟩
  · exact h
  · exact absurd rfl (hfirst i (List.mem_append_right _ (List.mem_append_right _ (Option.mem_toList.mpr h))))
  · exact absurd rfl (hfirst i (by simp [h]))
  · exact absurd h.symm (hfirst p.job (by simp [hp]))

theorem acknowledged_in_order_one : ∃ b : Bridge, b.acknowledged=[0] ∧ ∀ i∈b.acknowledged, i<b.received ∧ b.Completed i :=
  let job : Job := ⟨7,.durable ⟨"","","","/a",3,"key",[]⟩ 9⟩
  ⟨_,rfl,(acknowledged_in_order 1 [] 0 [.accept job,.receive,.operate,.deliver,.wake,.send,.complete,
    .outgoingPublish 2,.pubAck 2,.outgoingPubAck 7] _ rfl).2⟩

end Parrot.Mqtt
