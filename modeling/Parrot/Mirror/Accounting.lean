import Parrot.Lib.Threads
import Parrot.Mirror.Registry
import Mathlib.Data.List.MinMax

/-! # The accounts of a mirror (`mirror.rs:114-797`)

A copy takes a slot and its bytes from its entry, and they come back when its job is done.
Deadlines, trace contexts and the panics that an attempt survived are left out. -/

namespace Parrot.Mirror
open Threads Text

structure WireMirrorStats where
  enqueued : ℕ
  full : ℕ
  copyFailed : ℕ
  oversized : ℕ
  delivered : ℕ
  failed : ℕ
  timedOut : ℕ
  cancelled : ℕ

def WireMirrorStats.settled (n : WireMirrorStats) : ℕ := n.delivered+n.failed+n.timedOut+n.cancelled

inductive Delivery where
  | delivered
  | failed
  | timedOut
  | cancelled
  deriving DecidableEq

def WireMirrorStats.settle (n : WireMirrorStats) : Delivery → WireMirrorStats
  | .delivered => {n with delivered:=n.delivered+1}
  | .failed => {n with failed:=n.failed+1}
  | .timedOut => {n with timedOut:=n.timedOut+1}
  | .cancelled => {n with cancelled:=n.cancelled+1}

/-- A job with the permits for its bytes, which its message fits in. -/
structure Job where
  typeKey : String
  payload : List UInt8
  bytes : ℕ
  fits : typeKey.utf8ByteSize+payload.length≤bytes

def Job.size (source typeKey : String) (payload : List UInt8) : ℕ :=
  source.utf8ByteSize+typeKey.utf8ByteSize+payload.length

def Job.new (source typeKey : String) (payload : List UInt8) : Job :=
  ⟨typeKey,payload,size source typeKey payload,by unfold size; omega⟩

/-- Where the worker of an entry is; `counted` is after the count and before the job goes. -/
inductive Worker where
  | waiting
  | delivering (job : Job)
  | counted (job : Job)
  | retiring
  | notifying
  | gone

namespace Worker

@[simp] def active : Worker → List Job
  | .delivering job | .counted job => [job]
  | _ => []

@[simp] def uncounted : Worker → ℕ
  | .delivering _ => 1
  | _ => 0

@[simp] def «over» : Worker → Bool
  | .retiring | .notifying | .gone => true
  | _ => false

@[simp] def notices : Worker → ℕ
  | .notifying => 1
  | _ => 0

end Worker

/-- `gate` is the admission lock while a thread holds it from one section into the next,
`slots` and `bytes` are the permits left, `permit` is that of the worker. -/
structure Entry where
  policy : WireMirrorPolicy
  options : WireMirrorOptions
  cancelled : Bool
  gate : Bool
  encoders : ℕ
  workerDone : Bool
  permit : Bool
  closed : Bool
  slots : ℕ
  bytes : ℕ
  queue : List Job
  worker : Worker
  stats : WireMirrorStats

namespace Entry

def spawn (policy : WireMirrorPolicy) (options : WireMirrorOptions) : Entry where
  policy := policy
  options := options
  cancelled := false
  gate := false
  encoders := 0
  workerDone := false
  permit := true
  closed := false
  slots := options.capacity
  bytes := options.maxPendingBytes
  queue := []
  worker := .waiting
  stats := ⟨0,0,0,0,0,0,0,0⟩

def tally (x : Entry) (count : WireMirrorStats → WireMirrorStats) : Entry := {x with stats:=count x.stats}

def full (x : Entry) : Entry := x.tally fun n => {n with full:=n.full+1}

def oversized (x : Entry) : Entry := x.tally fun n => {n with oversized:=n.oversized+1}

def admits (x : Entry) (size : ℕ) : Bool := decide (0<x.slots)&&decide (size≤x.bytes)

def reserve (x : Entry) (size : ℕ) : Entry := {x with slots:=x.slots-1,bytes:=x.bytes-size}

def release (x : Entry) (size : ℕ) : Entry := {x with slots:=x.slots+1,bytes:=x.bytes+size}

/-- `try_send`, which has taken the lock: the channel has as many places as there are slots,
and a worker that went has closed it. What is sent is counted in the next section. -/
def send (x : Entry) (job : Job) : Entry × Bool :=
  if x.workerDone ∨ x.options.capacity≤x.queue.length then ({(x.release job.bytes).full with gate:=false},false)
  else ({x with queue:=x.queue++[job]},true)

/-- The permit of the worker is taken once, when worker and encoders are done. -/
def finish (x : Entry) : Entry × Bool :=
  if x.workerDone ∧ x.encoders=0 then ({x with permit:=false},x.permit) else (x,false)

/-- `Worker::drop`, with the job that it has. -/
def tearDown (x : Entry) (active : List Job) : Entry :=
  {x with
    cancelled := true
    workerDone := true
    queue := []
    slots := x.slots+(active++x.queue).length
    bytes := x.bytes+((active++x.queue).map Job.bytes).sum
    stats := {x.stats with cancelled:=x.stats.cancelled+(active++x.queue).length}
    worker := .retiring}

end Entry

/-- A worker is destroyed where its task waits: for a job, or for a delivery. -/
inductive WorkerMove where
  | receive
  | settle (outcome : Delivery)
  | release
  | destroy
  | finish
  | notify

/-- The notice and the permit of the worker that goes after it are one step. -/
def Entry.work (x : Entry) : WorkerMove → Option Entry
  | .receive =>
    match x.worker, x.queue with
    | .waiting, job::rest => some {x with queue:=rest,worker:=.delivering job}
    | _, _ => none
  | .settle outcome =>
    match x.worker with
    | .delivering job =>
      if outcome=.cancelled ∧ x.cancelled=false then none
      else some {x with stats:=x.stats.settle outcome,worker:=.counted job}
    | _ => none
  | .release =>
    match x.worker with
    | .counted job => some {x.release job.bytes with worker:=.waiting}
    | _ => none
  | .destroy =>
    if x.gate then none
    else
      match x.worker with
      | .waiting => some (x.tearDown [])
      | .delivering job => some (x.tearDown [job])
      | _ => none
  | .finish =>
    if x.gate then none
    else
      match x.worker with
      | .retiring => some {x.finish.1 with worker:=if x.finish.2 then .notifying else .gone}
      | _ => none
  | .notify =>
    match x.worker with
    | .notifying => some {x with closed:=true,worker:=.gone}
    | _ => none

/-- Where a thread that offers a copy is, with the permits that it has: while it encodes, those
for `max_message_bytes`. It has the lock while it sends and counts. An `offer_local`, with its
encoder, gives back what it has at last and drops its `Encoding`. -/
inductive OfferStage where
  | encoding (source : String) (bytes : ℕ)
  | encoded (job : Job)
  | sending (job : Job) (encoder : Bool)
  | counting (encoder : Bool)
  | leaving (bytes : ℕ)
  | dropping
  | finishing
  | notifying
  | ended

/-- An `offer`, which has the lock of the registry as well. -/
def OfferStage.registered : OfferStage → Bool
  | .sending _ encoder | .counting encoder => !encoder
  | _ => false

/-- How an encoder ends: with a type key and a payload, or it fails or panics. -/
inductive OfferMove where
  | encoded (result : Option (String × List UInt8))
  | go

def Entry.advance (x : Entry) : OfferMove → OfferStage → Option (Entry × OfferStage)
  | .encoded none, .encoding _ bytes => some (x.tally fun n => {n with copyFailed:=n.copyFailed+1},.leaving bytes)
  | .encoded (some (typeKey,payload)), .encoding source bytes =>
    if bytes<Job.size source typeKey payload then some (x.oversized,.leaving bytes)
    else some ({x with bytes:=x.bytes+(bytes-Job.size source typeKey payload)},.encoded (.new source typeKey payload))
  | .go, .encoded job =>
    if x.gate then none
    else if x.cancelled then some (x,.leaving job.bytes)
    else some ({x with gate:=true},.sending job true)
  | .go, .sending job encoder =>
    some ((x.send job).1,if (x.send job).2 then .counting encoder else if encoder then .dropping else .ended)
  | .go, .counting encoder =>
    some ({x with gate := false,stats := {x.stats with enqueued:=x.stats.enqueued+1}},if encoder then .dropping else .ended)
  | .go, .leaving bytes => some (x.release bytes,.dropping)
  | .go, .dropping => if x.gate then none else some ({x with encoders:=x.encoders-1},.finishing)
  | .go, .finishing => if x.gate then none else some (x.finish.1,if x.finish.2 then .notifying else .ended)
  | .go, .notifying => some ({x with closed:=true},.ended)
  | _, _ => none

structure Offering where
  entry : ℕ
  stage : OfferStage

/-- `busy` is an `offer` that has the lock of the registry from one section into the next;
`fences` are the entries that another holder of that lock has still to cancel. -/
structure Mirrors where
  registry : Registry
  busy : Bool
  fences : List ℕ
  entry : ℕ → Option Entry

def matchesPrefix (source path : String) : Bool :=
  source == "/" || path==source||(stripPrefix source path).any fun rest => startsWith "/" rest

/-- `tearDown` aside, a call is one or more of these. -/
inductive MirrorEvent where
  | register (policy : WireMirrorPolicy) (options : WireMirrorOptions)
  | replaceGroup (previous : Option Group) (policies : List (WireMirrorPolicy × WireMirrorOptions))
  | cancel (group : Group)
  | remove (source : String)
  | close
  | fence
  | closeHandle (entry : ℕ)
  | offer (source typeKey : String) (payload : List UInt8)
  | offerLocal (entry : ℕ) (source : String)
  | work (entry : ℕ) (move : WorkerMove)

namespace Mirrors

def new (node : Option String) : Mirrors := ⟨.new node,false,[],fun _ => none⟩

def locked (s : Mirrors) : Bool := s.busy||!s.fences.isEmpty

def set (s : Mirrors) (e : ℕ) (x : Entry) : Mirrors := {s with entry:=Function.update s.entry e (some x)}

def retires (s : Mirrors) (e : ℕ) (x x' : Entry) : Mirrors :=
  {s.set e x' with registry:=if x'.closed&&!x.closed then s.registry.retire e else s.registry}

/-- New entries come in, and the old ones are to be cancelled before the lock is free. -/
def install (s : Mirrors) (r : Registry) (policies : List (WireMirrorPolicy × WireMirrorOptions)) (fences : List ℕ) : Mirrors where
  registry := r
  busy := false
  fences := fences
  entry := fun e =>
    if e<s.registry.fresh then s.entry e else policies[e-s.registry.fresh]?.map fun p => Entry.spawn p.1 p.2

/-- The longest prefix; two that match one path have two lengths. -/
def select (s : Mirrors) (source : String) : Option ℕ :=
  ((s.registry.entries.entries.filter fun e => matchesPrefix e.1 source).argmax fun e => e.1.utf8ByteSize).map Prod.snd

def offer (s : Mirrors) (e : ℕ) (x : Entry) (source typeKey : String) (payload : List UInt8) : Option (Mirrors × Option Offering) :=
  if x.gate then none
  else if source=x.policy.shadowPath ∨ x.cancelled then some (s,none)
  else if Job.size source typeKey payload>x.options.maxMessageBytes then some (s.set e x.oversized,none)
  else if x.admits (Job.size source typeKey payload) then
    some ({s.set e {x.reserve (Job.size source typeKey payload) with gate:=true} with busy := true},
      some ⟨e,.sending (.new source typeKey payload) false⟩)
  else some (s.set e x.full,none)

def offerLocal (s : Mirrors) (e : ℕ) (x : Entry) (source : String) : Option (Mirrors × Option Offering) :=
  if !canonical source||!matchesPrefix x.policy.sourcePath source||source==x.policy.shadowPath then some (s,none)
  else if x.gate then none
  else if x.cancelled then some (s,none)
  else if x.admits x.options.maxMessageBytes then
    some (s.set e {x.reserve x.options.maxMessageBytes with encoders:=x.encoders+1},
      some ⟨e,.encoding source x.options.maxMessageBytes⟩)
  else some (s.set e x.full,none)

/-- An operation of the registry, in the section that changes it. -/
def operate (s : Mirrors) : MirrorEvent → Mirrors
  | .register policy options =>
    match s.registry.register policy options with
    | .error _ => s
    | .ok (r,_) => s.install r [(policy,options)] (s.registry.entries.get policy.sourcePath).toList
  | .replaceGroup previous policies =>
    match s.registry.replaceGroup previous policies with
    | .error _ => s
    | .ok (r,_) => s.install r policies ((previous.getD []).map Prod.snd)
  | .cancel group => s.install (s.registry.cancel group) [] (group.map Prod.snd)
  | .remove source => s.install (s.registry.remove source) [] (s.registry.entries.get source).toList
  | .close => s.install s.registry.close [] (s.registry.entries.entries.map Prod.snd)
  | _ => s

def enter (event : MirrorEvent) (s : Mirrors) : Option (Mirrors × Option Offering) :=
  match event with
  | .fence =>
    match s.fences with
    | [] => none
    | e::rest => do
      let x ← s.entry e
      if x.gate then none else some ({s.set e {x with cancelled:=true} with fences := rest},none)
  | .closeHandle e => do
    let x ← s.entry e
    if x.gate then none else some (s.set e {x with cancelled:=true},none)
  | .offer source typeKey payload =>
    if s.locked then none
    else if !s.registry.opened||!canonical source then some (s,none)
    else
      match s.select source with
      | none => some (s,none)
      | some e => do
        let x ← s.entry e
        s.offer e x source typeKey payload
  | .offerLocal e source => do
    let x ← s.entry e
    s.offerLocal e x source
  | .work e move => do
    let x ← s.entry e
    let x' ← x.work move
    some (s.retires e x x',none)
  | event => if s.locked then none else some (s.operate event,none)

def step (move : OfferMove) (s : Mirrors) (t : Offering) : Option (Mirrors × Offering) := do
  let x ← s.entry t.entry
  let (x',stage) ← x.advance move t.stage
  some ({s.retires t.entry x x' with busy:=s.busy&&(!t.stage.registered||stage.registered)},{t with stage:=stage})

def program : Program Mirrors Offering MirrorEvent OfferMove := ⟨enter,step⟩

end Mirrors

inductive Account where
  | slot
  | byte
  | encoder
  | gate
  | count
  | notice

@[simp] def Entry.jobs (x : Entry) : List Job := x.worker.active++x.queue

@[simp] def Entry.stored (x : Entry) : Account → ℕ
  | .slot => x.slots+x.jobs.length
  | .byte => x.bytes+(x.jobs.map Job.bytes).sum
  | .encoder | .gate => 0
  | .count => x.stats.enqueued
  | .notice => x.permit.toNat+x.worker.notices+x.closed.toNat

@[simp] def Entry.limit (x : Entry) : Account → ℕ
  | .slot => x.options.capacity
  | .byte => x.options.maxPendingBytes
  | .encoder => x.encoders
  | .gate => x.gate.toNat
  | .count => x.stats.settled+x.queue.length+x.worker.uncounted
  | .notice => 1

@[simp] def OfferStage.holds : OfferStage → Account → ℕ
  | .encoding _ bytes, .byte | .leaving bytes, .byte => bytes
  | .encoded job, .byte | .sending job _, .byte => job.bytes
  | .encoding _ _, .slot | .encoded _, .slot | .sending _ _, .slot | .leaving _, .slot => 1
  | .encoding _ _, .encoder | .encoded _, .encoder | .leaving _, .encoder | .dropping, .encoder => 1
  | .sending _ encoder, .encoder | .counting encoder, .encoder => encoder.toNat
  | .sending _ _, .gate | .counting _, .gate | .counting _, .count | .notifying, .notice => 1
  | _, _ => 0

namespace Entry

structure Sound (x : Entry) : Prop where
  «over» : x.workerDone=x.worker.over
  done : x.workerDone=true → x.cancelled=true ∧ x.queue=[]
  fenced : x.cancelled=true → x.gate=false
  finished : x.permit=false → x.workerDone=true ∧ x.encoders=0

structure Lasting (x x' : Entry) : Prop where
  options : x'.options=x.options
  cancelled : x.cancelled=true → x'.cancelled=true ∧ x'.stats.enqueued=x.stats.enqueued ∧ x'.jobs.Sublist x.jobs
  closed : x.closed=true → x'.closed=true

structure Turn (x x' : Entry) (before after : Account → ℕ) : Prop where
  balance : ∀ a, x'.stored a+after a+x.limit a=x.stored a+before a+x'.limit a
  sound : x'.Sound
  lasting : Lasting x x'

variable {x x' : Entry} {bytes : ℕ} {stage stage' : OfferStage}

theorem spawn_sound (policy : WireMirrorPolicy) (options : WireMirrorOptions) : (spawn policy options).Sound :=
  ⟨rfl,fun h => (by cases h),fun h => (by cases h),fun h => (by cases h)⟩

theorem Lasting.refl (x : Entry) : Lasting x x := ⟨rfl,fun h => ⟨h,rfl,List.Sublist.refl _⟩,fun h => h⟩

theorem Lasting.trans {y : Entry} (h : Lasting x x') (h' : Lasting x' y) : Lasting x y where
  options := h'.options.trans h.options
  cancelled := fun hc => by
    obtain ⟨hc',hcount,hjobs⟩:=h.cancelled hc
    obtain ⟨hc'',hcount',hjobs'⟩:=h'.cancelled hc'
    exact ⟨hc'',hcount'.trans hcount,hjobs'.trans hjobs⟩
  closed := fun hc => h'.closed (h.closed hc)

theorem Lasting.quiet (hsame : (x'.options,x'.cancelled,x'.stats.enqueued,x'.jobs)=(x.options,x.cancelled,x.stats.enqueued,x.jobs))
    (hclosed : x.closed=true → x'.closed=true) : Lasting x x' := by
  simp only [Prod.mk.injEq] at hsame
  obtain ⟨hoptions,hcancelled,hcount,hjobs⟩:=hsame
  exact ⟨hoptions,fun hc => ⟨hcancelled ▸ hc,hcount,hjobs ▸ List.Sublist.refl _⟩,hclosed⟩

section
variable (h : x.Sound)
include h

theorem tally_turn {f : WireMirrorStats → WireMirrorStats} {before after : Account → ℕ}
    (hf : ∀ n, (f n).enqueued=n.enqueued ∧ (f n).settled=n.settled) (hsame : ∀ a, after a=before a) :
    Turn x (x.tally f) before after where
  balance := fun a => by
    obtain ⟨henqueued,hsettled⟩:=hf x.stats
    rw [hsame a]
    cases a with
    | count => simp [tally,henqueued,hsettled]
    | slot | byte | encoder | gate | notice => rfl
  sound := ⟨h.over,h.done,h.fenced,h.finished⟩
  lasting := .quiet (by simp [tally,(hf _).1]) fun hc => hc

theorem cancel_turn (hgate : x.gate=false) (before : Account → ℕ) :
    Turn x {x with cancelled:=true} before before where
  balance := fun a => by cases a <;> rfl
  sound := ⟨h.over,fun hd => ⟨rfl,(h.done hd).2⟩,fun _ => hgate,h.finished⟩
  lasting := ⟨rfl,fun _ => ⟨rfl,rfl,List.Sublist.refl _⟩,fun hc => hc⟩

theorem lock_turn (hgate : x.gate=false) (hopen : x.cancelled=false) (job : Job) :
    Turn x {x with gate:=true} (OfferStage.encoded job).holds (OfferStage.sending job true).holds where
  balance := fun a => by
    cases a with
    | gate => simp [hgate]
    | slot | byte | encoder | count | notice => rfl
  sound := ⟨h.over,h.done,fun hc => by simp [hopen] at hc,h.finished⟩
  lasting := .quiet rfl fun hc => hc

theorem send_turn (hgate : x.gate=true) (job : Job) (encoder : Bool) :
    Turn x (x.send job).1 (OfferStage.sending job encoder).holds
      (if (x.send job).2 then OfferStage.counting encoder else if encoder then .dropping else .ended).holds := by
  have hopen : x.cancelled=false := by
    rw [← Bool.not_eq_true]
    intro hc
    simp [h.fenced hc] at hgate
  unfold send
  split
  · refine ⟨fun a => ?_,⟨h.over,h.done,fun _ => rfl,h.finished⟩,.quiet rfl fun hc => hc⟩
    cases encoder <;> cases a <;> simp [release,full,tally,hgate,WireMirrorStats.settled]
    all_goals omega
  · rename_i hroom
    refine ⟨fun a => ?_,⟨h.over,fun hd => absurd (.inl hd) hroom,h.fenced,h.finished⟩,⟨rfl,fun hc => ?_,fun hc => hc⟩⟩
    · cases a <;> simp
      all_goals omega
    · simp [hopen] at hc

theorem count_turn (hgate : x.gate=true) (encoder : Bool) :
    Turn x {x with gate := false,stats := {x.stats with enqueued:=x.stats.enqueued+1}} (OfferStage.counting encoder).holds
      (if encoder then OfferStage.dropping else .ended).holds where
  balance := fun a => by
    cases encoder <;> cases a <;> simp [hgate,WireMirrorStats.settled]
  sound := ⟨h.over,h.done,fun _ => rfl,h.finished⟩
  lasting := by
    refine ⟨rfl,fun hc => ?_,fun hc => hc⟩
    simp [h.fenced hc] at hgate

theorem finish_turn {before after : Account → ℕ} (hnotice : after .notice=before .notice+x.finish.2.toNat)
    (hsame : ∀ a, a ≠ .notice → after a=before a) : Turn x x.finish.1 before after := by
  unfold finish at hnotice ⊢
  split
  · rename_i hdone
    rw [if_pos hdone] at hnotice
    refine ⟨fun a => ?_,⟨h.over,h.done,h.fenced,fun _ => hdone⟩,.quiet rfl fun hc => hc⟩
    cases a with
    | notice =>
      simp [hnotice]
      omega
    | slot | byte | encoder | gate | count =>
      rw [hsame _ (by simp)]
      rfl
  · rename_i hnot
    rw [if_neg hnot] at hnotice
    refine ⟨fun a => ?_,h,.refl x⟩
    cases a with
    | notice => rw [hnotice]; rfl
    | slot | byte | encoder | gate | count => rw [hsame _ (by simp)]

theorem advance_turn (hroom : ∀ a, x.stored a+stage.holds a≤x.limit a) {move : OfferMove}
    (hmove : x.advance move stage=some (x',stage')) : Turn x x' stage.holds stage'.holds := by
  have hlocked : stage.holds .gate=1 → x.gate=true := by
    intro hholds
    have hgate : 0+stage.holds .gate≤x.gate.toNat := hroom .gate
    rw [← Bool.not_eq_false]
    intro hfree
    rw [hholds,hfree] at hgate
    contradiction
  unfold advance at hmove
  split at hmove
  · cases hmove
    exact tally_turn h (fun n => ⟨rfl,rfl⟩) fun a => by cases a <;> rfl
  · split at hmove
    · cases hmove
      exact tally_turn h (f := fun n => {n with oversized:=n.oversized+1}) (fun n => ⟨rfl,rfl⟩) fun a => by cases a <;> rfl
    · cases hmove
      refine ⟨fun a => ?_,⟨h.over,h.done,h.fenced,h.finished⟩,.quiet rfl fun hc => hc⟩
      cases a <;> simp [Job.new]
      omega
  · split at hmove
    · contradiction
    · split at hmove
      · cases hmove
        exact ⟨fun a => by cases a <;> rfl,h,.refl _⟩
      · rename_i hgate hopen
        cases hmove
        exact lock_turn h (by simpa using hgate) (by simpa using hopen) _
  · cases hmove
    exact send_turn h (hlocked rfl) _ _
  · cases hmove
    exact count_turn h (hlocked rfl) _
  · cases hmove
    refine ⟨fun a => ?_,⟨h.over,h.done,h.fenced,h.finished⟩,.quiet rfl fun hc => hc⟩
    cases a <;> simp [release]
    all_goals omega
  · split at hmove
    · contradiction
    · cases hmove
      have hsome : 0+1≤x.encoders := hroom .encoder
      refine ⟨fun a => ?_,⟨h.over,h.done,h.fenced,fun hp => ?_⟩,.quiet rfl fun hc => hc⟩
      · cases a <;> simp
        omega
      · exact ⟨(h.finished hp).1,by simp [(h.finished hp).2]⟩
  · split at hmove
    · contradiction
    · cases hmove
      refine finish_turn h ?_ fun a ha => ?_
      · cases x.finish.2 <;> rfl
      · cases x.finish.2 <;> cases a <;> first | rfl | contradiction
  · cases hmove
    have hnotice : x.permit.toNat+x.worker.notices+x.closed.toNat+1≤1 := hroom .notice
    have hclosed : x.closed=false := by simpa using (by omega : x.closed.toNat=0)
    refine ⟨fun a => ?_,⟨h.over,h.done,h.fenced,h.finished⟩,.quiet rfl fun _ => rfl⟩
    cases a <;> simp [hclosed]
  · contradiction

end

theorem settle_settled (n : WireMirrorStats) (outcome : Delivery) :
    (n.settle outcome).enqueued=n.enqueued ∧ (n.settle outcome).settled=n.settled+1 := by
  cases outcome <;> simp [WireMirrorStats.settle,WireMirrorStats.settled]
  all_goals omega

theorem tearDown_turn (h : x.Sound) (hgate : x.gate=false) {active : List Job}
    (hactive : x.worker=.waiting ∧ active=[] ∨ ∃ job, x.worker=.delivering job ∧ active=[job])
    (before : Account → ℕ) : Turn x (x.tearDown active) before before where
  balance := fun a => by
    obtain ⟨hw,rfl⟩ | ⟨job,hw,rfl⟩:=hactive
    · cases a <;> simp [tearDown,hw,WireMirrorStats.settled]
      omega
    · cases a <;> simp [tearDown,hw,WireMirrorStats.settled]
      all_goals omega
  sound := ⟨rfl,fun _ => ⟨rfl,rfl⟩,fun _ => hgate,fun hp => ⟨rfl,(h.finished hp).2⟩⟩
  lasting := ⟨rfl,fun _ => ⟨rfl,rfl,List.nil_sublist _⟩,fun hc => hc⟩

theorem work_turn (h : x.Sound) (hroom : ∀ a, x.stored a≤x.limit a) {move : WorkerMove} (hmove : x.work move=some x')
    (before : Account → ℕ) : Turn x x' before before := by
  have hlive : x.worker.over=false → x.workerDone=true → False := by
    intro hover hd
    rw [h.over,hover] at hd
    cases hd
  cases move with
  | receive =>
    simp only [work] at hmove
    split at hmove
    · rename_i job rest hwaits hqueue
      cases hmove
      refine ⟨fun a => ?_,⟨h.over.trans (by rw [hwaits]; rfl),fun hd => ?_,h.fenced,h.finished⟩,.quiet ?_ fun hc => hc⟩
      · cases a <;> simp [hwaits,hqueue]
        omega
      · exact (hlive (by rw [hwaits]; rfl) hd).elim
      · simp [hwaits,hqueue]
    · contradiction
  | settle outcome =>
    simp only [work] at hmove
    split at hmove
    · rename_i job hactive
      split at hmove
      · contradiction
      · cases hmove
        obtain ⟨henqueued,hsettled⟩:=settle_settled x.stats outcome
        refine ⟨fun a => ?_,⟨h.over.trans (by rw [hactive]; rfl),h.done,h.fenced,h.finished⟩,.quiet ?_ fun hc => hc⟩
        · cases a <;> simp [hactive,henqueued,hsettled]
          omega
        · simp [hactive,henqueued]
    · contradiction
  | release =>
    simp only [work] at hmove
    split at hmove
    · rename_i job hcounted
      cases hmove
      refine ⟨fun a => ?_,⟨h.over.trans (by rw [hcounted]; rfl),h.done,h.fenced,h.finished⟩,⟨rfl,fun hc => ⟨hc,rfl,?_⟩,fun hc => hc⟩⟩
      · cases a <;> simp [release,hcounted]
        all_goals omega
      · simp [release,hcounted]
    · contradiction
  | destroy =>
    simp only [work] at hmove
    split at hmove
    · contradiction
    · rename_i hgate
      split at hmove
      · rename_i hwaits
        cases hmove
        exact tearDown_turn h (by simpa using hgate) (.inl ⟨hwaits,rfl⟩) before
      · rename_i job hactive
        cases hmove
        exact tearDown_turn h (by simpa using hgate) (.inr ⟨job,hactive,rfl⟩) before
      · contradiction
  | finish =>
    simp only [work] at hmove
    split at hmove
    · contradiction
    · split at hmove
      · rename_i hretiring
        cases hmove
        have hdone : x.workerDone=true := h.over.trans (by rw [hretiring]; rfl)
        unfold finish
        split
        · rename_i hlast
          cases hp : x.permit with
          | false | true =>
            refine ⟨fun a => ?_,⟨hdone,h.done,h.fenced,fun _ => hlast⟩,.quiet (by simp [hretiring]) fun hc => hc⟩
            cases a <;> simp [hretiring,hp]
        · refine ⟨fun a => ?_,⟨hdone,h.done,h.fenced,h.finished⟩,.quiet (by simp [hretiring]) fun hc => hc⟩
          cases a <;> simp [hretiring]
      · contradiction
  | notify =>
    simp only [work] at hmove
    split at hmove
    · rename_i hnotifying
      cases hmove
      have hnotice : x.permit.toNat+x.worker.notices+x.closed.toNat≤1 := hroom .notice
      have hone : x.worker.notices=1 := by rw [hnotifying]; rfl
      have hclosed : x.closed=false := by simpa using (by omega : x.closed.toNat=0)
      refine ⟨fun a => ?_,⟨h.over.trans (by rw [hnotifying]; rfl),h.done,h.fenced,h.finished⟩,.quiet ?_ fun _ => rfl⟩
      · cases a <;> simp [hnotifying,hclosed]
      · simp [hnotifying]
    · contradiction

theorem reserve_turn (h : x.Sound) (hgate : x.gate=false) (hopen : x.cancelled=false) (hadmits : x.admits bytes=true) :
    (∀ source, Turn x {x.reserve bytes with encoders:=x.encoders+1} (fun _ => 0) (OfferStage.encoding source bytes).holds) ∧
      ∀ job : Job, job.bytes=bytes → Turn x {x.reserve bytes with gate:=true} (fun _ => 0) (OfferStage.sending job false).holds := by
  simp only [admits,Bool.and_eq_true,decide_eq_true_eq] at hadmits
  refine ⟨fun source => ⟨fun a => ?_,⟨h.over,h.done,h.fenced,fun hp => ?_⟩,.quiet rfl fun hc => hc⟩,fun job hjob =>
    ⟨fun a => ?_,⟨h.over,h.done,fun hc => by simp [reserve,hopen] at hc,h.finished⟩,.quiet rfl fun hc => hc⟩⟩
  · cases a <;> simp [reserve]
    all_goals omega
  · simp [(h.done (h.finished hp).1).1] at hopen
  · cases a <;> simp [reserve,hgate,hjob]
    all_goals omega

end Entry

namespace Mirrors
variable {s s' : Mirrors} {before after : Option Offering}

def holding (e : ℕ) (t : Option Offering) (a : Account) : ℕ := (t.map fun t => if t.entry=e then t.stage.holds a else 0).getD 0

structure Installs (s : Mirrors) (r : Registry) (policies : List (WireMirrorPolicy × WireMirrorOptions)) : Prop where
  fresh : r.fresh=s.registry.fresh+policies.length
  workers : r.workers=(List.range' s.registry.fresh policies.length).reverse++s.registry.workers
  room : s.registry.workers.length≤64 → r.workers.length≤64

inductive Effect (s : Mirrors) : Option Offering → Mirrors → Option Offering → Prop where
  | stay : Effect s none s none
  | turn (e : ℕ) (x x' : Entry) (busy : Bool) (fences : List ℕ) (before after : Option Offering) : s.entry e=some x →
      x.Turn x' (holding e before) (holding e after) → (∀ t∈before, t.entry=e) → (∀ t∈after, t.entry=e) →
      (∀ f∈s.fences, f∈fences ∨ f=e ∧ x'.cancelled=true) →
      Effect s before {s.retires e x x' with busy:=busy,fences:=fences} after
  | install (r : Registry) (policies : List (WireMirrorPolicy × WireMirrorOptions)) (fences : List ℕ) : s.locked=false →
      Installs s r policies → Effect s none (s.install r policies fences) none

end Mirrors

namespace Registry

theorem spawnAll_workers (r : Registry) (sources : List String) :
    (r.spawnAll sources).1.workers=(List.range' r.fresh sources.length).reverse++r.workers := by
  induction sources generalizing r with
  | nil => rfl
  | cons source sources ih =>
    simp only [spawnAll,ih,spawn,List.length_cons,List.range'_succ,List.reverse_cons,List.append_assoc,List.singleton_append]

end Registry

namespace Mirrors
variable {s s' : Mirrors} {before after : Option Offering}

theorem installs_of_eq {r : Registry} (hfresh : r.fresh=s.registry.fresh) (hworkers : r.workers=s.registry.workers) :
    Installs s r [] := ⟨hfresh,hworkers,fun h => hworkers ▸ h⟩

theorem operate_effect (hfree : s.locked=false) (event : MirrorEvent) : Effect s none (s.operate event) none := by
  cases event with
  | register policy options =>
    simp only [operate]
    split
    · exact .stay
    · rename_i r e hok
      obtain ⟨rfl,hroom⟩:=Registry.register_ok hok
      exact .install _ _ _ hfree ⟨rfl,rfl,fun _ => hroom⟩
  | replaceGroup previous policies =>
    simp only [operate]
    split
    · exact .stay
    · rename_i r group hok
      obtain ⟨hreplaced,hroom⟩:=Registry.replaceGroup_fits hok
      obtain ⟨rfl,-⟩:=Prod.mk.inj hreplaced.result
      refine .install _ _ _ hfree ⟨?_,?_,fun _ => ?_⟩
      · rw [(Registry.spawnAll_fields _ _).1,List.length_map]
        rfl
      · rw [Registry.spawnAll_workers,List.length_map]
        rfl
      · rw [Registry.spawnAll_workers,List.length_append,List.length_reverse,List.length_range',List.length_map]
        change policies.length+s.registry.workers.length≤64
        omega
  | cancel group =>
    obtain ⟨hfresh,-,hworkers,-⟩:=Registry.cancel_fields (r := s.registry) group
    exact .install _ _ _ hfree (installs_of_eq hfresh hworkers)
  | remove source => exact .install _ _ _ hfree (installs_of_eq rfl rfl)
  | close => exact .install _ _ _ hfree (installs_of_eq rfl rfl)
  | fence | closeHandle | offer | offerLocal | work => exact .stay

def Solvent (s : Mirrors) (t : Option Offering) : Prop :=
  ∀ e x, s.entry e=some x → x.Sound ∧ ∀ a, x.stored a+holding e t a≤x.limit a

theorem holding_self (e : ℕ) (stage : OfferStage) : holding e (some ⟨e,stage⟩)=stage.holds := by
  funext a
  simp [holding]

variable {e : ℕ}

theorem retires_eq {x x' : Entry} (hclosed : x'.closed=x.closed) : s.retires e x x'=s.set e x' := by
  simp [retires,set,hclosed]

theorem Effect.begin {x x' : Entry} (stage : Option OfferStage) (busy : Bool) (he : s.entry e=some x)
    (hturn : x.Turn x' (fun _ => 0) (holding e (stage.map fun stage => ⟨e,stage⟩))) (hclosed : x'.closed=x.closed) :
    Effect s none {s.set e x' with busy:=busy} (stage.map fun stage => ⟨e,stage⟩) := by
  have heffect : Effect s none {s.retires e x x' with busy:=busy,fences:=s.fences} (stage.map fun stage => ⟨e,stage⟩) :=
    .turn e x x' busy s.fences none _ he hturn (by simp) (by cases stage <;> simp) fun f hf => .inl hf
  rwa [retires_eq hclosed] at heffect

theorem Effect.tally {x : Entry} (h : x.Sound) (he : s.entry e=some x) {f : WireMirrorStats → WireMirrorStats}
    (hf : ∀ n, (f n).enqueued=n.enqueued ∧ (f n).settled=n.settled) : Effect s none (s.set e (x.tally f)) none :=
  Effect.begin none s.busy he (Entry.tally_turn h hf fun _ => rfl) rfl

theorem offer_effect {x : Entry} (h : x.Sound) (he : s.entry e=some x) {source typeKey : String} {payload : List UInt8}
    (henter : s.offer e x source typeKey payload=some (s',after)) : Effect s none s' after := by
  unfold offer at henter
  obtain ⟨hgate,henter⟩:=Option.ite_none_left_eq_some.mp henter
  split at henter
  · cases henter
    exact .stay
  · rename_i hopen
    split at henter
    · cases henter
      exact Effect.tally h he fun _ => ⟨rfl,rfl⟩
    · split at henter
      · rename_i hadmits
        cases henter
        have hturn:=(Entry.reserve_turn h (by simpa using hgate) (by simpa using (not_or.mp hopen).2) hadmits).2
          (.new source typeKey payload) rfl
        exact Effect.begin (some _) _ he ((holding_self e _).symm ▸ hturn) rfl
      · cases henter
        exact Effect.tally h he fun _ => ⟨rfl,rfl⟩

theorem offerLocal_effect {x : Entry} (h : x.Sound) (he : s.entry e=some x) {source : String}
    (henter : s.offerLocal e x source=some (s',after)) : Effect s none s' after := by
  unfold offerLocal at henter
  split at henter
  · cases henter
    exact .stay
  · obtain ⟨hgate,henter⟩:=Option.ite_none_left_eq_some.mp henter
    split at henter
    · cases henter
      exact .stay
    · rename_i hopen
      split at henter
      · rename_i hadmits
        cases henter
        have hturn:=(Entry.reserve_turn h (by simpa using hgate) (by simpa using hopen) hadmits).1 source
        exact Effect.begin (some _) s.busy he ((holding_self e _).symm ▸ hturn) rfl
      · cases henter
        exact Effect.tally h he fun _ => ⟨rfl,rfl⟩

theorem enter_effect (h : Solvent s none) {event : MirrorEvent} (henter : s.enter event=some (s',after)) :
    Effect s none s' after := by
  unfold enter at henter
  split at henter
  · split at henter
    · contradiction
    · rename_i e rest hfences
      obtain ⟨x,he,henter⟩:=Option.bind_eq_some_iff.mp henter
      obtain ⟨hgate,henter⟩:=Option.ite_none_left_eq_some.mp henter
      cases henter
      have hturn:=Entry.cancel_turn (h e x he).1 (by simpa using hgate) (holding e none)
      have heffect : Effect s none {s.retires e x {x with cancelled:=true} with busy := s.busy,fences := rest} none :=
        .turn e x _ s.busy rest none none he hturn (by simp) (by simp) fun f hf => by
          rw [hfences] at hf
          exact (List.mem_cons.mp hf).elim (fun hfe => .inr ⟨hfe,rfl⟩) .inl
      have hretires : s.retires e x {x with cancelled:=true}=s.set e {x with cancelled:=true} := retires_eq rfl
      rwa [hretires] at heffect
  · obtain ⟨x,he,henter⟩:=Option.bind_eq_some_iff.mp henter
    obtain ⟨hgate,henter⟩:=Option.ite_none_left_eq_some.mp henter
    cases henter
    exact Effect.begin none s.busy he (Entry.cancel_turn (h _ x he).1 (by simpa using hgate) _) rfl
  · obtain ⟨-,henter⟩:=Option.ite_none_left_eq_some.mp henter
    split at henter
    · cases henter
      exact .stay
    · split at henter
      · cases henter
        exact .stay
      · obtain ⟨x,he,henter⟩:=Option.bind_eq_some_iff.mp henter
        exact offer_effect (h _ x he).1 he henter
  · obtain ⟨x,he,henter⟩:=Option.bind_eq_some_iff.mp henter
    exact offerLocal_effect (h _ x he).1 he henter
  · obtain ⟨x,he,henter⟩:=Option.bind_eq_some_iff.mp henter
    obtain ⟨x',hmove,henter⟩:=Option.bind_eq_some_iff.mp henter
    cases henter
    exact .turn _ x x' s.busy s.fences none none he (Entry.work_turn (h _ x he).1 (h _ x he).2 hmove _) (by simp) (by simp)
      fun f hf => .inl hf
  · obtain ⟨hfree,henter⟩:=Option.ite_none_left_eq_some.mp henter
    cases henter
    exact operate_effect (by simpa using hfree) _

theorem step_effect {t t' : Offering} (h : Solvent s (some t)) {move : OfferMove} (hstep : s.step move t=some (s',t')) :
    Effect s (some t) s' (some t') := by
  obtain ⟨x,he,hstep⟩:=Option.bind_eq_some_iff.mp hstep
  obtain ⟨⟨x',stage⟩,hmove,hstep⟩:=Option.bind_eq_some_iff.mp hstep
  cases hstep
  obtain ⟨hsound,hroom⟩:=h _ x he
  have hturn:=Entry.advance_turn hsound (fun a => by simpa [holding] using hroom a) hmove
  rw [← holding_self t.entry t.stage,← holding_self t.entry stage] at hturn
  exact .turn t.entry x x' _ s.fences (some t) (some _) he hturn (by simp) (by simp) fun f hf => .inl hf

def stored (s : Mirrors) (e : ℕ) (a : Account) : ℕ := (s.entry e).elim 0 fun x => x.stored a

def limit (s : Mirrors) (e : ℕ) (a : Account) : ℕ := (s.entry e).elim 0 fun x => x.limit a

structure Inv (s : Mirrors) : Prop where
  fresh : ∀ e, (s.entry e).isSome ↔ e<s.registry.fresh
  sound : ∀ e x, s.entry e=some x → x.Sound
  nodup : s.registry.workers.Nodup
  workers : ∀ e, e∈s.registry.workers ↔ ∃ x, s.entry e=some x ∧ x.closed=false
  room : s.registry.workers.length≤64

theorem entry_retires (e : ℕ) (x x' : Entry) (f : ℕ) : (s.retires e x x').entry f=if f=e then some x' else s.entry f := by
  simp [retires,set,Function.update_apply]

theorem mem_workers_retires (h : Inv s) {x x' : Entry} (he : s.entry e=some x) (hlasting : x.Lasting x') (f : ℕ) :
    f∈(s.retires e x x').registry.workers ↔ ∃ y, (s.retires e x x').entry f=some y ∧ y.closed=false := by
  rw [entry_retires]
  by_cases hf : f=e
  · subst hf
    cases hx : x.closed with
    | false => cases hx' : x'.closed <;> simp [retires,hx,hx',Registry.retire,set,h.workers,he,h.nodup.mem_erase_iff]
    | true => simp [retires,set,hx,hlasting.closed hx,h.workers,he]
  · rw [if_neg hf,← h.workers]
    unfold retires
    split
    · simp [Registry.retire,h.nodup.mem_erase_iff,hf]
    · rfl

theorem entry_install (h : Inv s) (r : Registry) (policies : List (WireMirrorPolicy × WireMirrorOptions)) (fences : List ℕ) :
    (s.entry e=none ∨ (s.install r policies fences).entry e=s.entry e) ∧
      ∀ x, (s.install r policies fences).entry e=some x → s.entry e=some x ∨
        ∃ p, policies[e-s.registry.fresh]?=some p ∧ s.registry.fresh≤e ∧ x=.spawn p.1 p.2 := by
  by_cases he : e<s.registry.fresh
  · simp only [install,if_pos he]
    exact ⟨.inr trivial,fun x hx => .inl hx⟩
  · simp only [install,if_neg he]
    refine ⟨.inl ?_,fun x hx => .inr ?_⟩
    · rw [← Option.not_isSome_iff_eq_none,h.fresh]
      exact he
    · obtain ⟨p,hp,rfl⟩:=Option.map_eq_some_iff.mp hx
      exact ⟨p,hp,not_lt.mp he,rfl⟩

theorem Effect.balance (h : Inv s) (heffect : Effect s before s' after) (e : ℕ) (a : Account) :
    s'.stored e a+holding e after a+s.limit e a=s.stored e a+holding e before a+s'.limit e a := by
  cases heffect with
  | stay => rfl
  | turn f x x' busy fences _ _ hf hturn hbefore hafter hfences =>
    have hentry : (s.retires f x x').entry e=if e=f then some x' else s.entry e := entry_retires ..
    by_cases he : e=f
    · subst he
      simp only [stored,limit,hentry,if_true,hf]
      exact hturn.balance a
    · have hnone : ∀ t : Option Offering, (∀ u∈t, u.entry=f) → holding e t a=0 := by
        intro t ht
        cases t with
        | none => rfl
        | some u => simp [holding,ht u rfl,Ne.symm he]
      simp only [stored,limit,hentry,if_neg he,hnone before hbefore,hnone after hafter]
  | install r policies fences hfree hinstalls =>
    obtain ⟨hold,hnew⟩:=entry_install h (e := e) r policies fences
    simp only [stored,limit]
    cases hs : (s.install r policies fences).entry e with
    | none =>
      have hnone : s.entry e=none := hold.elim id fun hsame => hsame ▸ hs
      rw [hnone]
    | some x =>
      rcases hnew x hs with he | ⟨p,hp,hle,rfl⟩
      · rw [he]
      · have hnone : s.entry e=none := by
          rw [← Option.not_isSome_iff_eq_none,h.fresh]
          exact not_lt.mpr hle
        rw [hnone]
        cases a <;> simp [Entry.spawn,holding,WireMirrorStats.settled]

theorem Effect.lasting (h : Inv s) (heffect : Effect s before s' after) {x : Entry} (he : s.entry e=some x) :
    ∃ x', s'.entry e=some x' ∧ x.Lasting x' := by
  cases heffect with
  | stay => exact ⟨x,he,.refl x⟩
  | turn f y y' busy fences _ _ hf hturn hbefore hafter hfences =>
    change ∃ z, (s.retires f y y').entry e=some z ∧ x.Lasting z
    rw [entry_retires]
    split
    · rename_i hef
      subst hef
      cases hf.symm.trans he
      exact ⟨y',rfl,hturn.lasting⟩
    · exact ⟨x,he,.refl x⟩
  | install r policies fences hfree hinstalls =>
    have hsame:=((entry_install h (e := e) r policies fences).1).resolve_left (by simp [he])
    exact ⟨x,hsame.trans he,.refl x⟩

theorem Effect.fenced (heffect : Effect s before s' after) {f : ℕ} (hf : f∈s.fences) :
    f∈s'.fences ∨ ∃ x, s'.entry f=some x ∧ x.cancelled=true := by
  cases heffect with
  | stay => exact .inl hf
  | turn e x x' busy fences _ _ he hturn hbefore hafter hfences =>
    rcases hfences f hf with hin | ⟨rfl,hcancelled⟩
    · exact .inl hin
    · exact .inr ⟨x',(entry_retires f x x' f).trans (if_pos rfl),hcancelled⟩
  | install r policies fences hfree hinstalls =>
    have hnone : s.fences=[] := by simpa using (Bool.or_eq_false_iff.mp hfree).2
    rw [hnone] at hf
    cases hf

theorem Effect.inv (h : Inv s) (heffect : Effect s before s' after) : Inv s' := by
  cases heffect with
  | stay => exact h
  | turn e x x' busy fences _ _ he hturn hbefore hafter hfences =>
    have hfresh : (s.retires e x x').registry.fresh=s.registry.fresh := by
      unfold retires
      split <;> rfl
    have hsublist : (s.retires e x x').registry.workers.Sublist s.registry.workers := by
      unfold retires
      split
      · exact List.erase_sublist
      · exact List.Sublist.refl _
    refine ⟨fun f => ?_,fun f y hy => ?_,hsublist.nodup h.nodup,mem_workers_retires h he hturn.lasting,
      hsublist.length_le.trans h.room⟩
    · change ((s.retires e x x').entry f).isSome ↔ f<(s.retires e x x').registry.fresh
      rw [hfresh,← h.fresh,entry_retires]
      split
      · rename_i hf
        simp [hf,he]
      · rfl
    · have hentry:=(entry_retires e x x' f).symm.trans hy
      split at hentry
      · cases hentry
        exact hturn.sound
      · exact h.sound f y hentry
  | install r policies fences hfree hinstalls =>
    have hlist : ∀ e, e∈r.workers ↔ e∈s.registry.workers ∨ s.registry.fresh≤e ∧ e<s.registry.fresh+policies.length := by
      intro e
      simp [hinstalls.workers,or_comm]
    have hold : ∀ e∈s.registry.workers, e<s.registry.fresh := by
      intro e he
      obtain ⟨x,hx,-⟩:=(h.workers e).mp he
      exact (h.fresh e).mp (by simp [hx])
    have hentry : ∀ e, (s.install r policies fences).entry e=
        if e<s.registry.fresh then s.entry e else policies[e-s.registry.fresh]?.map fun p => Entry.spawn p.1 p.2 := fun e => rfl
    refine ⟨fun e => ?_,fun e x hx => ?_,?_,fun e => ?_,hinstalls.room h.room⟩
    · rw [hentry]
      change _ ↔ e<r.fresh
      rw [hinstalls.fresh]
      split
      · rw [h.fresh]
        omega
      · simp
        omega
    · rcases (entry_install h _ _ _).2 x hx with he | ⟨p,-,-,rfl⟩
      · exact h.sound e x he
      · exact Entry.spawn_sound _ _
    · change r.workers.Nodup
      rw [hinstalls.workers,List.nodup_append]
      refine ⟨List.nodup_reverse.mpr List.nodup_range',h.nodup,fun e he f hf hef => ?_⟩
      have hlt:=hold f hf
      simp at he
      omega
    · rw [hentry]
      change e∈r.workers ↔ _
      rw [hlist]
      split
      · rename_i hlt
        rw [← h.workers]
        exact or_iff_left fun hge => by omega
      · rename_i hge
        have hnot : e∉s.registry.workers := fun he => hge (hold e he)
        rw [or_iff_right hnot]
        cases hp : policies[e-s.registry.fresh]? with
        | none =>
          have hlen:=List.getElem?_eq_none_iff.mp hp
          simp
          omega
        | some p =>
          obtain ⟨hlen,-⟩:=List.getElem?_eq_some_iff.mp hp
          simp [Entry.spawn]
          omega

variable {p p' : Pool Mirrors Offering} {a : Action MirrorEvent OfferMove} {actions : List (Action MirrorEvent OfferMove)}

def Balanced (p : Pool Mirrors Offering) : Prop :=
  ∀ e a, p.shared.stored e a+Program.held (fun t => holding e (some t) a) p.threads=p.shared.limit e a

theorem Balanced.solvent (h : Inv p.shared) (hbalanced : Balanced p) {t : Option Offering} (ht : ∀ u∈t, u∈p.threads) :
    Solvent p.shared t := by
  refine fun e x he => ⟨h.sound e x he,fun a => ?_⟩
  have hone:=hbalanced e a
  simp only [stored,limit,he,Option.elim_some] at hone
  cases t with
  | none =>
    change x.stored a+0≤x.limit a
    omega
  | some u =>
    have hle:=Program.le_held (h := fun t => holding e (some t) a) (ht u rfl)
    omega

theorem held_toList (e : ℕ) (a : Account) (t : Option Offering) :
    Program.held (fun t => holding e (some t) a) t.toList=holding e t a := by
  cases t <;> rfl

theorem next_effect (h : Inv p.shared) (hbalanced : Balanced p) (hnext : program.next p a=some p') :
    (∃ before after, Effect p.shared before p'.shared after) ∧ Balanced p' := by
  have hnone : Solvent p.shared none := hbalanced.solvent h (by simp)
  have hsome : ∀ t∈p.threads, Solvent p.shared (some t) := fun t ht => hbalanced.solvent h (by simpa using ht)
  refine ⟨?_,fun e b => ?_⟩
  · obtain ⟨event,s,t,-,henter,rfl⟩ | ⟨move,l,t,r,s,t',-,hthreads,hstep,rfl⟩:=Program.next_cases hnext
    · exact ⟨none,t,enter_effect hnone henter⟩
    · exact ⟨some t,some t',step_effect (hsome t (by simp [hthreads])) hstep⟩
  · refine Program.next_balanced (fun s => s.stored e b) (fun s => s.limit e b) _ (hbalanced e b) (fun event s t henter => ?_)
      (fun move t s t' ht _ hstep => (step_effect (hsome t ht) hstep).balance h e b) hnext
    rw [held_toList]
    exact (enter_effect hnone henter).balance h e b

structure Later (s s' : Mirrors) : Prop where
  entry : ∀ e x, s.entry e=some x → ∃ x', s'.entry e=some x' ∧ x.Lasting x'
  fenced : ∀ f∈s.fences, f∈s'.fences ∨ ∃ x, s'.entry f=some x ∧ x.cancelled=true

theorem run_kept {q : Pool Mirrors Offering} (h : Inv p.shared ∧ Balanced p ∧ Later q.shared p.shared)
    (hrun : program.run p actions=some p') : Inv p'.shared ∧ Balanced p' ∧ Later q.shared p'.shared := by
  refine Program.run_invariant (C := fun _ _ => True) (I := fun p => Inv p.shared ∧ Balanced p ∧ Later q.shared p.shared)
    (fun p a p' h _ hnext => ?_) h Program.along_true hrun
  obtain ⟨hinv,hbalanced,hlater⟩:=h
  obtain ⟨⟨before,after,heffect⟩,hbalanced'⟩:=next_effect hinv hbalanced hnext
  refine ⟨heffect.inv hinv,hbalanced',fun e x he => ?_,fun f hf => ?_⟩
  · obtain ⟨x',he',hlasting⟩:=hlater.entry e x he
    obtain ⟨x'',he'',hlasting'⟩:=heffect.lasting hinv he'
    exact ⟨x'',he'',hlasting.trans hlasting'⟩
  · rcases hlater.fenced f hf with hf' | ⟨x,he,hcancelled⟩
    · exact heffect.fenced hf'
    · obtain ⟨x',he',hlasting⟩:=heffect.lasting hinv he
      exact .inr ⟨x',he',(hlasting.cancelled hcancelled).1⟩

theorem Later.refl (s : Mirrors) : Later s s := ⟨fun _ x he => ⟨x,he,.refl x⟩,fun _ hf => .inl hf⟩

theorem new_kept (node : Option String) : Inv (new node) ∧ Balanced ⟨new node,[]⟩ :=
  ⟨⟨fun e => by simp [new,Registry.new],fun e x he => (by cases he),List.nodup_nil,fun e => by simp [new,Registry.new],Nat.zero_le _⟩,
    fun e a => rfl⟩

theorem closed_accounts (h : Inv p.shared) (hbalanced : Balanced p) {x : Entry} (he : p.shared.entry e=some x)
    (hclosed : x.closed=true) : x.stats.enqueued=x.stats.settled ∧ x.jobs=[] ∧ x.encoders=0 ∧
      ∀ t∈p.threads, t.entry=e → t.stage.holds .encoder=0 := by
  have hsound:=h.sound e x he
  have haccount : ∀ a, x.stored a+Program.held (fun t => holding e (some t) a) p.threads=x.limit a := by
    intro a
    have hone:=hbalanced e a
    simpa only [stored,limit,he,Option.elim_some] using hone
  have hpermit : x.permit=false := by
    have hnotice : x.permit.toNat+x.worker.notices+x.closed.toNat+_=1 := haccount .notice
    rw [hclosed] at hnotice
    simpa using (by simp at hnotice; omega : x.permit.toNat=0)
  obtain ⟨hdone,hencoders⟩:=hsound.finished hpermit
  obtain ⟨hcancelled,hqueue⟩:=hsound.done hdone
  have hover : x.worker.over=true := hsound.over ▸ hdone
  obtain ⟨hactive,huncounted⟩ : x.worker.active=[] ∧ x.worker.uncounted=0 := by
    revert hover
    cases x.worker <;> simp
  have hfree : ∀ a, x.stored a=0 → x.limit a=0 → ∀ t∈p.threads, holding e (some t) a=0 := by
    intro a hstored hlimit t ht
    have hle:=Program.le_held (h := fun t => holding e (some t) a) ht
    have hone:=haccount a
    omega
  have hgate:=hfree .gate rfl (by simp [hsound.fenced hcancelled])
  have hjobs : x.worker.active++x.queue=[] := by rw [hactive,hqueue,List.append_nil]
  refine ⟨?_,hjobs,hencoders,fun t ht hentry => ?_⟩
  · have hcount : x.stats.enqueued+Program.held (fun t => holding e (some t) .count) p.threads=
        x.stats.settled+x.queue.length+x.worker.uncounted := haccount .count
    rw [Program.held_eq_zero fun t ht => ?_,hqueue,huncounted] at hcount
    · exact hcount
    · have hnot:=hgate t ht
      revert hnot
      simp only [holding,Option.map_some,Option.getD_some]
      split
      · cases t.stage <;> simp
      · exact fun _ => rfl
  · have hnot:=hfree .encoder rfl hencoders t ht
    simpa [holding,hentry] using hnot

/-- In every run: an entry never has more than its capacity and its bytes, one that is cancelled
takes nothing in any more, one that is closed has balanced its counts and has no encoder; worker
slots are out for the entries that are not closed, and a group that is refused changes nothing. -/
theorem run_accounts (node : Option String) (hrun : program.run ⟨new node,[]⟩ actions=some p) :
    (∀ e x, p.shared.entry e=some x →
      x.jobs.length≤x.options.capacity ∧ (x.jobs.map Job.bytes).sum≤x.options.maxPendingBytes ∧
      (x.closed=true → x.stats.enqueued=x.stats.delivered+x.stats.failed+x.stats.timedOut+x.stats.cancelled ∧
        x.jobs=[] ∧ x.encoders=0 ∧ ∀ t∈p.threads, t.entry=e → t.stage.holds .encoder=0)) ∧
    (∀ more p', program.run p more=some p' →
      (∀ e x, p.shared.entry e=some x → ∃ x', p'.shared.entry e=some x' ∧ x'.options=x.options ∧
        (x.cancelled=true → x'.cancelled=true ∧ x'.stats.enqueued=x.stats.enqueued ∧ x'.jobs.Sublist x.jobs) ∧
        (x.closed=true → x'.closed=true)) ∧
      ∀ e∈p.shared.fences, e∈p'.shared.fences ∨ ∃ x, p'.shared.entry e=some x ∧ x.cancelled=true) ∧
    p.shared.registry.workers.Nodup ∧ p.shared.registry.workers.length≤64 ∧
    (∀ e, e∈p.shared.registry.workers ↔ ∃ x, p.shared.entry e=some x ∧ x.closed=false) ∧
    ∀ previous policies error, p.shared.registry.replaceGroup previous policies=.error error →
      program.next p (.enter (.replaceGroup previous policies))=if p.shared.locked then none else some p := by
  obtain ⟨hinv,hbalanced,-⟩:=run_kept (q := ⟨new node,[]⟩) ⟨(new_kept node).1,(new_kept node).2,.refl _⟩ hrun
  refine ⟨fun e x he => ?_,fun more p' hmore => ?_,hinv.nodup,hinv.room,hinv.workers,fun previous policies error herror => ?_⟩
  · have haccount:=((hbalanced.solvent hinv (t := none) (by simp)) e x he).2
    have hslot : x.slots+x.jobs.length+0≤x.options.capacity := haccount .slot
    have hbyte : x.bytes+(x.jobs.map Job.bytes).sum+0≤x.options.maxPendingBytes := haccount .byte
    exact ⟨by omega,by omega,closed_accounts hinv hbalanced he⟩
  · obtain ⟨-,-,hlater⟩:=run_kept ⟨hinv,hbalanced,.refl _⟩ hmore
    refine ⟨fun e x he => ?_,hlater.fenced⟩
    obtain ⟨x',he',hlasting⟩:=hlater.entry e x he
    exact ⟨x',he',hlasting.options,hlasting.cancelled,hlasting.closed⟩
  · simp only [Program.next,program,enter,operate,herror]
    split
    · rfl
    · simp

def copied : List (Action MirrorEvent OfferMove) :=
  [.enter (.register ⟨"/a","/b"⟩ ⟨1,64,64,100⟩),.enter (.offer "/a/x" "T" [1,2]),.step 0 .go,.step 0 .go,
    .enter (.work 0 .receive),.enter (.closeHandle 0),.enter (.work 0 (.settle .delivered)),.enter (.work 0 .release),
    .enter (.work 0 .destroy),.enter (.work 0 .finish),.enter (.work 0 .notify)]

theorem run_accounts_copied : ∃ p, program.run ⟨new none,[]⟩ copied=some p ∧
    (p.shared.entry 0).any (fun x => x.closed&&x.stats.enqueued==1)=true ∧
    ∀ x, p.shared.entry 0=some x → x.jobs.length≤x.options.capacity := by
  have hrun : ((program.run ⟨new none,[]⟩ copied).any fun p =>
      (p.shared.entry 0).any fun x => x.closed&&x.stats.enqueued==1)=true := by
    decide +kernel
  obtain ⟨p,hp,hclosed⟩:=(Option.any_eq_true ..).mp hrun
  exact ⟨p,hp,hclosed,fun x hx => ((run_accounts none hp).1 0 x hx).1⟩

end Mirrors
end Parrot.Mirror
