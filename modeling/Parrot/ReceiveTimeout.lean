import Mathlib.Algebra.Group.Nat.Defs
import Mathlib.Data.List.Nodup
import Mathlib.Data.List.Induction

/-! # The receive timeout (`receive_timeout.rs`)

One clock for the idle time of an actor. -/

namespace Parrot.Idle

def u64Max : ℕ := 2^64-1

structure State where
  timeout : Option ℕ
  epoch : ℕ
  active : ℕ
  ready : Bool
  closed : Bool
  workerStarted : Bool
  deadline : Option ℕ
  pending : Option ℕ

/-- `Instant::checked_add`; `limit` is the last instant of the clock. -/
def checkedAdd (limit now d : ℕ) : Option ℕ := if now+d≤limit then some (now+d) else none

def State.bump (s : State) : State :=
  if s.epoch<u64Max then {s with pending:=none,deadline:=none,epoch:=s.epoch+1}
  else {s with pending:=none,deadline:=none,closed:=true,timeout:=none}

def State.reset (limit : ℕ) (s : State) (now : ℕ) : State :=
  if s.bump.closed=false ∧ s.bump.ready=true ∧ s.bump.active=0 then
    {s.bump with deadline:=s.bump.timeout.bind (checkedAdd limit now)}
  else s.bump

/-- Where the worker is; `changed` is enabled from `enabled` on. -/
inductive Worker where
  | off
  | loop
  | enabled
  | waiting
  | sleeping (deadline epoch : ℕ)
  | expired (deadline epoch : ℕ)
  | delivering (epoch : ℕ)
  | ended
  deriving DecidableEq

/- `starting` is between the section of `configure` and the spawn, `notices` counts the calls
of `notify_waiters` to come. The fields from `live` on are history. -/
structure ReceiveTimeout where
  state : State
  recipient : Bool
  starting : Bool
  notices : ℕ
  notified : Bool
  worker : Worker
  live : List ℕ
  issued : List ℕ
  workers : ℕ

inductive Act where
  | bind
  | activate (now : ℕ)
  | close (now : ℕ)
  | configure (timeout : Option ℕ) (asked now : ℕ)
  | spawned (ok : Bool) (now : ℕ)
  | enter (activity now : ℕ)
  | claim (signal activity now : ℕ)
  | drop (activity now : ℕ)
  | notify
  | worker (now : ℕ)
  | delivered (ok : Bool)
  | abandon

def Act.time : Act → Option ℕ
  | .activate now | .close now | .configure _ _ now | .spawned _ now | .enter _ now | .claim _ _ now | .drop _ now
  | .worker now => some now
  | .bind | .notify | .delivered _ | .abandon => none

namespace ReceiveTimeout

def new : ReceiveTimeout where
  state := ⟨none,0,0,false,false,false,none,none⟩
  recipient := false
  starting := false
  notices := 0
  notified := false
  worker := .off
  live := []
  issued := []
  workers := 0

def get (s : ReceiveTimeout) : Option ℕ := s.state.timeout

def change (limit : ℕ) (s : ReceiveTimeout) (state : State) (now : ℕ) : ReceiveTimeout :=
  {s with state:=state.reset limit now,notices:=s.notices+1}

def activate (limit : ℕ) (s : ReceiveTimeout) (now : ℕ) : ReceiveTimeout :=
  s.change limit {s.state with ready:=true} now

def close (limit : ℕ) (s : ReceiveTimeout) (now : ℕ) : ReceiveTimeout :=
  s.change limit {s.state with closed:=true,timeout:=none} now

/-- Zero and what the clock cannot represent disable it. -/
def configure (limit : ℕ) (s : ReceiveTimeout) (timeout : Option ℕ) (asked now : ℕ) : ReceiveTimeout :=
  let timeout:=timeout.filter fun d => d≠0 ∧ (checkedAdd limit asked d).isSome
  let s:=s.change limit {s.state with timeout:=timeout.filter fun _ => !s.state.closed} now
  let start:=s.state.timeout.isSome&&!s.state.workerStarted&&s.recipient
  {s with
    state := {s.state with workerStarted:=s.state.workerStarted||start}
    starting := s.starting||start}

/-- What `idle_worker` answered. -/
def spawned (limit : ℕ) (s : ReceiveTimeout) (ok : Bool) (now : ℕ) : ReceiveTimeout :=
  if s.starting=false then s
  else if ok then {s with starting:=false,worker:=.loop,workers:=s.workers+1}
  else ({s with starting:=false}).close limit now

def enter (limit : ℕ) (s : ReceiveTimeout) (activity now : ℕ) : ReceiveTimeout :=
  {s.change limit {s.state with active:=s.state.active+1} now with live := activity::s.live}

/-- The checks of `claim`. -/
def claims (s : ReceiveTimeout) (signal : ℕ) : Bool :=
  !(s.state.closed||s.state.active≠0||s.state.pending≠some signal)

/-- `Activity::drop`. -/
def drop (limit : ℕ) (s : ReceiveTimeout) (activity now : ℕ) : ReceiveTimeout :=
  {s.change limit {s.state with active:=s.state.active-1} now with live := s.live.erase activity}

/-- `run`, from one await or lock to the next. -/
def workerStep (s : ReceiveTimeout) (now : ℕ) : ReceiveTimeout :=
  match s.worker with
  | .loop => {s with notified:=false,worker:=.enabled}
  | .enabled =>
    if s.state.closed then {s with worker:=.ended}
    else
      match s.state.deadline with
      | none => {s with worker:=.waiting}
      | some deadline => {s with worker:=.sleeping deadline s.state.epoch}
  | .waiting => if s.notified then {s with worker:=.loop} else s
  | .sleeping deadline epoch =>
    if s.notified then {s with worker:=.loop}
    else if deadline≤now then {s with worker:=.expired deadline epoch}
    else s
  | .expired deadline epoch =>
    if s.state.closed ∨ s.state.epoch≠epoch ∨ s.state.deadline≠some deadline then {s with worker:=.loop}
    else
      {s with
        state := {s.state with deadline:=none,pending:=some epoch}
        worker := .delivering epoch
        issued := epoch::s.issued}
  | .delivering _ => if s.notified then {s with worker:=.loop} else s
  | .off | .ended => s

/-- An activity has a number of its own; a signal is claimed by whoever holds it, as often as
it likes; the owned task may be dropped. -/
def step (limit : ℕ) (s : ReceiveTimeout) : Act → ReceiveTimeout
  | .bind => {s with recipient:=true}
  | .activate now => s.activate limit now
  | .close now => s.close limit now
  | .configure timeout asked now => s.configure limit timeout asked now
  | .spawned ok now => s.spawned limit ok now
  | .enter activity now => if activity∈s.live then s else s.enter limit activity now
  | .claim signal activity now =>
    if activity∈s.live ∨ signal∉s.issued then s
    else if s.claims signal then s.enter limit activity now
    else s
  | .drop activity now => if activity∈s.live then s.drop limit activity now else s
  | .notify => if s.notices=0 then s else {s with notices:=s.notices-1,notified:=true}
  | .worker now => s.workerStep now
  | .delivered ok =>
    match s.worker with
    | .delivering _ => {s with worker:=if ok then .loop else .ended}
    | _ => s
  | .abandon => if s.worker=.off then s else {s with worker:=.ended}

def run (limit : ℕ) (s : ReceiveTimeout) (actions : List Act) : ReceiveTimeout := actions.foldl (step limit) s

def disturbs (s : ReceiveTimeout) : Act → Bool
  | .activate _ | .close _ | .configure _ _ _ => true
  | .spawned ok _ => s.starting&&!ok
  | .enter activity _ => activity∉s.live
  | .claim signal activity _ => activity∉s.live&&signal∈s.issued&&s.claims signal
  | .drop activity _ => activity∈s.live
  | .bind | .notify | .worker _ | .delivered _ | .abandon => false

structure Renewed (now : ℕ) (s s' : State) : Prop where
  pending : s'.pending=none
  deadline : ∀ D, s'.deadline=some D → ∃ d, s'.timeout=some d ∧ D=now+d ∧ s'.active=0 ∧ s'.ready=true ∧
    s'.closed=false
  epoch : s'.epoch=s.epoch+1 ∨ s'.epoch=s.epoch ∧ s'.closed=true
  closed : s.closed=true → s'.closed=true
  shut : s'.closed=true → s'.timeout=none ∧ s'.deadline=none

variable {limit : ℕ}

theorem bump_shut {s : State} (h : s.closed=true → s.timeout=none) (hclosed : s.bump.closed=true) :
    s.bump.timeout=none := by
  unfold State.bump at hclosed ⊢
  by_cases hmax : s.epoch<u64Max
  · rw [if_pos hmax] at hclosed ⊢
    exact h hclosed
  · rw [if_neg hmax]

theorem bump_epoch (s : State) : s.bump.epoch=s.epoch+1 ∨ s.bump.epoch=s.epoch ∧ s.bump.closed=true := by
  unfold State.bump
  split
  · exact .inl rfl
  · exact .inr ⟨rfl,rfl⟩

theorem bump_fields (s : State) : s.bump.pending=none ∧ s.bump.deadline=none ∧ s.bump.active=s.active ∧
    s.bump.workerStarted=s.workerStarted ∧ (s.closed=true → s.bump.closed=true) := by
  unfold State.bump
  split
  · exact ⟨rfl,rfl,rfl,rfl,id⟩
  · exact ⟨rfl,rfl,rfl,rfl,fun _ => rfl⟩

@[simp] theorem reset_active (s : State) (now : ℕ) : (s.reset limit now).active=s.active := by
  obtain ⟨-,-,hactive,-⟩:=bump_fields s
  unfold State.reset
  split
  · exact hactive
  · exact hactive

@[simp] theorem reset_workerStarted (s : State) (now : ℕ) : (s.reset limit now).workerStarted=s.workerStarted := by
  obtain ⟨-,-,-,hstarted,-⟩:=bump_fields s
  unfold State.reset
  split
  · exact hstarted
  · exact hstarted

theorem reset_renewed {s s' : State} (now : ℕ) (hepoch : s'.epoch=s.epoch) (hclosed : s.closed=true → s'.closed=true)
    (hshut : s'.closed=true → s'.timeout=none) : Renewed now s (s'.reset limit now) := by
  obtain ⟨hpending,hdeadline,-,-,hkeeps⟩:=bump_fields s'
  have hnext:=bump_epoch s'
  rw [hepoch] at hnext
  unfold State.reset
  by_cases hidle : s'.bump.closed=false ∧ s'.bump.ready=true ∧ s'.bump.active=0
  · rw [if_pos hidle]
    refine ⟨hpending,fun D hD => ?_,hnext,fun h => hkeeps (hclosed h),fun h => ?_⟩
    · obtain ⟨d,hd,hadd⟩:=Option.bind_eq_some_iff.mp hD
      unfold checkedAdd at hadd
      split at hadd
      · exact ⟨d,hd,(Option.some.inj hadd).symm,hidle.2.2,hidle.2.1,hidle.1⟩
      · contradiction
    · change s'.bump.closed=true at h
      simp [hidle.1] at h
  · rw [if_neg hidle]
    exact ⟨hpending,fun D hD => by simp [hdeadline] at hD,hnext,fun h => hkeeps (hclosed h),
      fun h => ⟨bump_shut hshut h,hdeadline⟩⟩

structure Counts (s : ReceiveTimeout) : Prop where
  active : s.state.active=s.live.length
  nodup : s.live.Nodup
  started : s.workers+s.starting.toNat ≤ s.state.workerStarted.toNat

structure Sound (s : ReceiveTimeout) : Prop where
  counts : Counts s
  shut : s.state.closed=true → s.state.timeout=none ∧ s.state.deadline=none
  issued : ∀ e∈s.issued, e ≤ s.state.epoch
  pending : ∀ e, s.state.pending=some e → e=s.state.epoch

theorem new_sound : Sound new where
  counts := ⟨rfl,List.nodup_nil,Nat.zero_le _⟩
  shut := fun h => by simp [new] at h
  issued := fun _ h => by simp [new] at h
  pending := fun _ h => by simp [new] at h

variable {s s' : ReceiveTimeout} {a : Act}

theorem configure_shut (timeout : Option ℕ) (hclosed : s.state.closed=true) :
    (timeout.filter fun _ => !s.state.closed)=none := by
  cases timeout with
  | none => rfl
  | some d => simp [hclosed]

theorem step_disturbs (limit : ℕ) (h : Sound s) (hd : s.disturbs a=true) : ∃ now, a.time=some now ∧ Renewed now
    s.state (s.step limit a).state ∧ (s.step limit a).issued=s.issued ∧ (s.step limit a).worker=s.worker := by
  cases a with
  | activate now => exact ⟨now,rfl,reset_renewed now rfl id fun hc => (h.shut hc).1,rfl,rfl⟩
  | close now => exact ⟨now,rfl,reset_renewed now rfl (fun _ => rfl) (fun _ => rfl),rfl,rfl⟩
  | configure timeout asked now =>
    have hnew : Renewed now s.state (State.reset limit {s.state with
        timeout := (timeout.filter fun d => d≠0 ∧ (checkedAdd limit asked d).isSome).filter fun _ => !s.state.closed} now) :=
      reset_renewed now rfl id (configure_shut _)
    exact ⟨now,rfl,⟨hnew.pending,hnew.deadline,hnew.epoch,hnew.closed,hnew.shut⟩,rfl,rfl⟩
  | spawned ok now =>
    obtain ⟨hstarting,hfailed⟩ : s.starting=true ∧ ok=false := by simpa [disturbs] using hd
    have hstep : s.step limit (.spawned ok now)=({s with starting:=false}).close limit now := by
      simp [step,spawned,hstarting,hfailed]
    rw [hstep]
    exact ⟨now,rfl,reset_renewed now rfl (fun _ => rfl) (fun _ => rfl),rfl,rfl⟩
  | enter activity now =>
    have hfresh : activity∉s.live := by simpa [disturbs] using hd
    simp only [step,if_neg hfresh]
    exact ⟨now,rfl,reset_renewed now rfl id fun hc => (h.shut hc).1,rfl,rfl⟩
  | claim signal activity now =>
    obtain ⟨⟨hfresh,hissued⟩,hclaims⟩ : (activity∉s.live ∧ signal∈s.issued) ∧ s.claims signal=true := by
      simpa [disturbs] using hd
    simp only [step,if_neg (show ¬(activity∈s.live ∨ signal∉s.issued) by simp [hfresh,hissued]),if_pos hclaims]
    exact ⟨now,rfl,reset_renewed now rfl id fun hc => (h.shut hc).1,rfl,rfl⟩
  | drop activity now =>
    have hlive : activity∈s.live := by simpa [disturbs] using hd
    simp only [step,if_pos hlive]
    exact ⟨now,rfl,reset_renewed now rfl id fun hc => (h.shut hc).1,rfl,rfl⟩
  | bind | notify | worker | delivered | abandon => simp [disturbs] at hd

/-- What an undisturbed step does: nothing, or the worker finds the deadline passed, or it
makes the epoch pending. -/
inductive Quiet (a : Act) (s s' : ReceiveTimeout) : Prop
  | stays : s'.state=s.state → s'.issued=s.issued →
      (∀ D e, s'.worker=.expired D e → s.worker=.expired D e) → Quiet a s s'
  | wakes (D e now : ℕ) : a.time=some now → s'.state=s.state → s'.issued=s.issued → D≤now →
      s'.worker=.expired D e → Quiet a s s'
  | fires (D e : ℕ) : s.worker=.expired D e → s.state.epoch=e → s.state.deadline=some D →
      s'.state={s.state with deadline:=none,pending:=some e} → s'.issued=e::s.issued → s'.worker=.delivering e →
      Quiet a s s'

theorem worker_quiet (s : ReceiveTimeout) (now : ℕ) : Quiet (.worker now) s (s.workerStep now) := by
  cases hworker : s.worker with
  | off | ended =>
    simp only [workerStep,hworker]
    exact .stays rfl rfl fun _ _ h => h
  | loop =>
    simp only [workerStep,hworker]
    exact .stays rfl rfl (by simp)
  | enabled =>
    simp only [workerStep,hworker]
    split
    · exact .stays rfl rfl (by simp)
    · split
      · exact .stays rfl rfl (by simp)
      · exact .stays rfl rfl (by simp)
  | waiting | delivering =>
    simp only [workerStep,hworker]
    split
    · exact .stays rfl rfl (by simp)
    · exact .stays rfl rfl fun _ _ h => h
  | sleeping D e =>
    simp only [workerStep,hworker]
    split
    · exact .stays rfl rfl (by simp)
    · split
      · rename_i hle
        exact .wakes D e now rfl rfl rfl hle rfl
      · exact .stays rfl rfl fun _ _ h => h
  | expired D e =>
    simp only [workerStep,hworker]
    by_cases hstale : s.state.closed=true ∨ s.state.epoch≠e ∨ s.state.deadline≠some D
    · rw [if_pos hstale]
      exact .stays rfl rfl (by simp)
    · rw [if_neg hstale]
      simp only [not_or,not_not] at hstale
      exact .fires D e hworker hstale.2.1 hstale.2.2 rfl rfl rfl

theorem step_quiet (limit : ℕ) (hd : s.disturbs a=false) : Quiet a s (s.step limit a) := by
  cases a with
  | activate | close | configure => simp [disturbs] at hd
  | bind => exact .stays rfl rfl fun _ _ h => h
  | spawned ok now =>
    simp only [step,spawned]
    split
    · exact .stays rfl rfl fun _ _ h => h
    · rename_i hstarting
      have hok : ok=true := by simpa [disturbs,hstarting] using hd
      rw [if_pos hok]
      exact .stays rfl rfl (by simp)
  | enter activity now =>
    have hlive : activity∈s.live := by simpa [disturbs] using hd
    simp only [step,if_pos hlive]
    exact .stays rfl rfl fun _ _ h => h
  | claim signal activity now =>
    simp only [step]
    split
    · exact .stays rfl rfl fun _ _ h => h
    · rename_i hfresh
      have hclaims : ¬s.claims signal=true := by
        intro hc
        simp only [not_or,not_not] at hfresh
        simp [disturbs,hfresh,hc] at hd
      rw [if_neg hclaims]
      exact .stays rfl rfl fun _ _ h => h
  | drop activity now =>
    have hlive : ¬activity∈s.live := by simpa [disturbs] using hd
    simp only [step,if_neg hlive]
    exact .stays rfl rfl fun _ _ h => h
  | notify =>
    simp only [step]
    split
    · exact .stays rfl rfl fun _ _ h => h
    · exact .stays rfl rfl fun _ _ h => h
  | worker now => exact worker_quiet s now
  | delivered ok =>
    simp only [step]
    split
    · refine .stays rfl rfl ?_
      cases ok with
      | true | false => simp
    · exact .stays rfl rfl fun _ _ h => h
  | abandon =>
    simp only [step]
    split
    · exact .stays rfl rfl fun _ _ h => h
    · exact .stays rfl rfl (by simp)

theorem Counts.enter (h : Counts s) {activity : ℕ} (now : ℕ) (hfresh : activity∉s.live) :
    Counts (s.enter limit activity now) := by
  refine ⟨?_,List.nodup_cons.mpr ⟨hfresh,h.nodup⟩,?_⟩
  · simpa [ReceiveTimeout.enter,change] using h.active
  · simpa [ReceiveTimeout.enter,change] using h.started

theorem Counts.configure (h : Counts s) (timeout : Option ℕ) (asked now : ℕ) :
    Counts (s.configure limit timeout asked now) := by
  have hstarted:=h.started
  refine ⟨?_,h.nodup,?_⟩
  · simpa [ReceiveTimeout.configure,change] using h.active
  · simp only [ReceiveTimeout.configure,change,reset_workerStarted]
    cases hw : s.state.workerStarted with
    | true =>
      rw [hw] at hstarted
      simpa using hstarted
    | false =>
      obtain ⟨hnone,hnot⟩ : s.workers=0 ∧ s.starting=false := by simpa [hw] using hstarted
      simp [hnone,hnot]

theorem workerStep_counts (h : Counts s) (now : ℕ) : Counts (s.workerStep now) := by
  unfold workerStep
  repeat' split
  all_goals exact ⟨h.active,h.nodup,h.started⟩

theorem step_counts (limit : ℕ) (h : Counts s) (a : Act) : Counts (s.step limit a) := by
  cases a with
  | bind => exact ⟨h.active,h.nodup,h.started⟩
  | activate now =>
    exact ⟨by simpa [step,activate,change] using h.active,h.nodup,by simpa [step,activate,change] using h.started⟩
  | close now =>
    exact ⟨by simpa [step,close,change] using h.active,h.nodup,by simpa [step,close,change] using h.started⟩
  | configure timeout asked now => exact h.configure timeout asked now
  | spawned ok now =>
    have hstarted:=h.started
    simp only [step,spawned]
    split
    · exact h
    · rename_i hstarting
      simp only [Bool.not_eq_false] at hstarting
      rw [hstarting] at hstarted
      split
      · exact ⟨h.active,h.nodup,hstarted⟩
      · refine ⟨by simpa [close,change] using h.active,h.nodup,?_⟩
        simp only [close,change,reset_workerStarted,Bool.toNat_false,Bool.toNat_true] at hstarted ⊢
        omega
  | enter activity now =>
    simp only [step]
    split
    · exact h
    · rename_i hfresh
      exact h.enter now hfresh
  | claim signal activity now =>
    simp only [step]
    split
    · exact h
    · rename_i hfresh
      split
      · exact h.enter now fun hc => hfresh (.inl hc)
      · exact h
  | drop activity now =>
    simp only [step]
    split
    · rename_i hlive
      refine ⟨?_,h.nodup.erase activity,by simpa [drop,change] using h.started⟩
      simp [drop,change,h.active,List.length_erase_of_mem hlive]
    · exact h
  | notify | abandon =>
    simp only [step]
    split
    · exact h
    · exact ⟨h.active,h.nodup,h.started⟩
  | worker now => exact workerStep_counts h now
  | delivered ok =>
    simp only [step]
    split
    · exact ⟨h.active,h.nodup,h.started⟩
    · exact h

theorem step_sound (limit : ℕ) (h : Sound s) (a : Act) : Sound (s.step limit a) := by
  have hcounts:=step_counts limit h.counts a
  cases hd : s.disturbs a with
  | true =>
    obtain ⟨now,-,hnew,hissued,-⟩:=step_disturbs limit h hd
    refine ⟨hcounts,hnew.shut,fun e he => ?_,fun e he => ?_⟩
    · rw [hissued] at he
      have hle:=h.issued e he
      cases hnew.epoch with
      | inl | inr => omega
    · rw [hnew.pending] at he
      contradiction
  | false =>
    cases step_quiet limit hd with
    | stays hstate hissued _ =>
      refine ⟨hcounts,?_,?_,?_⟩
      · rw [hstate]
        exact h.shut
      · rw [hstate,hissued]
        exact h.issued
      · rw [hstate]
        exact h.pending
    | wakes D e now _ hstate hissued _ _ =>
      refine ⟨hcounts,?_,?_,?_⟩
      · rw [hstate]
        exact h.shut
      · rw [hstate,hissued]
        exact h.issued
      · rw [hstate]
        exact h.pending
    | fires D e _ hepoch _ hstate hissued _ =>
      refine ⟨hcounts,?_,?_,?_⟩
      · rw [hstate]
        exact fun hc => ⟨(h.shut hc).1,rfl⟩
      · rw [hstate,hissued]
        intro e' he'
        cases List.mem_cons.mp he' with
        | inl hself => exact Nat.le_of_eq (hself.trans hepoch.symm)
        | inr hold => exact h.issued e' hold
      · rw [hstate]
        intro e' he'
        exact (Option.some.inj he').symm.trans hepoch.symm

theorem run_sound (limit : ℕ) (h : Sound s) (actions : List Act) : Sound (s.run limit actions) := by
  induction actions generalizing s with
  | nil => exact h
  | cons a actions ih => exact ih (step_sound _ h a)

theorem run_append (s : ReceiveTimeout) (before after : List Act) :
    s.run limit (before++after)=(s.run limit before).run limit after := List.foldl_append

theorem step_closed (h : Sound s) (hclosed : s.state.closed=true) (a : Act) : (s.step limit a).state.closed=true := by
  cases hd : s.disturbs a with
  | true =>
    obtain ⟨now,-,hnew,-⟩:=step_disturbs limit h hd
    exact hnew.closed hclosed
  | false =>
    cases step_quiet limit hd with
    | stays hstate | wakes _ _ _ _ hstate =>
      rw [hstate]
      exact hclosed
    | fires D e _ _ hdeadline =>
      rw [(h.shut hclosed).2] at hdeadline
      contradiction

theorem run_closed (limit : ℕ) (h : Sound s) (hclosed : s.state.closed=true) (actions : List Act) :
    (s.run limit actions).state.closed=true := by
  induction actions generalizing s with
  | nil => exact hclosed
  | cons a actions ih => exact ih (step_sound _ h a) (step_closed h hclosed a)

theorem claims_iff (s : ReceiveTimeout) (e : ℕ) :
    s.claims e=true ↔ s.state.closed=false ∧ s.state.active=0 ∧ s.state.pending=some e := by
  simp [claims,and_assoc]

theorem step_epoch (h : Sound s) (a : Act) : s.state.epoch≤(s.step limit a).state.epoch := by
  cases hd : s.disturbs a with
  | true =>
    obtain ⟨now,-,hnew,-⟩:=step_disturbs limit h hd
    cases hnew.epoch with
    | inl | inr => omega
  | false =>
    cases step_quiet limit hd with
    | stays hstate | wakes _ _ _ _ hstate => exact Nat.le_of_eq (congrArg State.epoch hstate).symm
    | fires D e _ _ _ hstate => exact Nat.le_of_eq (congrArg State.epoch hstate).symm

theorem run_epoch (limit : ℕ) (h : Sound s) (actions : List Act) : s.state.epoch≤(s.run limit actions).state.epoch := by
  induction actions generalizing s with
  | nil => exact Nat.le_refl _
  | cons a actions ih => exact Nat.le_trans (step_epoch h a) (ih (step_sound _ h a))

theorem claimed_epoch (h : Sound s) {e : ℕ} (he : e∈s.issued) {more : List Act}
    (hclaims : (s.run limit more).claims e=true) : e=s.state.epoch := by
  have hpending:=((claims_iff _ e).mp hclaims).2.2
  have hnow:=(run_sound _ h more).pending e hpending
  have hgrown:=run_epoch limit h more
  have hold:=h.issued e he
  omega

theorem claimed_once (h : Sound s) {e activity now : ℕ} (hissued : e∈s.issued) (hfresh : activity∉s.live)
    (hclaims : s.claims e=true) (more : List Act) :
    ((s.step limit (.claim e activity now)).run limit more).claims e=false := by
  have hnext:=step_sound limit h (.claim e activity now)
  obtain ⟨now',-,hnew,-⟩:=step_disturbs limit h (a := .claim e activity now)
    (by simp [disturbs,hissued,hfresh,hclaims])
  rw [← Bool.not_eq_true]
  intro hagain
  obtain ⟨hopen,-,hpending⟩:=(claims_iff _ e).mp hagain
  cases hnew.epoch with
  | inl hgrown =>
    have hnow:=(run_sound _ hnext more).pending e hpending
    have hlater:=run_epoch limit hnext more
    have hold:=h.issued e hissued
    omega
  | inr hlast =>
    rw [run_closed _ hnext hlast.2] at hopen
    contradiction

/-- From `s` on, no activity is live, the timeout is `d` and no action ends the interval. -/
def Idles (limit d : ℕ) (s : ReceiveTimeout) : List Act → Prop
  | [] => s.live=[] ∧ s.state.timeout=some d
  | a::actions => s.live=[] ∧ s.state.timeout=some d ∧ s.disturbs a=false ∧ Idles limit d (s.step limit a) actions

/-- The deadline of the interval was armed at `t` for the timeout `d`. -/
def Since (limit : ℕ) (actions : List Act) (t d : ℕ) : Prop :=
  ∃ before a after, actions=before++a::after ∧ a.time=some t ∧
    ((new.run limit before).step limit a).state.deadline=some (t+d) ∧
    Idles limit d ((new.run limit before).step limit a) after

theorem quiet_idle (h : Sound s) (hd : s.disturbs a=false) {d : ℕ} (hlive : s.live=[])
    (htimeout : s.state.timeout=some d) : (s.step limit a).live=[] ∧ (s.step limit a).state.timeout=some d := by
  have hnone:=(step_counts limit h.counts a).active
  have hzero : s.state.active=0 := by rw [h.counts.active,hlive,List.length_nil]
  cases step_quiet limit hd with
  | stays hstate | wakes _ _ _ _ hstate | fires _ _ _ _ _ hstate =>
    rw [hstate] at hnone ⊢
    exact ⟨List.eq_nil_of_length_eq_zero (hnone.symm.trans hzero),htimeout⟩

variable {actions : List Act}

theorem Idles.append {d : ℕ} (h : Idles limit d s actions) (hsound : Sound s)
    (hd : (s.run limit actions).disturbs a=false) : Idles limit d s (actions++[a]) := by
  induction actions generalizing s with
  | nil => exact ⟨h.1,h.2,hd,quiet_idle hsound hd h.1 h.2⟩
  | cons b actions ih => exact ⟨h.1,h.2.1,h.2.2.1,ih h.2.2.2 (step_sound _ hsound b) hd⟩

theorem Since.append {t d : ℕ} (h : Since limit actions t d)
    (hd : (new.run limit actions).disturbs a=false) : Since limit (actions++[a]) t d := by
  obtain ⟨before,b,after,rfl,htime,hdeadline,hidle⟩:=h
  refine ⟨before,b,after++[a],by simp,htime,hdeadline,hidle.append ?_ ?_⟩
  · exact step_sound _ (run_sound _ new_sound before) b
  · rw [run_append] at hd
    exact hd

structure Armed (limit last : ℕ) (actions : List Act) : Prop where
  deadline : ∀ D, (new.run limit actions).state.deadline=some D → ∃ t d, Since limit actions t d ∧ D=t+d
  pending : ∀ e, (new.run limit actions).state.pending=some e → ∃ t d, Since limit actions t d ∧ t+d≤last
  expired : ∀ D e, (new.run limit actions).worker=.expired D e → D≤last

theorem new_armed (limit : ℕ) : Armed limit 0 [] where
  deadline := fun _ h => by simp [run,new] at h
  pending := fun _ h => by simp [run,new] at h
  expired := fun _ _ h => by simp [run,new] at h

theorem step_armed {last : ℕ} (h : Armed limit last actions)
    (hclock : ∀ now, a.time=some now → last≤now) : Armed limit (a.time.getD last) (actions++[a]) := by
  have hsound : Sound (new.run limit actions) := run_sound _ new_sound actions
  have hlast : last≤a.time.getD last := by
    cases htime : a.time with
    | none => exact Nat.le_refl _
    | some now => exact hclock now htime
  have hrun : new.run limit (actions++[a])=(new.run limit actions).step limit a := by
    rw [run_append]
    rfl
  cases hd : (new.run limit actions).disturbs a with
  | true =>
    obtain ⟨now,htime,hnew,-,hworker⟩:=step_disturbs limit hsound hd
    refine ⟨fun D hD => ?_,fun e he => ?_,fun D e hexp => ?_⟩
    · rw [hrun] at hD
      obtain ⟨d,htimeout,rfl,hactive,-,-⟩:=hnew.deadline D hD
      have hlive:=(step_counts limit hsound.counts a).active
      rw [hactive] at hlive
      exact ⟨now,d,⟨actions,a,[],rfl,htime,hD,List.eq_nil_of_length_eq_zero hlive.symm,htimeout⟩,rfl⟩
    · rw [hrun,hnew.pending] at he
      contradiction
    · rw [hrun,hworker] at hexp
      exact Nat.le_trans (h.expired D e hexp) hlast
  | false =>
    have hsince : ∀ t d, Since limit actions t d → Since limit (actions++[a]) t d := fun t d hs => hs.append hd
    have hsame : (new.run limit (actions++[a])).state=(new.run limit actions).state →
        (∀ D, (new.run limit (actions++[a])).state.deadline=some D → ∃ t d, Since limit (actions++[a]) t d ∧ D=t+d) ∧
        ∀ e, (new.run limit (actions++[a])).state.pending=some e →
          ∃ t d, Since limit (actions++[a]) t d ∧ t+d≤a.time.getD last := by
      intro hstate
      refine ⟨fun D hD => ?_,fun e he => ?_⟩
      · rw [hstate] at hD
        obtain ⟨t,d,hs,heq⟩:=h.deadline D hD
        exact ⟨t,d,hsince t d hs,heq⟩
      · rw [hstate] at he
        obtain ⟨t,d,hs,hle⟩:=h.pending e he
        exact ⟨t,d,hsince t d hs,Nat.le_trans hle hlast⟩
    cases step_quiet limit hd with
    | stays hstate _ hexpired =>
      rw [← hrun] at hstate hexpired
      exact ⟨(hsame hstate).1,(hsame hstate).2,fun D e hexp => Nat.le_trans (h.expired D e (hexpired D e hexp)) hlast⟩
    | wakes D e now htime hstate _ hle hwoken =>
      rw [← hrun] at hstate hwoken
      refine ⟨(hsame hstate).1,(hsame hstate).2,fun D' e' hexp => ?_⟩
      cases hwoken.symm.trans hexp
      rw [htime]
      exact hle
    | fires D e hexp _ hdeadline hstate _ hworker =>
      rw [← hrun] at hstate hworker
      refine ⟨fun D' hD' => ?_,fun e' _ => ?_,fun D' e' hexp' => ?_⟩
      · simp [hstate] at hD'
      · obtain ⟨t,d,hs,heq⟩:=h.deadline D hdeadline
        exact ⟨t,d,hsince t d hs,heq ▸ Nat.le_trans (h.expired D e hexp) hlast⟩
      · simp [hworker] at hexp'

theorem run_armed (hclock : (actions.filterMap Act.time).Pairwise (·≤·)) {last : ℕ}
    (hlast : ∀ t∈actions.filterMap Act.time, t≤last) : Armed limit last actions := by
  induction actions using List.reverseRecOn generalizing last with
  | nil =>
    have h:=new_armed limit
    exact ⟨h.deadline,fun e he => by simp [run,new] at he,fun D e he => by simp [run,new] at he⟩
  | append_singleton actions a ih =>
    rw [List.filterMap_append] at hclock hlast
    obtain ⟨hbefore,-,hcross⟩:=List.pairwise_append.mp hclock
    cases htime : a.time with
    | none =>
      have h:=step_armed (a := a) (ih hbefore fun t ht => hlast t (List.mem_append_left _ ht))
        (fun now hnow => by simp [htime] at hnow)
      rw [htime] at h
      exact h
    | some now =>
      have hmem : now∈[a].filterMap Act.time := by simp [htime]
      have hbound : Armed limit now actions := ih hbefore fun t ht => hcross t ht now hmem
      have h:=step_armed (a := a) hbound
        (fun now' hnow' => by
          rw [htime] at hnow'
          exact Nat.le_of_eq (Option.some.inj hnow'))
      rw [htime] at h
      have hle:=hlast now (List.mem_append_right _ hmem)
      refine ⟨h.deadline,fun e he => ?_,fun D e he => Nat.le_trans (h.expired D e he) hle⟩
      obtain ⟨t,d,hs,hpast⟩:=h.pending e he
      exact ⟨t,d,hs,Nat.le_trans hpast hle⟩

end ReceiveTimeout

open ReceiveTimeout

/-- For every order of configurations, activations, activities, wake-ups, signals, claims and
closings, on a clock that does not go back: a claim comes after an idle interval of the timeout
then configured, a signal is claimed once at most and no two can be, the activities are counted,
a closed clock stays closed, and one worker is started. -/
theorem fires_after_idleness (limit : ℕ) (actions : List Act) (now : ℕ)
    (hclock : (actions.filterMap Act.time++[now]).Pairwise (·≤·)) :
    let s:=new.run limit actions
    (∀ e, s.claims e=true → ∃ t d, Since limit actions t d ∧ t+d≤now) ∧
    (∀ e activity, e∈s.issued → activity∉s.live → s.claims e=true → ∀ more,
      ((s.step limit (.claim e activity now)).run limit more).claims e=false) ∧
    (∀ e∈s.issued, ∀ e'∈s.issued, ∀ more more', (s.run limit more).claims e=true →
      (s.run limit more').claims e'=true → e=e') ∧
    (s.state.active=s.live.length ∧ s.live.Nodup) ∧
    (s.state.closed=true → ∀ more, (s.run limit more).get=none ∧ (s.run limit more).state.deadline=none ∧
      ∀ e, (s.run limit more).claims e=false) ∧
    s.workers≤1 := by
  intro s
  have h : Sound s := run_sound _ new_sound actions
  obtain ⟨hreads,-,hcross⟩:=List.pairwise_append.mp hclock
  have harmed : Armed limit now actions := run_armed hreads fun t ht => hcross t ht now (List.mem_cons_self ..)
  refine ⟨fun e hclaims => harmed.pending e ((claims_iff s e).mp hclaims).2.2,
    fun e activity hissued hfresh hclaims more => claimed_once h hissued hfresh hclaims more,
    fun e he e' he' more more' hone htwo => (claimed_epoch h he hone).trans (claimed_epoch h he' htwo).symm,
    ⟨h.counts.active,h.counts.nodup⟩,fun hclosed more => ?_,?_⟩
  · have hlater:=run_closed limit h hclosed more
    have hshut:=(run_sound limit h more).shut hlater
    refine ⟨hshut.1,hshut.2,fun e => ?_⟩
    simp [claims,hlater]
  · have hstarted:=h.counts.started
    have hone : s.state.workerStarted.toNat≤1 := Bool.toNat_le _
    omega

def idleRun : List Act :=
  [.bind,.configure (some 20) 0 0,.spawned true 0,.activate 1,.enter 7 2,.drop 7 3,.worker 4,.worker 4,.worker 23,.worker 23]

theorem fires_after_idleness_at_30 :
    (new.run 1000 idleRun).claims 4=true ∧ ∃ t d, Since 1000 idleRun t d ∧ t+d≤30 := by
  have hclaims : (new.run 1000 idleRun).claims 4=true := by decide
  exact ⟨hclaims,(fires_after_idleness 1000 idleRun 30 (by decide)).1 4 hclaims⟩

end Parrot.Idle
