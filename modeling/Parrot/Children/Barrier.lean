import Mathlib.Data.List.Perm.Subperm
import Mathlib.Order.Nat
import Parrot.Children.Recovery

/-! # The barrier commits or aborts once

Up to the last arrival the epoch counts votes; then one call of `arrive` carries the
publications, the release and the opening of the gate. -/

namespace Parrot.Children
open Function (update_self update_of_ne)
open List (range)
namespace Recovery

variable {r : Recovery}

theorem abort_cases (r : Recovery) (error : String) : r.abort error=r ∨
    (r.committed=false ∧ r.error=none ∧
      r.abort error={r with error:=some error,cancelled:=true,progress:=.aborted error}) := by
  unfold abort
  split
  · exact .inl rfl
  · rename_i h
    rw [Bool.or_eq_true,not_or,Bool.not_eq_true,Option.isSome_iff_ne_none,not_not] at h
    exact .inr ⟨h.1,h.2,rfl⟩

def counted (r : Recovery) (member : Uuid) (step : Step) : Recovery :=
  {r with next:=Function.update r.next member (r.next member+1),arrivals:=r.arrivals++[(member,step)]}

inductive Arrives (r : Recovery) (member : Uuid) (step : Step) : Recovery × Stage → Prop where
  | late {error} : r.error=some error → Arrives r member step (r,.done (.error error))
  | refused {error} : r.error=none → Arrives r member step (r,.refused error)
  | counted : r.error=none → member∈r.members → r.next member=r.phase → r.phase=step.index →
      (∃ m∈r.members, (r.counted member step).next m ≤ r.phase) →
      Arrives r member step (r.counted member step,.waiting)
  | advanced : r.error=none → member∈r.members → r.next member=r.phase → r.phase=step.index →
      (∀ m∈r.members, r.phase<(r.counted member step).next m) → step ≠ .published →
      Arrives r member step ({r.counted member step with phase:=r.phase+1,progress:=.phase (r.phase+1)},.waiting)
  | committed : r.error=none → member∈r.members → r.next member=r.phase → r.phase=step.index →
      (∀ m∈r.members, r.phase<(r.counted member step).next m) → step=.published →
      Arrives r member step ({r.counted member step with phase:=r.phase+1,committed:=true},.take)

theorem arrive_arrives (r : Recovery) (member : Uuid) (step : Step) (expired : Bool) :
    Arrives r member step (r.arrive member step expired) := by
  unfold arrive
  split
  · exact .late ‹_›
  · rename_i herr
    split
    · exact .refused herr
    · split
      · exact .refused herr
      · rename_i hvalid
        rw [not_or,not_not,not_not] at hvalid
        obtain ⟨hphase,hmem,hnext⟩:=hvalid
        have hnext : r.next member=r.phase := hnext.trans hphase.symm
        dsimp only
        split
        · rename_i hall
          split
          · exact .committed herr hmem hnext hphase hall ‹_›
          · exact .advanced herr hmem hnext hphase hall ‹_›
        · rename_i hall
          push Not at hall
          exact .counted herr hmem hnext hphase hall

/-- Everybody is in the phase or one vote ahead, and somebody is still to vote until
the last phase is over. -/
structure Votes (r : Recovery) : Prop where
  inhabited : ∃ m, m∈r.members
  nodup : r.members.Nodup
  low : ∀ m∈r.members, r.phase ≤ r.next m
  high : ∀ m∈r.members, r.next m ≤ r.phase+1
  missing : r.phase<3 → ∃ m∈r.members, r.next m=r.phase
  last : r.phase≤3
  top : ∀ m∈r.members, r.next m≤3
  committed : r.committed=true ↔ r.phase=3
  arrived : ∀ m s, (m,s)∈r.arrivals ↔ m∈r.members ∧ s.index < r.next m
  ordered : r.arrivals.Pairwise fun a b => a.2.index≤b.2.index
  exclusive : r.committed=true → r.error=none
  shown : ∀ n, r.progress=.phase n → n ≤ r.phase

theorem new_votes {ids : List Uuid} (h : ids≠[]) : Votes (new ids) where
  inhabited := by
    obtain ⟨m,l,rfl⟩:=List.exists_cons_of_ne_nil h
    exact ⟨m,List.mem_dedup.mpr (List.mem_cons_self ..)⟩
  nodup := List.nodup_dedup ids
  low := fun _ _ => Nat.le_refl 0
  high := fun _ _ => Nat.zero_le 1
  missing := fun _ => by
    obtain ⟨m,l,rfl⟩:=List.exists_cons_of_ne_nil h
    exact ⟨m,List.mem_dedup.mpr (List.mem_cons_self ..),rfl⟩
  last := Nat.zero_le 3
  top := fun _ _ => Nat.zero_le 3
  committed := by simp [new]
  arrived := by simp [new]
  ordered := List.Pairwise.nil
  exclusive := by simp [new]
  shown := fun n hn => by
    cases hn
    exact Nat.le_refl 0

def core (r : Recovery) : List Uuid × (Uuid → ℕ) × ℕ × Bool × List (Uuid × Step) × Option String × Progress :=
  (r.members,r.next,r.phase,r.committed,r.arrivals,r.error,r.progress)

theorem Votes.congr (h : Votes r) {r' : Recovery} (hcore : r'.core=r.core) : Votes r' := by
  cases r
  cases r'
  cases hcore
  exact ⟨h.inhabited,h.nodup,h.low,h.high,h.missing,h.last,h.top,h.committed,h.arrived,h.ordered,h.exclusive,h.shown⟩

theorem counted_self (r : Recovery) (member : Uuid) (step : Step) :
    (r.counted member step).next member=r.next member+1 := update_self ..

theorem counted_other (r : Recovery) {member m : Uuid} (step : Step) (h : m≠member) :
    (r.counted member step).next m=r.next m := update_of_ne h ..

theorem Votes.uncommitted (h : Votes r) (hphase : r.phase<3) : r.committed=false := by
  rw [← Bool.not_eq_true,h.committed]
  exact Nat.ne_of_lt hphase

section counting
variable {member : Uuid} {step : Step}

theorem counted_le (r : Recovery) (member : Uuid) (step : Step) (m : Uuid) :
    r.next m≤(r.counted member step).next m := by
  by_cases hm : m=member
  · subst hm
    rw [counted_self]
    exact Nat.le_succ _
  · rw [counted_other r step hm]

theorem counted_high (step : Step) (h : Votes r) (hnext : r.next member=r.phase) {m : Uuid} (hm : m∈r.members) :
    (r.counted member step).next m ≤ r.phase+1 := by
  by_cases heq : m=member
  · subst heq
    rw [counted_self,hnext]
  · rw [counted_other r step heq]
    exact h.high m hm

theorem counted_top (h : Votes r) (hnext : r.next member=r.phase) (hphase : r.phase=step.index) {m : Uuid}
    (hm : m∈r.members) : (r.counted member step).next m≤3 := by
  have hhigh:=counted_high step h hnext hm
  have hlt:=step.index_lt
  omega

theorem counted_arrived (h : Votes r) (hmem : member∈r.members) (hnext : r.next member=r.phase)
    (hphase : r.phase=step.index) (m : Uuid) (s : Step) :
    (m,s)∈(r.counted member step).arrivals ↔ m∈r.members ∧ s.index<(r.counted member step).next m := by
  have hold:=h.arrived m s
  show (m,s)∈r.arrivals++[(member,step)] ↔ _
  rw [List.mem_append,List.mem_singleton,Prod.mk.injEq,hold]
  by_cases hm : m=member
  · subst hm
    rw [counted_self]
    constructor
    · intro hor
      cases hor with
      | inl hin => exact ⟨hmem,by omega⟩
      | inr heq =>
        obtain ⟨-,rfl⟩:=heq
        exact ⟨hmem,by omega⟩
    · intro hin
      by_cases hs : s=step
      · exact .inr ⟨rfl,hs⟩
      · have hne : s.index≠step.index := fun heq => hs (Step.index_inj heq)
        exact .inl ⟨hmem,by omega⟩
  · rw [counted_other r step hm]
    exact ⟨fun hor => hor.resolve_right fun heq => hm heq.1,.inl⟩

theorem counted_ordered (h : Votes r) (hphase : r.phase=step.index) :
    (r.counted member step).arrivals.Pairwise fun a b => a.2.index≤b.2.index := by
  refine List.pairwise_append.mpr ⟨h.ordered,List.pairwise_singleton ..,fun a ha b hb => ?_⟩
  obtain rfl:=List.mem_singleton.mp hb
  have hlt:=((h.arrived a.1 a.2).mp ha).2
  have hhigh:=h.high a.1 ((h.arrived a.1 a.2).mp ha).1
  show a.2.index ≤ step.index
  omega

theorem counted_votes (h : Votes r) (herr : r.error=none) (hmem : member∈r.members)
    (hnext : r.next member=r.phase) (hphase : r.phase=step.index)
    (hmissing : ∃ m∈r.members, (r.counted member step).next m ≤ r.phase) : Votes (r.counted member step) where
  inhabited := h.inhabited
  nodup := h.nodup
  low := fun m hm => (h.low m hm).trans (counted_le r member step m)
  high := fun m hm => counted_high step h hnext hm
  missing := fun _ => by
    obtain ⟨m,hm,hle⟩:=hmissing
    exact ⟨m,hm,le_antisymm hle ((h.low m hm).trans (counted_le r member step m))⟩
  last := h.last
  top := fun m hm => counted_top h hnext hphase hm
  committed := h.committed
  arrived := counted_arrived h hmem hnext hphase
  ordered := counted_ordered h hphase
  exclusive := fun _ => herr
  shown := h.shown

theorem advanced_votes (h : Votes r) (herr : r.error=none) (hmem : member∈r.members)
    (hnext : r.next member=r.phase) (hphase : r.phase=step.index)
    (hall : ∀ m∈r.members, r.phase<(r.counted member step).next m) {done : Bool} {shown : Progress}
    (hdone : done=true ↔ r.phase+1=3) (hshown : ∀ n, shown=.phase n → n ≤ r.phase+1) :
    Votes {r.counted member step with phase:=r.phase+1,committed:=done,progress:=shown} where
  inhabited := h.inhabited
  nodup := h.nodup
  low := hall
  high := fun m hm => (counted_high step h hnext hm).trans (Nat.le_succ _)
  missing := fun _ => by
    obtain ⟨m,hm⟩:=h.inhabited
    exact ⟨m,hm,le_antisymm (counted_high step h hnext hm) (hall m hm)⟩
  last := by
    have hlt:=step.index_lt
    show r.phase+1≤3
    omega
  top := fun m hm => counted_top h hnext hphase hm
  committed := hdone
  arrived := counted_arrived h hmem hnext hphase
  ordered := counted_ordered h hphase
  exclusive := fun _ => herr
  shown := hshown

end counting

theorem arrive_votes (h : Votes r) {member : Uuid} {step : Step} {out : Recovery × Stage}
    (harrives : Arrives r member step out) : Votes out.1 := by
  cases harrives with
  | late | refused => exact h
  | counted herr hmem hnext hphase hmissing => exact counted_votes h herr hmem hnext hphase hmissing
  | advanced herr hmem hnext hphase hall hstep =>
    have hne : step.index≠2 := fun heq => hstep (Step.index_eq_two.mp heq)
    have hlt:=step.index_lt
    refine advanced_votes h herr hmem hnext hphase hall ?_ (fun n hn => ?_)
    · show r.committed=true ↔ r.phase+1=3
      rw [h.committed]
      omega
    · cases hn
      exact le_rfl
  | committed herr hmem hnext hphase hall hstep =>
    have htwo:=Step.index_eq_two.mpr hstep
    refine advanced_votes h herr hmem hnext hphase hall ?_ (fun n hn => ?_)
    · exact ⟨fun _ => by omega,fun _ => rfl⟩
    · exact (h.shown n hn).trans (Nat.le_succ _)

theorem abort_votes (h : Votes r) (error : String) : Votes (r.abort error) := by
  cases abort_cases r error with
  | inl heq =>
    rw [heq]
    exact h
  | inr habort =>
    obtain ⟨hopen,-,heq⟩:=habort
    rw [heq]
    refine ⟨h.inhabited,h.nodup,h.low,h.high,h.missing,h.last,h.top,h.committed,h.arrived,h.ordered,?_,?_⟩
    · intro hc
      rw [hopen] at hc
      exact absurd hc (by decide)
    · intro n hn
      cases hn

def Silent (r : Recovery) : Prop := r.called=[] ∧ r.returned=[] ∧ r.release=true

def Retired (r : Recovery) : Prop := r.error.isSome=true ∧ ∀ m∈r.members, m∈r.finished

def Called (r : Recovery) (committed : Bool) : Prop :=
  r.called=[committed] ∧ r.release=false ∧ if committed then r.committed=true else r.Retired

def AllRan (r : Recovery) : Prop := r.ran=range r.registered

def Reached (r : Recovery) (step : Step) : Stage → Prop
  | .take => r.ran=[] ∧ r.publications=range r.registered ∧ r.Silent
  | .publish left => r.ran++left=range r.registered ∧ r.Silent
  | .release => r.AllRan ∧ r.Silent
  | .callback => r.AllRan ∧ r.Called true ∧ r.returned=[]
  | .activate => r.AllRan ∧ r.Called true ∧ r.returned=[true]
  | .done (.ok ()) => ∀ m∈r.members, step.index < r.next m
  | .done (.error _) | .refused _ | .waiting | .dropped => True

end Recovery

def Stage.committing : Stage → Bool
  | .take | .publish _ | .release | .callback | .activate => true
  | .refused _ | .waiting | .done _ | .dropped => false

namespace Recovery
variable {r : Recovery}

structure Gate (r : Recovery) : Prop where
  solo : ∀ i j a b, r.tasks i=some a → r.tasks j=some b → a.stage.committing=true → b.stage.committing=true → i=j
  owner : ∀ i a, r.tasks i=some a → a.stage.committing=true → r.committed=true ∧ r.progress ≠ .active
  stage : ∀ i a, r.tasks i=some a → r.Reached a.step a.stage
  quiet : r.committed=false → r.ran=[] ∧ r.publications=range r.registered
  released : r.Silent ∨ ∃ b, r.Called b
  active : r.progress=.active → r.AllRan ∧ r.Called true ∧ r.returned=[true]
  told : .ok ()∈r.activations → r.progress=.active
  retiring : ∀ i p, r.retirements i=some p → p ≠ .done → r.Retired
  answering : ∀ i, r.retirements i=some .callback → r.release=false ∧ r.returned=[]
  sole : ∀ i j, r.retirements i=some .callback → r.retirements j=some .callback → i=j
  members : r.finished.Nodup ∧ ∀ m∈r.finished, m∈r.members

theorem new_gate (ids : List Uuid) : Gate (new ids) where
  solo := fun _ _ _ _ ha => by cases ha
  owner := fun _ _ ha => by cases ha
  stage := fun _ _ ha => by cases ha
  quiet := fun _ => ⟨rfl,rfl⟩
  released := .inl ⟨rfl,rfl,rfl⟩
  active := fun h => by cases h
  told := fun h => by cases h
  retiring := fun _ _ hp => by cases hp
  answering := fun _ hp => by cases hp
  sole := fun _ _ hp => by cases hp
  members := ⟨List.nodup_nil,fun _ hm => by cases hm⟩

def gate (r : Recovery) : List Uuid × List Uuid × Bool × Bool × List ℕ × (ℕ → Option Arrival) ×
    (ℕ → Option Retirement) × ℕ × List ℕ × List Bool × List Bool × List (Except String Unit) :=
  (r.members,r.finished,r.committed,r.release,r.publications,r.tasks,r.retirements,r.registered,r.ran,r.called,
    r.returned,r.activations)

variable {r' : Recovery}

theorem Reached.frame (hgate : r'.gate=r.gate) (hnext : ∀ m, r.next m ≤ r'.next m) (herr : r.error.isSome=true →
    r'.error.isSome=true) {step : Step} {stage : Stage} (h : r.Reached step stage) : r'.Reached step stage := by
  cases r
  cases r'
  cases hgate
  cases stage with
  | done result =>
    cases result with
    | ok u => exact fun m hm => lt_of_lt_of_le (h m hm) (hnext m)
    | error e => trivial
  | take | publish | release | callback | activate => exact h
  | refused | waiting | dropped => trivial

theorem Gate.frame (h : Gate r) (hgate : r'.gate=r.gate) (hnext : ∀ m, r.next m ≤ r'.next m)
    (herr : r.error.isSome=true → r'.error.isSome=true) (hprog : r'.progress=.active ↔ r.progress=.active) :
    Gate r' := by
  have hstage : ∀ {step stage}, r.Reached step stage → r'.Reached step stage := Reached.frame hgate hnext herr
  cases r
  cases r'
  cases hgate
  refine ⟨h.solo,fun i a ha hc => ?_,fun i a ha => hstage (h.stage i a ha),h.quiet,?_,fun hact => ?_,fun hok => ?_,
    fun i p hp hne => ?_,h.answering,h.sole,h.members⟩
  · obtain ⟨hcom,hne⟩:=h.owner i a ha hc
    exact ⟨hcom,fun hact => hne (hprog.mp hact)⟩
  · cases h.released with
    | inl hsilent => exact .inl hsilent
    | inr hcalled =>
      obtain ⟨b,hcall,hrel,hwhy⟩:=hcalled
      refine .inr ⟨b,hcall,hrel,?_⟩
      cases b with
      | true => exact hwhy
      | false => exact ⟨herr hwhy.1,hwhy.2⟩
  · exact h.active (hprog.mp hact)
  · exact hprog.mpr (h.told hok)
  · obtain ⟨hsome,hall⟩:=h.retiring i p hp hne
    exact ⟨herr hsome,hall⟩

theorem tasks_setTask {i j : ℕ} {a b : Arrival} (h : (r.setTask i a).tasks j=some b) :
    j=i ∧ b=a ∨ j≠i ∧ r.tasks j=some b := by
  change Function.update r.tasks i (some a) j=some b at h
  by_cases hj : j=i
  · rw [hj,update_self] at h
    exact .inl ⟨hj,(Option.some.inj h).symm⟩
  · rw [update_of_ne hj] at h
    exact .inr ⟨hj,h⟩

variable {i : ℕ} {a : Arrival}

theorem Gate.setTask (h : Gate r) (hreach : r.Reached a.step a.stage)
    (hown : a.stage.committing=true → r.committed=true ∧ r.progress ≠ .active ∧
      ∀ j b, j≠i → r.tasks j=some b → b.stage.committing=false) : Gate (r.setTask i a) := by
  refine ⟨fun j k b c hb hc hbc hcc => ?_,fun j b hb hbc => ?_,fun j b hb => ?_,h.quiet,h.released,h.active,h.told,
    h.retiring,h.answering,h.sole,h.members⟩
  · cases tasks_setTask hb with
    | inl hj =>
      obtain ⟨rfl,rfl⟩:=hj
      cases tasks_setTask hc with
      | inl hk => exact hk.1.symm
      | inr hk => exact absurd hcc (by rw [(hown hbc).2.2 k c hk.1 hk.2]; decide)
    | inr hj =>
      cases tasks_setTask hc with
      | inl hk =>
        obtain ⟨rfl,rfl⟩:=hk
        exact absurd hbc (by rw [(hown hcc).2.2 j b hj.1 hj.2]; decide)
      | inr hk => exact h.solo j k b c hj.2 hk.2 hbc hcc
  · cases tasks_setTask hb with
    | inl hj =>
      obtain ⟨rfl,rfl⟩:=hj
      exact ⟨(hown hbc).1,(hown hbc).2.1⟩
    | inr hj => exact h.owner j b hj.2 hbc
  · cases tasks_setTask hb with
    | inl hj =>
      obtain ⟨rfl,rfl⟩:=hj
      exact hreach
    | inr hj => exact h.stage j b hj.2

theorem Gate.not_active (h : Gate r) (hopen : r.committed=false) : r.progress ≠ .active := by
  intro hact
  obtain ⟨-,⟨-,-,hwhy⟩,-⟩:=h.active hact
  have hcom : r.committed=true := hwhy
  rw [hopen] at hcom
  exact absurd hcom (by decide)

theorem Gate.nobody (h : Gate r) (hopen : r.committed=false) {j : ℕ} {b : Arrival} (hb : r.tasks j=some b) :
    b.stage.committing=false := by
  rw [← Bool.not_eq_true]
  intro hc
  have hcom:=(h.owner j b hb hc).1
  rw [hopen] at hcom
  exact absurd hcom (by decide)

theorem Gate.silent (h : Gate r) (hopen : r.committed=false) (herr : r.error=none) : r.Silent := by
  cases h.released with
  | inl hsilent => exact hsilent
  | inr hcalled =>
    obtain ⟨b,-,-,hwhy⟩:=hcalled
    cases b with
    | true =>
      have hcom : r.committed=true := hwhy
      rw [hopen] at hcom
      exact absurd hcom (by decide)
    | false =>
      have hsome : r.error.isSome=true := hwhy.1
      rw [herr] at hsome
      exact absurd hsome (by decide)

theorem Reached.off {step : Step} {stage : Stage} (h : r.Reached step stage) (hoff : stage.committing=false)
    (hmembers : r'.members=r.members) (hnext : r'.next=r.next) : r'.Reached step stage := by
  cases stage with
  | done result =>
    cases result with
    | ok u =>
      intro m hm
      rw [hmembers] at hm
      rw [hnext]
      exact h m hm
    | error e => trivial
  | refused | waiting | dropped => trivial
  | take | publish _ | release | callback | activate => cases hoff

theorem Gate.reached_uncommitted (h : Gate r) (hopen : r.committed=false)
    (ha : r.tasks i=some a) (hmembers : r'.members=r.members) (hnext : r'.next=r.next) :
    r'.Reached a.step a.stage := (h.stage i a ha).off (h.nobody hopen ha) hmembers hnext

theorem abort_gate (h : Gate r) (error : String) : Gate (r.abort error) := by
  cases abort_cases r error with
  | inl heq =>
    rw [heq]
    exact h
  | inr habort =>
    obtain ⟨hopen,-,heq⟩:=habort
    rw [heq]
    refine h.frame rfl (fun _ => le_rfl) (fun _ => rfl) ⟨fun hact => (by cases hact),fun hact => ?_⟩
    exact absurd hact (h.not_active hopen)

theorem commit_gate (h : Gate r) (hopen : r.committed=false) (herr : r.error=none) (phase : ℕ) :
    Gate {r with phase:=phase,committed:=true} := by
  have hactive:=h.not_active hopen
  refine ⟨h.solo,fun _ _ _ _ => ⟨rfl,hactive⟩,fun i a ha => h.reached_uncommitted hopen ha rfl rfl,fun hc => (by cases hc),.inl (h.silent hopen herr),
    fun hact => absurd hact hactive,h.told,h.retiring,h.answering,h.sole,h.members⟩

theorem arrive_gate (hv : Votes r) (h : Gate r) {member : Uuid} {step : Step} {out : Recovery × Stage}
    (harrives : Arrives r member step out) (i : ℕ) : Gate (out.1.setTask i ⟨member,step,out.2⟩) := by
  have hopen : r.phase=step.index → r.committed=false := fun hphase => hv.uncommitted (hphase ▸ step.index_lt)
  cases harrives with
  | late | refused => exact h.setTask trivial fun hc => by cases hc
  | counted _ _ _ _ _ =>
    have hnext : Gate (r.counted member step) := h.frame rfl (counted_le r member step) id Iff.rfl
    exact hnext.setTask trivial fun hc => by cases hc
  | advanced _ _ _ hphase _ _ =>
    have hnext : Gate {r.counted member step with phase:=r.phase+1,progress:=.phase (r.phase+1)} := by
      refine h.frame rfl (counted_le r member step) id ⟨fun hact => (by cases hact),fun hact => ?_⟩
      exact absurd hact (h.not_active (hopen hphase))
    exact hnext.setTask trivial fun hc => by cases hc
  | committed herr _ _ hphase _ _ =>
    have hcount : Gate (r.counted member step) := h.frame rfl (counted_le r member step) id Iff.rfl
    have hfree : (r.counted member step).committed=false := hopen hphase
    obtain ⟨hran,hpubs⟩:=hcount.quiet hfree
    have hcommit:=commit_gate hcount hfree herr (r.phase+1)
    refine hcommit.setTask ⟨hran,hpubs,hcount.silent hfree herr⟩ fun _ => ⟨rfl,hcount.not_active hfree,?_⟩
    exact fun j b _ hb => hcount.nobody hfree hb

theorem Votes.aborted (hv : Votes r) (hsome : r.error.isSome=true) : r.committed=false := by
  rw [← Bool.not_eq_true]
  intro hcom
  rw [hv.exclusive hcom] at hsome
  exact absurd hsome (by decide)

theorem Gate.not_answering (h : Gate r) (hv : Votes r) (hcom : r.committed=true) (i : ℕ) :
    r.retirements i≠some .callback := by
  intro hi
  have hopen:=hv.aborted (h.retiring i _ hi (by decide)).1
  exact absurd (hcom.symm.trans hopen) (by decide)

structure Carries (r r' : Recovery) : Prop where
  votes : (r'.members,r'.next,r'.phase,r'.committed,r'.arrivals,r'.error) =
    (r.members,r.next,r.phase,r.committed,r.arrivals,r.error)
  calls : (r'.finished,r'.registered,r'.tasks,r'.retirements,r'.activations) =
    (r.finished,r.registered,r.tasks,r.retirements,r.activations)

theorem Gate.carry (h : Gate r) (hv : Votes r) (ha : r.tasks i=some a)
    (hc : a.stage.committing=true) (r' : Recovery) (stage : Stage) (hsame : Carries r r')
    (hreach : r'.Reached a.step stage) (hreleased : r'.Silent ∨ ∃ b, r'.Called b)
    (hopened : r'.progress=.active → r'.AllRan ∧ r'.Called true ∧ r'.returned=[true])
    (hshut : stage.committing=true → r'.progress ≠ .active) : Gate (r'.setTask i {a with stage}) := by
  obtain ⟨hcom,hprog⟩:=h.owner i a ha hc
  have hothers : ∀ j b, j≠i → r.tasks j=some b → b.stage.committing=false := by
    intro j b hj hb
    rw [← Bool.not_eq_true]
    exact fun hbc => hj (h.solo j i b a hb ha hbc hc)
  have hnone : ∀ j, r.retirements j≠some .callback := fun j hj => h.not_answering hv hcom j hj
  cases r
  cases r'
  obtain ⟨hvotes,hcalls⟩:=hsame
  cases hvotes
  cases hcalls
  refine ⟨fun j k b c hb hc' hbc hcc => ?_,fun j b hb hbc => ?_,fun j b hb => ?_,fun hf => ?_,hreleased,hopened,
    fun hok => absurd (h.told hok) hprog,h.retiring,fun j hj => absurd hj (hnone j),h.sole,h.members⟩
  · cases tasks_setTask hb with
    | inl hj =>
      cases tasks_setTask hc' with
      | inl hk => exact hj.1.trans hk.1.symm
      | inr hk => exact absurd hcc (by rw [hothers k c hk.1 hk.2]; decide)
    | inr hj => exact absurd hbc (by rw [hothers j b hj.1 hj.2]; decide)
  · cases tasks_setTask hb with
    | inl hj =>
      obtain ⟨-,rfl⟩:=hj
      exact ⟨hcom,hshut hbc⟩
    | inr hj => exact absurd hbc (by rw [hothers j b hj.1 hj.2]; decide)
  · cases tasks_setTask hb with
    | inl hj =>
      obtain ⟨-,rfl⟩:=hj
      exact hreach
    | inr hj =>
      -- the others do not look at what is carried
      exact (h.stage j b hj.2).off (hothers j b hj.1 hj.2) rfl rfl
  · exact absurd (hcom.symm.trans hf) (by decide)

theorem poll_reached (hv : Votes r) (h : Gate r) (step : Step) : r.Reached step (r.poll step) := by
  unfold poll
  split
  · rename_i hact
    obtain ⟨-,⟨-,-,hwhy⟩,-⟩:=h.active hact
    have hphase:=hv.committed.mp hwhy
    intro m hm
    have hlow:=hv.low m hm
    have hlt:=step.index_lt
    omega
  · rename_i n hn
    split
    · rename_i hgt
      have hle:=hv.shown n hn
      intro m hm
      have hlow:=hv.low m hm
      omega
    · trivial
  · trivial

theorem poll_committing (r : Recovery) (step : Step) : (r.poll step).committing=false := by
  unfold poll
  split
  · rfl
  · split
    · rfl
    · rfl
  · rfl

theorem proceed_gate (hv : Votes r) (h : Gate r) (ha : r.tasks i=some a) :
    Gate ((r.proceed a.step a.stage).1.setTask i {a with stage:=(r.proceed a.step a.stage).2}) := by
  have hreach:=h.stage i a ha
  have hshut : a.stage.committing=true → r.progress ≠ .active := fun hc => (h.owner i a ha hc).2
  cases hs : a.stage with
  | refused error => exact (abort_gate h error).setTask trivial fun hc => by cases hc
  | take =>
    have hc : a.stage.committing=true := by rw [hs]; rfl
    rw [hs] at hreach
    obtain ⟨hran,hpubs,hsilent⟩:=hreach
    refine h.carry hv ha hc {r with publications:=[]} (.publish r.publications) ⟨rfl,rfl⟩ ⟨?_,hsilent⟩ (.inl hsilent) (fun hact => absurd hact (hshut hc)) fun _ => hshut hc
    show r.ran++r.publications=_
    rw [hran,hpubs]
    rfl
  | publish left =>
    have hc : a.stage.committing=true := by rw [hs]; rfl
    rw [hs] at hreach
    obtain ⟨hran,hsilent⟩:=hreach
    cases left with
    | nil =>
      rw [List.append_nil] at hran
      exact h.carry hv ha hc r .release ⟨rfl,rfl⟩ ⟨hran,hsilent⟩ (.inl hsilent) (fun hact => absurd hact (hshut hc)) fun _ => hshut hc
    | cons p left =>
      refine h.carry hv ha hc {r with ran:=r.ran++[p]} (.publish left) ⟨rfl,rfl⟩ ⟨?_,hsilent⟩ (.inl hsilent) (fun hact => absurd hact (hshut hc)) fun _ => hshut hc
      show (r.ran++[p])++left=_
      rw [List.append_assoc]
      exact hran
  | release =>
    have hc : a.stage.committing=true := by rw [hs]; rfl
    rw [hs] at hreach
    obtain ⟨hran,hcalled,hreturned,hrelease⟩:=hreach
    rw [proceed,if_pos hrelease]
    have hcall : Called {r with release:=false,called:=r.called++[true]} true := by
      refine ⟨?_,rfl,(h.owner i a ha hc).1⟩
      show r.called++[true]=[true]
      rw [hcalled]
      rfl
    exact h.carry hv ha hc {r with release:=false,called:=r.called++[true]} .callback ⟨rfl,rfl⟩ ⟨hran,hcall,hreturned⟩ (.inr ⟨true,hcall⟩) (fun hact => absurd hact (hshut hc))
      fun _ => hshut hc
  | callback =>
    have hc : a.stage.committing=true := by rw [hs]; rfl
    rw [hs] at hreach
    obtain ⟨hran,hcall,hreturned⟩:=hreach
    refine h.carry hv ha hc {r with returned:=r.returned++[true]} .activate ⟨rfl,rfl⟩ ⟨hran,hcall,?_⟩ (.inr ⟨true,hcall⟩) (fun hact => absurd hact (hshut hc))
      fun _ => hshut hc
    show r.returned++[true]=[true]
    rw [hreturned]
    rfl
  | activate =>
    have hc : a.stage.committing=true := by rw [hs]; rfl
    rw [hs] at hreach
    obtain ⟨hran,hcall,hreturned⟩:=hreach
    exact h.carry hv ha hc {r with progress:=.active} .waiting ⟨rfl,rfl⟩ trivial (.inr ⟨true,hcall⟩) (fun _ => ⟨hran,hcall,hreturned⟩) fun hw => by cases hw
  | waiting => exact h.setTask (poll_reached hv h a.step) fun hc => absurd hc (by rw [proceed,poll_committing]; decide)
  | done result =>
    rw [hs] at hreach
    exact h.setTask hreach fun hc => by cases hc
  | dropped => exact h.setTask trivial fun hc => by cases hc

theorem retirements_setRetirement {i j : ℕ} {p q : Retirement} (h : (r.setRetirement i p).retirements j=some q) :
    j=i ∧ q=p ∨ r.retirements j=some q := by
  change Function.update r.retirements i (some p) j=some q at h
  by_cases hj : j=i
  · rw [hj,update_self] at h
    exact .inl ⟨hj,(Option.some.inj h).symm⟩
  · rw [update_of_ne hj] at h
    exact .inr h

theorem Gate.setRetirement (h : Gate r) {p : Retirement} (hp : p ≠ .done → r.Retired) (hcall : p=.callback →
    (r.release=false ∧ r.returned=[]) ∧ ∀ j, r.retirements j≠some .callback) : Gate (r.setRetirement i p) := by
  refine ⟨h.solo,h.owner,h.stage,h.quiet,h.released,h.active,h.told,fun j q hq hne => ?_,fun j hj => ?_,
    fun j k hj hk => ?_,h.members⟩
  · cases retirements_setRetirement hq with
    | inl hself =>
      obtain ⟨-,rfl⟩:=hself
      exact hp hne
    | inr hold => exact h.retiring j q hold hne
  · cases retirements_setRetirement hj with
    | inl hself => exact (hcall hself.2.symm).1
    | inr hold => exact h.answering j hold
  · cases retirements_setRetirement hj with
    | inl hself =>
      cases retirements_setRetirement hk with
      | inl hother => exact hself.1.trans hother.1.symm
      | inr hold => exact absurd hold ((hcall hself.2.symm).2 k)
    | inr hold =>
      cases retirements_setRetirement hk with
      | inl hother => exact absurd hold ((hcall hother.2.symm).2 j)
      | inr hold' => exact h.sole j k hold hold'

theorem finish_gate (h : Gate r) {member : Uuid} (hmem : member∈r.members) :
    Gate {r with finished:=r.finished.insert member} := by
  have hretired : r.Retired → Retired {r with finished:=r.finished.insert member} := fun hr =>
    ⟨hr.1,fun m hm => List.mem_insert_of_mem (hr.2 m hm)⟩
  have hcalled : ∀ {b}, r.Called b → Called {r with finished:=r.finished.insert member} b := by
    intro b hb
    refine ⟨hb.1,hb.2.1,?_⟩
    cases b with
    | true => exact hb.2.2
    | false => exact hretired hb.2.2
  refine ⟨h.solo,h.owner,fun i a ha => ?_,h.quiet,?_,fun hact => ?_,h.told,fun i p hp hne => hretired (h.retiring i p hp hne),
    h.answering,h.sole,h.members.1.insert,fun m hm => ?_⟩
  · have hreach:=h.stage i a ha
    cases hs : a.stage with
    | done result =>
      rw [hs] at hreach
      cases result with
      | ok u => exact hreach
      | error e => trivial
    | refused | waiting | dropped => trivial
    | take | publish _ | release | callback | activate =>
      rw [hs] at hreach
      exact hreach
  · exact h.released.imp id fun ⟨b,hb⟩ => ⟨b,hcalled hb⟩
  · obtain ⟨hran,hcall,hreturned⟩:=h.active hact
    exact ⟨hran,hcalled hcall,hreturned⟩
  · cases List.mem_insert_iff.mp hm with
    | inl heq => exact heq ▸ hmem
    | inr hold => exact h.members.2 m hold

theorem retiredAfterAbort_gate (h : Gate r) {member : Uuid} (hdecided : r.error.isSome=true ∨ r.committed=true)
    (hmem : member∈r.members) (i : ℕ) :
    Gate ((r.retiredAfterAbort member).1.setRetirement i (r.retiredAfterAbort member).2) := by
  unfold retiredAfterAbort
  split
  · exact h.setRetirement (fun hne => absurd rfl hne) fun hc => by cases hc
  · rename_i hopen
    have hfin:=finish_gate h hmem
    refine hfin.setRetirement (fun hne => ⟨hdecided.resolve_right hopen,?_⟩) fun hc => ?_
    · dsimp only at hne
      split at hne
      · rename_i hlen
        have hperm:=(List.subperm_of_subset hfin.members.1 hfin.members.2).perm_of_length_le (le_of_eq hlen.symm)
        exact fun m hm => hperm.mem_iff.mpr hm
      · exact absurd rfl hne
    · dsimp only at hc
      split at hc
      · cases hc
      · cases hc

theorem answer_gate (h : Gate r) (hopen : r.committed=false) (release : Bool) (called returned : List Bool)
    (hnone : ∀ j, r.retirements j≠some .callback)
    (hreleased : Called {r with release:=release,called:=called,returned:=returned} false) :
    Gate {r with release:=release,called:=called,returned:=returned} := by
  exact ⟨h.solo,h.owner,fun i a ha => h.reached_uncommitted hopen ha rfl rfl,h.quiet,.inr ⟨false,hreleased⟩,fun hact => absurd hact (h.not_active hopen),
    h.told,h.retiring,fun j hj => absurd hj (hnone j),h.sole,h.members⟩

theorem retire_gate (hv : Votes r) (h : Gate r) {p : Retirement} (hp : r.retirements i=some p) :
    Gate ((r.retire p).1.setRetirement i (r.retire p).2) := by
  cases p with
  | release =>
    have hretired:=h.retiring i _ hp (by decide)
    by_cases hrelease : r.release=true
    · rw [retire,if_pos hrelease]
      have hcall : r.called=[] ∧ r.returned=[] := by
        cases h.released with
        | inl hsilent => exact ⟨hsilent.1,hsilent.2.1⟩
        | inr hcalled =>
          obtain ⟨b,-,hgone,-⟩:=hcalled
          exact absurd (hrelease.symm.trans hgone) (by decide)
      have hnone : ∀ j, r.retirements j≠some .callback := fun j hj =>
        absurd (hrelease.symm.trans (h.answering j hj).1) (by decide)
      have hanswer:=answer_gate h (hv.aborted hretired.1) false (r.called++[false]) r.returned hnone
        ⟨by rw [hcall.1]; rfl,rfl,hretired⟩
      exact hanswer.setRetirement (fun _ => hretired) fun _ => ⟨⟨rfl,hcall.2⟩,hnone⟩
    · rw [retire,if_neg hrelease]
      exact h.setRetirement (fun hne => absurd rfl hne) fun hc => by cases hc
  | callback =>
    have hretired:=h.retiring i _ hp (by decide)
    have hgone:=(h.answering i hp).1
    have hopen:=hv.aborted hretired.1
    have hcall : Called r false := by
      cases h.released with
      | inl hsilent => exact absurd (hsilent.2.2.symm.trans hgone) (by decide)
      | inr hcalled =>
        obtain ⟨b,hb⟩:=hcalled
        cases b with
        | true =>
          have hcom : r.committed=true := hb.2.2
          exact absurd (hopen.symm.trans hcom) (by decide)
        | false => exact hb
    -- the receipt is over before the answer counts: no other one is under way
    have hdone : Gate (r.setRetirement i .done) := h.setRetirement (fun hne => absurd rfl hne) fun hc => by cases hc
    refine answer_gate hdone hopen r.release r.called (r.returned++[false]) (fun j hj => ?_) hcall
    cases retirements_setRetirement hj with
    | inl hself => cases hself.2
    | inr hold =>
      obtain rfl:=h.sole i j hp hold
      exact absurd ((update_self ..).symm.trans hj) (by decide)
  | done => exact h.setRetirement (fun hne => absurd rfl hne) fun hc => by cases hc

structure Sound (r : Recovery) : Prop where
  votes : Votes r
  gate : Gate r

theorem onActivation_gate (h : Gate r) (hopen : r.committed=false) : Gate r.onActivation := by
  refine ⟨h.solo,h.owner,fun i a ha => h.reached_uncommitted hopen ha rfl rfl,fun _ => ?_,h.released,
    fun hact => absurd hact (h.not_active hopen),h.told,h.retiring,h.answering,h.sole,h.members⟩
  obtain ⟨hran,hpubs⟩:=h.quiet hopen
  refine ⟨hran,?_⟩
  show r.publications++[r.registered]=range (r.registered+1)
  rw [hpubs,List.range_succ]

theorem proceed_votes (hv : Votes r) (step : Step) (stage : Stage) : Votes (r.proceed step stage).1 := by
  cases stage with
  | refused error => exact abort_votes hv error
  | take | callback => exact hv.congr rfl
  | publish left =>
    cases left with
    | nil => exact hv
    | cons p left => exact hv.congr rfl
  | release =>
    rw [proceed]
    split
    · exact hv.congr rfl
    · exact hv
  | activate =>
    refine ⟨hv.inhabited,hv.nodup,hv.low,hv.high,hv.missing,hv.last,hv.top,hv.committed,hv.arrived,hv.ordered,
      hv.exclusive,fun n hn => ?_⟩
    cases hn
  | waiting | done | dropped => exact hv

theorem retire_votes (hv : Votes r) (p : Retirement) : Votes (r.retire p).1 := by
  cases p with
  | release =>
    rw [retire]
    split
    · exact hv.congr rfl
    · exact hv
  | callback => exact hv.congr rfl
  | done => exact hv

theorem retiredAfterAbort_votes (hv : Votes r) (member : Uuid) : Votes (r.retiredAfterAbort member).1 := by
  unfold retiredAfterAbort
  split
  · exact hv
  · exact hv.congr rfl

theorem step_sound (h : Sound r) {a : Action} (hallowed : r.Permitted a) : Sound (r.step a) := by
  obtain ⟨hv,hg⟩:=h
  cases a with
  | arrive task member step expired =>
    simp only [Recovery.step]
    split
    · exact ⟨hv,hg⟩
    · have harrives:=arrive_arrives r member step expired
      exact ⟨(arrive_votes hv harrives).congr rfl,arrive_gate hv hg harrives task⟩
  | proceed task =>
    simp only [Recovery.step]
    split
    · exact ⟨hv,hg⟩
    · rename_i a ha
      exact ⟨(proceed_votes hv a.step a.stage).congr rfl,proceed_gate hv hg ha⟩
  | timeout task =>
    simp only [Recovery.step]
    split
    · exact ⟨abort_votes hv _,abort_gate hg _⟩
    · exact ⟨hv,hg⟩
  | drop task =>
    simp only [Recovery.step]
    split
    · exact ⟨(abort_votes hv _).congr rfl,(abort_gate hg _).setTask trivial fun hc => by cases hc⟩
    · exact ⟨hv,hg⟩
  | abort error => exact ⟨abort_votes hv error,abort_gate hg error⟩
  | onActivation => exact ⟨hv.congr rfl,onActivation_gate hg hallowed⟩
  | retiredAfterAbort task member =>
    simp only [Recovery.step]
    split
    · exact ⟨hv,hg⟩
    · exact ⟨(retiredAfterAbort_votes hv member).congr rfl,retiredAfterAbort_gate hg hallowed.1 hallowed.2 task⟩
  | retire task =>
    simp only [Recovery.step]
    split
    · exact ⟨hv,hg⟩
    · rename_i p hp
      exact ⟨(retire_votes hv p).congr rfl,retire_gate hv hg hp⟩
  | activation =>
    simp only [Recovery.step]
    split
    · rename_i hact
      exact ⟨hv.congr rfl,hg.solo,hg.owner,hg.stage,hg.quiet,hg.released,hg.active,fun _ => hact,hg.retiring,
        hg.answering,hg.sole,hg.members⟩
    · refine ⟨hv.congr rfl,hg.solo,hg.owner,hg.stage,hg.quiet,hg.released,hg.active,fun hok => ?_,hg.retiring,
        hg.answering,hg.sole,hg.members⟩
      cases List.mem_append.mp hok with
      | inl hold => exact hg.told hold
      | inr hnew => cases List.mem_singleton.mp hnew
    · exact ⟨hv,hg⟩

theorem run_sound (h : Sound r) {actions : List Action} (hallowed : r.PermittedRun actions) : Sound (r.run actions) := by
  induction actions generalizing r with
  | nil => exact h
  | cons a actions ih => exact ih (step_sound h hallowed.1) hallowed.2

def Decided (r r' : Recovery) : Prop :=
  (r.committed=true → r'.committed=true) ∧ (r.error.isSome=true → r'.error=r.error) ∧ r'.members=r.members

theorem Decided.refl (r : Recovery) : Decided r r := ⟨id,fun _ => rfl,rfl⟩

theorem Decided.trans {r₁ r₂ r₃ : Recovery} (h : Decided r₁ r₂) (h' : Decided r₂ r₃) : Decided r₁ r₃ := by
  refine ⟨fun hc => h'.1 (h.1 hc),fun he => ?_,h'.2.2.trans h.2.2⟩
  have heq:=h.2.1 he
  exact (h'.2.1 (heq ▸ he)).trans heq

theorem abort_decided (r : Recovery) (error : String) : Decided r (r.abort error) := by
  cases abort_cases r error with
  | inl heq =>
    rw [heq]
    exact Decided.refl r
  | inr habort =>
    obtain ⟨-,hnone,heq⟩:=habort
    rw [heq]
    refine ⟨id,fun hsome => ?_,rfl⟩
    rw [hnone] at hsome
    exact absurd hsome (by decide)

theorem arrive_decided {member : Uuid} {step : Step} {out : Recovery × Stage} (h : Arrives r member step out) :
    Decided r out.1 := by
  cases h with
  | late | refused => exact Decided.refl r
  | counted | advanced => exact ⟨id,fun _ => rfl,rfl⟩
  | committed _ _ _ _ _ _ => exact ⟨fun _ => rfl,fun _ => rfl,rfl⟩

theorem proceed_decided (r : Recovery) (step : Step) (stage : Stage) : Decided r (r.proceed step stage).1 := by
  cases stage with
  | refused error => exact abort_decided r error
  | publish left =>
    cases left with
    | nil | cons => exact Decided.refl r
  | release =>
    rw [proceed]
    split
    · exact ⟨id,fun _ => rfl,rfl⟩
    · exact Decided.refl r
  | take | callback | activate | waiting | done _ | dropped => exact ⟨id,fun _ => rfl,rfl⟩

theorem retire_decided (r : Recovery) (p : Retirement) : Decided r (r.retire p).1 := by
  cases p with
  | release =>
    rw [retire]
    split
    · exact ⟨id,fun _ => rfl,rfl⟩
    · exact Decided.refl r
  | callback => exact ⟨id,fun _ => rfl,rfl⟩
  | done => exact Decided.refl r

theorem retiredAfterAbort_decided (r : Recovery) (member : Uuid) : Decided r (r.retiredAfterAbort member).1 := by
  unfold retiredAfterAbort
  split
  · exact Decided.refl r
  · exact ⟨id,fun _ => rfl,rfl⟩

theorem step_decided (r : Recovery) (a : Action) : Decided r (r.step a) := by
  cases a with
  | arrive task member step expired =>
    simp only [Recovery.step]
    split
    · exact Decided.refl r
    · exact arrive_decided (arrive_arrives r member step expired)
  | proceed task =>
    simp only [Recovery.step]
    split
    · exact Decided.refl r
    · rename_i a _
      exact proceed_decided r a.step a.stage
  | timeout | drop =>
    simp only [Recovery.step]
    split
    · exact abort_decided r _
    · exact Decided.refl r
  | abort error => exact abort_decided r error
  | onActivation => exact ⟨id,fun _ => rfl,rfl⟩
  | retiredAfterAbort task member =>
    simp only [Recovery.step]
    split
    · exact Decided.refl r
    · exact retiredAfterAbort_decided r member
  | retire task =>
    simp only [Recovery.step]
    split
    · exact Decided.refl r
    · rename_i p _
      exact retire_decided r p
  | activation =>
    simp only [Recovery.step]
    split
    · exact ⟨id,fun _ => rfl,rfl⟩
    · exact ⟨id,fun _ => rfl,rfl⟩
    · exact Decided.refl r

theorem run_decided (r : Recovery) (actions : List Action) : Decided r (r.run actions) := by
  induction actions generalizing r with
  | nil => exact Decided.refl r
  | cons a actions ih => exact (step_decided r a).trans (ih (r.step a))

theorem Votes.committed_iff (hv : Votes r) : r.committed=true ↔ ∀ m∈r.members, ∀ s, (m,s)∈r.arrivals := by
  rw [hv.committed]
  constructor
  · intro hphase m hm s
    have hlow:=hv.low m hm
    have hlt:=s.index_lt
    exact (hv.arrived m s).mpr ⟨hm,by omega⟩
  · intro hall
    by_contra hne
    have hlast:=hv.last
    obtain ⟨m,hm,hnext⟩:=hv.missing (by omega)
    have hvote : 2 < r.next m := ((hv.arrived m .published).mp (hall m hm .published)).2
    omega

/-- One decision for every order of arrivals, waits, aborts and receipts: the epoch
commits with the last vote of the last step, an arrival passes when all have voted, the
gate opens after publications and release, and the callback tells the decision once. -/
theorem barrier_decides_once (ids : List Uuid) (hids : ids≠[]) (actions : List Action)
    (hallowed : (new ids).PermittedRun actions) :
    let r:=(new ids).run actions
    (r.committed=true ↔ ∀ m∈ids, ∀ s, (m,s)∈r.arrivals) ∧
    (r.arrivals.Pairwise fun a b => a.2.index≤b.2.index) ∧ (r.committed=true → r.error=none) ∧
    (∀ more, (r.committed=true → (r.run more).committed=true) ∧
      ∀ error, r.error=some error → (r.run more).error=some error) ∧
    (∀ i a, r.tasks i=some a → a.stage=.done (.ok ()) → ∀ m∈ids, (m,a.step)∈r.arrivals) ∧
    (.ok ()∈r.activations → r.committed=true ∧ r.ran=range r.registered ∧ r.returned=[true]) ∧
    (r.ran≠[] → r.committed=true) ∧ r.called.length≤1 ∧ (true∈r.called → r.committed=true) ∧
    (false∈r.called → r.error.isSome=true ∧ ∀ m∈ids, m∈r.finished) := by
  intro r
  obtain ⟨hv,hg⟩ : Sound r := run_sound ⟨new_votes hids,new_gate ids⟩ hallowed
  have hmembers : r.members=ids.dedup := (run_decided (new ids) actions).2.2
  have hmem : ∀ {m}, m∈ids → m∈r.members := fun hm => hmembers ▸ List.mem_dedup.mpr hm
  have hids : ∀ {m}, m∈r.members → m∈ids := fun hm => List.mem_dedup.mp (hmembers ▸ hm)
  refine ⟨?_,hv.ordered,hv.exclusive,fun more => ?_,fun i a ha hs m hm => ?_,fun hok => ?_,fun hran => ?_,?_⟩
  · rw [hv.committed_iff]
    exact ⟨fun hall m hm => hall m (hmem hm),fun hall m hm => hall m (hids hm)⟩
  · obtain ⟨hc,he,-⟩:=run_decided r more
    refine ⟨hc,fun error herror => ?_⟩
    rw [he (by rw [herror]; rfl),herror]
  · have hreach:=hg.stage i a ha
    rw [hs] at hreach
    exact (hv.arrived m a.step).mpr ⟨hmem hm,hreach m (hmem hm)⟩
  · obtain ⟨hran,⟨-,-,hcom⟩,hreturned⟩:=hg.active (hg.told hok)
    exact ⟨hcom,hran,hreturned⟩
  · rw [← Bool.not_eq_false]
    exact fun hopen => hran (hg.quiet hopen).1
  · cases hg.released with
    | inl hsilent =>
      rw [hsilent.1]
      exact ⟨Nat.zero_le 1,fun h => (by cases h),fun h => (by cases h)⟩
    | inr hcalled =>
      obtain ⟨b,hb,-,hwhy⟩:=hcalled
      rw [hb]
      refine ⟨le_rfl,fun htrue => ?_,fun hfalse => ?_⟩
      · obtain rfl:=List.mem_singleton.mp htrue
        exact hwhy
      · obtain rfl:=List.mem_singleton.mp hfalse
        exact ⟨hwhy.1,fun m hm => hwhy.2 m (hmem hm)⟩

def fullRun : List Action :=
  [.onActivation,.arrive 0 "a" .retired false,.arrive 1 "b" .retired false,.arrive 2 "a" .prepared false,
    .arrive 3 "b" .prepared false,.arrive 4 "b" .published false,.proceed 0,.arrive 5 "a" .published false]++
  List.replicate 7 (.proceed 5)++[.activation,.abort "late stop"]

theorem barrier_decides_once_full : (new ["a","b"]).PermittedRun fullRun ∧
    ((new ["a","b"]).run fullRun).committed=true ∧ ((new ["a","b"]).run fullRun).error=none ∧
    ((new ["a","b"]).run fullRun).ran=[0] ∧ ((new ["a","b"]).run fullRun).returned=[true] := by
  have hallowed : (new ["a","b"]).PermittedRun fullRun := by decide +kernel
  have hopened : .ok ()∈((new ["a","b"]).run fullRun).activations := by
    have heq : ((new ["a","b"]).run fullRun).activations=[.ok ()] := rfl
    rw [heq]
    exact List.mem_singleton_self _
  obtain ⟨-,-,hexclusive,-,-,hopen,-⟩:=barrier_decides_once ["a","b"] (by decide) fullRun hallowed
  obtain ⟨hcom,hran,hreturned⟩:=hopen hopened
  exact ⟨hallowed,hcom,hexclusive hcom,hran,hreturned⟩

end Recovery
end Parrot.Children
