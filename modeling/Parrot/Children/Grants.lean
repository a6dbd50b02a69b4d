import Parrot.Children.Intensity

/-! # The restarts of a scope

A book is kept beside a run: which call was granted what, and which calls registered a recovery.
-/

namespace Parrot.Children
open Function (update_self update_of_ne)
open Window

/-- Charges of the scope's budget, with their calls; grants of single children; the calls that
registered a recovery. -/
structure Book where
  charges : List (ℕ × ℕ)
  solo : List (ℕ × Uuid × ℕ)
  opened : List ℕ

namespace Book

def new : Book := ⟨[],[],[]⟩

def calls (b : Book) : List ℕ := b.charges.map Prod.fst

def times (b : Book) : List ℕ := b.charges.map Prod.snd

/-- The times of the charges whose calls registered a recovery. -/
def restarts (b : Book) : List ℕ := (b.charges.filter fun g => g.1∈b.opened).map Prod.snd

def own (b : Book) (m : Uuid) : List ℕ := (b.solo.filter fun g => g.2.1=m).map fun g => g.2.2

end Book

def PolicyChoice.Fixed (all : Bool) (n w : ℕ) (c : PolicyChoice) : Prop :=
  c.decision=.restart → c.all=all ∧ c.budget=some (n,w)

/-- The choices that an action brings are those of one strategy. -/
def ScopeAction.Fixed (all : Bool) (n w : ℕ) : ScopeAction → Prop
  | .failurePolicy _ _ _ (.ready (some (some c))) => c.Fixed all n w
  | .evaluated _ (.ok (some c)) => c.Fixed all n w
  | _ => True

def ScopeAction.reads : ScopeAction → Option ℕ
  | .admitted _ now => some now
  | _ => none

def PolicyStage.before : PolicyStage → Bool
  | .register _ | .done _ => false
  | _ => true

def Book.Tells (b : Book) (all : Bool) (n w t : ℕ) (m : Uuid) : PolicyStage → Prop
  | .closed _ pending | .recovery _ pending => ∀ c, pending=some (some c) → c.Fixed all n w
  | .evaluate _ => True
  | .closedAgain _ c | .recoveryAgain _ c => c.Fixed all n w
  | .lock _ c | .group _ c | .eligible _ c => c.all=true ∧ c.decision=.restart ∧ c.Fixed all n w
  | .register c => t∉b.opened ∧ c.decision=.restart
  | .budget c => c.all=false ∧ c.decision=.restart ∧ c.Fixed all n w
  | .swap c => c.decision=.restart → c.all=false ∧ ∃ now, (t,m,now)∈b.solo
  | .done result => ∀ f, result=.ok (some f) → f.decision=.restart →
      (∃ i<b.opened.length, f.recovery=some i) ∨ f.recovery=none ∧ ∃ now, (t,m,now)∈b.solo

namespace ChildScope

/-- The check of the cohort in `failure_policy`. -/
def eligible (s : ChildScope) : Bool := s.children.all fun child =>
  (s.lifetimes child.id).recover&&!(s.lifetimes child.id).stopping

def note (s : ChildScope) (b : Book) : ScopeAction → Book
  | .admitted t now =>
    match s.tasks t with
    | some (.policy _ (.eligible deadline choice)) =>
      if (s.eligible ∧ now<deadline) ∧ (withinBudget s.groupRestarts now choice.budget).1 then
        {b with charges:=b.charges++[(t,now)]}
      else b
    | some (.policy m (.budget choice)) =>
      if (withinBudget (s.lifetimes m).restarts now choice.budget).1 then {b with solo:=b.solo++[(t,m,now)]}
      else b
    | _ => b
  | .proceed t =>
    match s.tasks t with
    | some (.policy _ (.register _)) => if s.activeLock.isSome ∨ s.closed then b else {b with opened:=b.opened++[t]}
    | _ => b
  | _ => b

def recorded (s : ChildScope) (b : Book) : List ScopeAction → Book
  | [] => b
  | a::actions => (s.step a).recorded (s.note b a) actions

structure Booked (all : Bool) (n w now : ℕ) (s : ChildScope) (b : Book) : Prop where
  cohort : Kept n w now s.groupRestarts b.times
  solo : ∀ m, Kept n w now (s.lifetimes m).restarts (b.own m)
  tells : ∀ t m stage, s.tasks t=some (.policy m stage) → b.Tells all n w t m stage
  before : ∀ t m stage, s.tasks t=some (.policy m stage) → stage.before=true → t∉b.calls
  charged : ∀ t m c, s.tasks t=some (.policy m (.register c)) → t∈b.calls
  fresh : ∀ t, s.tasks t=none → t∉b.calls
  calls : b.calls.Nodup
  opened : b.opened.Nodup
  known : ∀ t∈b.opened, t∈b.calls
  length : b.opened.length=s.registered
  cohorts : b.charges≠[] → all=true
  singles : b.solo≠[] → all=false
  spent : s.closed=false → ∀ t∈b.calls, t∈b.opened ∨ ∃ m c, s.tasks t=some (.policy m (.register c))

variable {all : Bool} {n w now later : ℕ} {s s'' : ChildScope} {b b' : Book}

theorem Booked.mono (h : Booked all n w now s b) (hle : now≤later) : Booked all n w later s b :=
  {h with
    cohort := h.cohort.mono hle
    solo := fun m => (h.solo m).mono hle}

variable {m : Uuid} {t : ℕ} {stage : PolicyStage}

theorem Tells.grow (h : b.Tells all n w t m stage) (hsolo : ∀ g∈b.solo, g∈b'.solo) (hopened : t∈b'.opened →
    t∈b.opened) (hlength : b.opened.length≤b'.opened.length) : b'.Tells all n w t m stage := by
  cases stage with
  | closed | recovery | evaluate | closedAgain | recoveryAgain | lock | group | eligible | budget => exact h
  | register c => exact ⟨fun hmem => h.1 (hopened hmem),h.2⟩
  | swap c =>
    intro hrestart
    obtain ⟨hall,time,hmem⟩:=h hrestart
    exact ⟨hall,time,hsolo _ hmem⟩
  | done result =>
    intro f hf hrestart
    cases h f hf hrestart with
    | inl hjoined =>
      obtain ⟨i,hi,hrec⟩:=hjoined
      exact .inl ⟨i,Nat.lt_of_lt_of_le hi hlength,hrec⟩
    | inr hown =>
      obtain ⟨hnone,time,hmem⟩:=hown
      exact .inr ⟨hnone,time,hsolo _ hmem⟩

inductive Grows (t : ℕ) (b : Book) : Book → Prop
  | same : Grows t b b
  | charge (now : ℕ) : t∉b.calls → Grows t b {b with charges:=b.charges++[(t,now)]}
  | solo (m : Uuid) (now : ℕ) : Grows t b {b with solo:=b.solo++[(t,m,now)]}
  | opens : t∈b.calls → t∉b.opened → Grows t b {b with opened:=b.opened++[t]}

section
variable (h : Grows t b b')
include h

theorem Grows.solo_sub : ∀ g∈b.solo, g∈b'.solo := by
  intro g hg
  cases h with
  | same | charge | opens => exact hg
  | solo m now => exact List.mem_append_left _ hg

theorem Grows.length : b.opened.length≤b'.opened.length := by
  cases h with
  | same | charge | solo => exact le_rfl
  | opens => simp

theorem Grows.calls {u : ℕ} (hu : u≠t) : u∈b'.calls ↔ u∈b.calls := by
  cases h with
  | same | solo | opens => rfl
  | charge now hfresh => simp [Book.calls,hu]

theorem Grows.opened {u : ℕ} (hu : u≠t) : u∈b'.opened ↔ u∈b.opened := by
  cases h with
  | same | solo | charge => rfl
  | opens => simp [hu]

theorem Grows.nodup (hcalls : b.calls.Nodup) (hopened : b.opened.Nodup)
    (hknown : ∀ u∈b.opened, u∈b.calls) : b'.calls.Nodup ∧ b'.opened.Nodup ∧ ∀ u∈b'.opened, u∈b'.calls := by
  cases h with
  | same | solo => exact ⟨hcalls,hopened,hknown⟩
  | charge now hfresh =>
    have hlist : ({b with charges:=b.charges++[(t,now)]} : Book).calls=b.calls++[t] := by simp [Book.calls]
    refine ⟨?_,hopened,fun u hu => ?_⟩
    · rw [hlist]
      exact List.nodup_append_comm.mp (List.nodup_cons.mpr ⟨hfresh,hcalls⟩)
    · rw [hlist]
      exact List.mem_append_left _ (hknown u hu)
  | opens hcall hfresh =>
    refine ⟨hcalls,List.nodup_append_comm.mp (List.nodup_cons.mpr ⟨hfresh,hopened⟩),fun u hu => ?_⟩
    cases List.mem_append.mp hu with
    | inl hold => exact hknown u hold
    | inr hnew =>
      obtain rfl:=List.mem_singleton.mp hnew
      exact hcall

end

theorem Booked.turn (h : Booked all n w now s b)
    (htasks : s'.tasks=Function.update s.tasks t (some (.policy m stage))) (hgrow : Grows t b b')
    (hcohort : Kept n w now s'.groupRestarts b'.times) (hsolo : ∀ m, Kept n w now (s'.lifetimes m).restarts (b'.own m))
    (htells : b'.Tells all n w t m stage) (hbefore : stage.before=true → t∉b'.calls)
    (hcharged : ∀ c, stage=.register c → t∈b'.calls) (hlength : b'.opened.length=s'.registered)
    (hkind : (b'.charges≠[] → all=true) ∧ (b'.solo≠[] → all=false))
    (hspent : s'.closed=false → s.closed=false ∧ (t∈b'.calls → t∈b'.opened ∨ ∃ c, stage=.register c)) :
    Booked all n w now s' b' := by
  have hown : s'.tasks t=some (.policy m stage) := by rw [htasks,update_self]
  have hother : ∀ u, u≠t → s'.tasks u=s.tasks u := fun u hu => by rw [htasks,update_of_ne hu]
  obtain ⟨hcalls,hopened,hknown⟩:=hgrow.nodup h.calls h.opened h.known
  have hsame : ∀ m' stage', s'.tasks t=some (.policy m' stage') → m'=m ∧ stage'=stage := by
    intro m' stage' hk
    cases hown.symm.trans hk
    exact ⟨rfl,rfl⟩
  refine ⟨hcohort,hsolo,fun u m' stage' hk => ?_,fun u m' stage' hk hb => ?_,fun u m' c hk => ?_,fun u hk => ?_,hcalls,
    hopened,hknown,hlength,hkind.1,hkind.2,fun hopen u hu => ?_⟩
  · by_cases hu : u=t
    · subst hu
      obtain ⟨rfl,rfl⟩:=hsame m' stage' hk
      exact htells
    · rw [hother u hu] at hk
      exact Tells.grow (h.tells u m' stage' hk) hgrow.solo_sub (hgrow.opened hu).mp hgrow.length
  · by_cases hu : u=t
    · subst hu
      obtain ⟨rfl,rfl⟩:=hsame m' stage' hk
      exact hbefore hb
    · rw [hother u hu] at hk
      rw [hgrow.calls hu]
      exact h.before u m' stage' hk hb
  · by_cases hu : u=t
    · subst hu
      exact hcharged c (hsame m' _ hk).2.symm
    · rw [hother u hu] at hk
      rw [hgrow.calls hu]
      exact h.charged u m' c hk
  · by_cases hu : u=t
    · subst hu
      simp [hown] at hk
    · rw [hother u hu] at hk
      rw [hgrow.calls hu]
      exact h.fresh u hk
  · obtain ⟨hold,hturn⟩:=hspent hopen
    by_cases hut : u=t
    · subst hut
      cases hturn hu with
      | inl hdone => exact .inl hdone
      | inr hstill =>
        obtain ⟨c,rfl⟩:=hstill
        exact .inr ⟨m,c,hown⟩
    · rw [hgrow.calls hut] at hu
      rw [hgrow.opened hut,hother u hut]
      exact h.spent hold u hu

theorem Booked.pass (h : Booked all n w now s b)
    (htasks : s'.tasks=Function.update s.tasks t (some (.policy m stage)))
    (hsame : (s'.groupRestarts,s'.registered)=(s.groupRestarts,s.registered)) (hrestarts : ∀ m,
    (s'.lifetimes m).restarts=(s.lifetimes m).restarts) (hfresh : t∉b.calls) (htells : b.Tells all n w t m stage)
    (hstage : ∀ c, stage ≠ .register c) (hclosed : s'.closed=s.closed) : Booked all n w now s' b := by
  obtain ⟨hgroup,hregistered⟩:=Prod.mk.inj hsame
  refine h.turn htasks .same ?_ (fun m' => ?_) htells (fun _ => hfresh) (fun c hc => absurd hc (hstage c)) ?_
    ⟨h.cohorts,h.singles⟩ (fun hopen => ?_)
  · rw [hgroup]
    exact h.cohort
  · rw [hrestarts m']
    exact h.solo m'
  · rw [hregistered]
    exact h.length
  · rw [hclosed] at hopen
    exact ⟨hopen,fun hmem => absurd hmem hfresh⟩

theorem Booked.aside (h : Booked all n w now s b) (haside : Aside s s') (hclosed : s.closed=true → s'.closed=true) :
    Booked all n w now s' b := by
  have hback : ∀ t m stage, s'.tasks t=some (.policy m stage) → s.tasks t=some (.policy m stage) := by
    intro t m stage hk
    cases haside.tasks with
    | inl hsame => rwa [hsame] at hk
    | inr hone =>
      obtain ⟨u,k,htasks,hnew,-⟩:=hone
      rw [htasks] at hk
      cases update_eq_some hk with
      | inl hself =>
        rw [← hself.2] at hnew
        cases hnew
      | inr hother => exact hother.2
  have hforth : ∀ t m stage, s.tasks t=some (.policy m stage) → s'.tasks t=some (.policy m stage) := by
    intro t m stage hk
    cases haside.tasks with
    | inl hsame => rwa [hsame]
    | inr hone =>
      obtain ⟨u,k,htasks,-,hold⟩:=hone
      have htu : t≠u := by
        rintro rfl
        cases hold _ hk
      rw [htasks,update_of_ne htu,hk]
  have hnone : ∀ t, s'.tasks t=none → s.tasks t=none := by
    intro t hk
    cases haside.tasks with
    | inl hsame => rwa [hsame] at hk
    | inr hone =>
      obtain ⟨u,k,htasks,-,-⟩:=hone
      rw [htasks] at hk
      by_cases htu : t=u
      · subst htu
        simp at hk
      · rwa [update_of_ne htu] at hk
  refine ⟨?_,fun m => ?_,fun t m stage hk => h.tells t m stage (hback t m stage hk),
    fun t m stage hk => h.before t m stage (hback t m stage hk),fun t m c hk => h.charged t m c (hback t m _ hk),
    fun t hk => h.fresh t (hnone t hk),h.calls,h.opened,h.known,?_,h.cohorts,h.singles,
    fun hopen t ht => ?_⟩
  · rw [haside.group]
    exact h.cohort
  · rw [haside.restarts m]
    exact h.solo m
  · rw [haside.registered]
    exact h.length
  · have hold : s.closed=false := by
      cases hs : s.closed with
      | false => rfl
      | true => simp [hclosed hs] at hopen
    cases h.spent hold t ht with
    | inl hdone => exact .inl hdone
    | inr hstill =>
      obtain ⟨m,c,hk⟩:=hstill
      exact .inr ⟨m,c,hforth t m _ hk⟩

theorem move_closed (hmove : Move s s') (h : s.closed=true) : s'.closed=true := by
  cases hmove with
  | removes t m res ht hfree =>
    rw [finishStep,if_neg (by simp [hfree])]
    exact h
  | registers t m c ht hactive hopen => simp [h] at hopen
  | closeLocks t j ht hfree => rfl
  | stay | lifetimes | idle | acquire | spawnFails | spawnLocks | spawnPasses | inserts | policyLocks | policyPasses
  | policyAdmitted | policyUnlocks | swaps | dropsGroup | records | assigned | finished | aborts | receipts | notified
  | closeAborts | snapshots | joins | epoch | releases => exact h

theorem tells_stop (b : Book) (all : Bool) (n w t : ℕ) (m : Uuid) : b.Tells all n w t m (.done (.ok (some .stop))) := by
  intro f hf hrestart
  obtain rfl:=Option.some.inj (Except.ok.inj hf)
  simp [FailurePolicy.stop] at hrestart

theorem tells_joined (all : Bool) (n w t : ℕ) (m : Uuid) (d : SupervisionDecision) {i : ℕ} (hi : i<b.opened.length) :
    b.Tells all n w t m (.done (.ok (some ⟨d,false,some i⟩))) := by
  intro f hf hrestart
  obtain rfl:=Option.some.inj (Except.ok.inj hf)
  exact .inl ⟨i,hi,rfl⟩

theorem recovery_known (hinv : Inv s) (h : Booked all n w now s b) {i : ℕ} (hi : s.recovery m=some i) :
    i<b.opened.length := by
  obtain ⟨hassigned,-⟩:=Option.filter_eq_some_iff.mp hi
  obtain ⟨r,hr,-⟩:=hinv.cohorts.assigned m i hassigned
  rw [h.length]
  exact hinv.cohorts.known i r hr

variable {c : PolicyChoice}

theorem chosen_tells {t d : ℕ} (h : c.Fixed all n w) : b.Tells all n w t m (chosen d c) := by
  unfold chosen
  by_cases hall : c.all=true ∧ c.decision=.restart
  · rw [if_pos hall]
    exact ⟨hall.1,hall.2,h⟩
  · rw [if_neg hall]
    by_cases hrestart : c.decision=.restart
    · rw [if_pos hrestart]
      exact ⟨by simpa [hrestart] using hall,hrestart,h⟩
    · rw [if_neg hrestart]
      exact fun hc => absurd hc hrestart

theorem chosen_register (d : ℕ) (c c' : PolicyChoice) : chosen d c ≠ .register c' := by
  unfold chosen
  split
  · simp
  · split
    · simp
    · simp

theorem policyStep_booked (hinv : Inv s) (h : Booked all n w now s b)
    (ht : s.tasks t=some (.policy m stage)) : Booked all n w now (s.policyStep t m stage) (s.note b (.proceed t)) := by
  have htells:=h.tells t m stage ht
  have hfresh:=h.before t m stage ht
  cases stage with
  | closed | closedAgain =>
    simp only [note,ht,policyStep]
    split
    · exact h.pass rfl rfl (fun _ => rfl) (hfresh rfl) (tells_stop b all n w t m) (by simp) rfl
    · exact h.pass rfl rfl (fun _ => rfl) (hfresh rfl) htells (by simp) rfl
  | recovery d pending =>
    simp only [note,ht,policyStep]
    split
    · rename_i i hi
      exact h.pass rfl rfl (fun _ => rfl) (hfresh rfl) (tells_joined all n w t m _ (recovery_known hinv h hi)) (by simp) rfl
    · exact h.pass rfl rfl (fun _ => rfl) (hfresh rfl) trivial (by simp) rfl
    · exact h.pass rfl rfl (fun _ => rfl) (hfresh rfl) (fun f hf => by simp at hf) (by simp) rfl
    · rename_i c _
      exact h.pass rfl rfl (fun _ => rfl) (hfresh rfl) (htells c rfl) (by simp) rfl
  | evaluate | eligible | budget | done =>
    simp only [note,ht,policyStep]
    exact h
  | recoveryAgain d c =>
    simp only [note,ht,policyStep]
    split
    · rename_i i hi
      exact h.pass rfl rfl (fun _ => rfl) (hfresh rfl) (tells_joined all n w t m _ (recovery_known hinv h hi)) (by simp) rfl
    · exact h.pass rfl rfl (fun _ => rfl) (hfresh rfl) (chosen_tells htells) (chosen_register d c) rfl
  | lock d c =>
    simp only [note,ht,policyStep]
    split
    · exact h
    · split
      · rename_i i hi
        exact h.pass rfl rfl (fun _ => rfl) (hfresh rfl) (tells_joined all n w t m _ (recovery_known hinv h hi)) (by simp) rfl
      · exact h.pass rfl rfl (fun _ => rfl) (hfresh rfl) htells (by simp) rfl
  | group d c =>
    simp only [note,ht,policyStep]
    split
    · exact h.pass rfl rfl (fun _ => rfl) (hfresh rfl) (tells_stop b all n w t m) (by simp) rfl
    · split
      · exact h.pass rfl rfl (fun _ => rfl) (hfresh rfl) (tells_stop b all n w t m) (by simp) rfl
      · exact h.pass rfl rfl (fun _ => rfl) (hfresh rfl) htells (by simp) rfl
  | register c =>
    have hcall:=h.charged t m c ht
    simp only [note,ht,policyStep,register]
    by_cases hactive : s.activeLock.isSome=true
    · rw [if_pos hactive,if_pos (.inl hactive)]
      exact h
    · rw [if_neg hactive]
      by_cases hclosed : s.closed=true
      · rw [if_pos hclosed,if_pos (.inr hclosed)]
        refine h.turn rfl .same h.cohort h.solo (tells_stop b all n w t m) (by simp [PolicyStage.before]) (by simp) h.length
          ⟨h.cohorts,h.singles⟩ (fun hopen => ?_)
        change s.closed=false at hopen
        simp [hclosed] at hopen
      · rw [if_neg hclosed,if_neg (by simp [hactive,hclosed])]
        refine h.turn rfl (.opens hcall htells.1) h.cohort (fun m' => ?_) (tells_joined all n w t m _ ?_)
          (by simp [PolicyStage.before]) (by simp) ?_ ⟨h.cohorts,h.singles⟩ (fun hopen => ⟨hopen,fun _ => .inl (by simp)⟩)
        · have hsame : ((s.enrol.unlock.policyDone t m ⟨c.decision,false,some s.registered⟩).lifetimes m').restarts =
              (s.lifetimes m').restarts := by
            change (if m'∈s.children.map Child.id then {s.lifetimes m' with recovery:=some s.registered}
              else s.lifetimes m').restarts=_
            split
            · rfl
            · rfl
          rw [hsame]
          exact h.solo m'
        · simp [h.length]
        · change (b.opened++[t]).length=s.registered+1
          simp [h.length]
  | swap c =>
    have hdone : ∀ group, b.Tells all n w t m (.done (.ok (some ⟨c.decision,group,none⟩))) := by
      intro group f hf hrestart
      obtain rfl:=Option.some.inj (Except.ok.inj hf)
      exact .inr ⟨rfl,(htells hrestart).2⟩
    simp only [note,ht,policyStep]
    split
    · split
      · exact h
      · split
        · exact h.pass rfl rfl (fun _ => rfl) (hfresh rfl) (hdone false) (by simp) rfl
        · exact h.pass rfl rfl (fun _ => rfl) (hfresh rfl) (hdone true) (by simp) rfl
    · exact h.pass rfl rfl (fun _ => rfl) (hfresh rfl) (hdone false) (by simp) rfl

theorem admitted_eligible (s : ChildScope) (t : ℕ) (m : Uuid) (now d : ℕ) (c : PolicyChoice) :
    s.admitted t m now (.eligible d c) = if s.eligible=true ∧ now<d then
        if (withinBudget s.groupRestarts now c.budget).1=true then
          ({s with groupRestarts:=(withinBudget s.groupRestarts now c.budget).2}).setTask t (.policy m (.register c))
        else
          (({s with groupRestarts:=(withinBudget s.groupRestarts now c.budget).2}).unlock).setTask t
            (.policy m (.swap {c with decision:=.stop}))
      else (s.unlock).setTask t (.policy m (.swap {c with decision:=.stop})) := rfl

theorem tells_refused (b : Book) (all : Bool) (n w t : ℕ) (m : Uuid) (c : PolicyChoice) :
    b.Tells all n w t m (.swap {c with decision:=.stop}) := fun h => by simp at h

theorem own_append (b : Book) (t : ℕ) (m m' : Uuid) (now : ℕ) :
    ({b with solo:=b.solo++[(t,m,now)]} : Book).own m'=if m=m' then b.own m'++[now] else b.own m' := by
  by_cases hm : m=m'
  · simp [Book.own,hm]
  · simp [Book.own,hm]

theorem admitted_booked (h : Booked all n w now s b) (ht : s.tasks t=some (.policy m stage)) (hle : now≤later) :
    Booked all n w later (s.admitted t m later stage) (s.note b (.admitted t later)) := by
  have htells:=h.tells t m stage ht
  have hfresh:=h.before t m stage ht
  have hlater:=h.mono hle
  cases stage with
  | eligible d c =>
    obtain ⟨hall,hrestart,hfixed⟩:=htells
    obtain ⟨hkind,hbudget⟩:=hfixed hrestart
    have hkept:=h.cohort.admits hle
    rw [admitted_eligible]
    simp only [note,ht,hbudget,withinBudget_admits]
    by_cases hok : s.eligible=true ∧ later<d
    · rw [if_pos hok]
      cases hgrant : (admits n w s.groupRestarts later).1 with
      | true =>
        rw [hgrant,if_pos rfl] at hkept
        rw [if_pos rfl,if_pos ⟨hok,rfl⟩]
        have htimes : ({b with charges:=b.charges++[(t,later)]} : Book).times=b.times++[later] := by simp [Book.times]
        have hmem : t∈({b with charges:=b.charges++[(t,later)]} : Book).calls := by simp [Book.calls]
        refine hlater.turn rfl (.charge later (hfresh rfl)) ?_ hlater.solo ?_ (by simp [PolicyStage.before]) (fun _ _ => hmem)
          hlater.length ⟨fun _ => hkind.symm.trans hall,h.singles⟩ (fun hopen => ⟨hopen,fun _ => .inr ⟨c,rfl⟩⟩)
        · rw [htimes]
          exact hkept
        · exact ⟨fun hopened => hfresh rfl (h.known t hopened),hrestart⟩
      | false =>
        rw [hgrant,if_neg (by simp)] at hkept
        rw [if_neg (by simp),if_neg (by simp)]
        exact hlater.turn rfl .same hkept hlater.solo (tells_refused b all n w t m c) (fun _ => hfresh rfl) (by simp)
          hlater.length ⟨h.cohorts,h.singles⟩ (fun hopen => ⟨hopen,fun hmem => absurd hmem (hfresh rfl)⟩)
    · rw [if_neg hok,if_neg (fun hc => hok hc.1)]
      exact hlater.pass rfl rfl (fun _ => rfl) (hfresh rfl) (tells_refused b all n w t m c) (by simp) rfl
  | budget c =>
    obtain ⟨hall,hrestart,hfixed⟩:=htells
    obtain ⟨hkind,hbudget⟩:=hfixed hrestart
    have hkept:=(h.solo m).admits hle
    simp only [note,ht,admitted,hbudget,withinBudget_admits]
    -- the history of the child itself changes, that of no other
    have hsolo : ∀ b' : Book, (∀ m', m'≠m → b'.own m'=b.own m') →
        Kept n w later (admits n w (s.lifetimes m).restarts later).2 (b'.own m) → ∀ m', Kept n w later
          (Function.update s.lifetimes m {s.lifetimes m with
            restarts := (admits n w (s.lifetimes m).restarts later).2} m').restarts (b'.own m') := by
      intro b' hother hself m'
      by_cases hm : m'=m
      · subst hm
        rw [update_self]
        exact hself
      · rw [update_of_ne hm,hother m' hm]
        exact hlater.solo m'
    cases hgrant : (admits n w (s.lifetimes m).restarts later).1 with
    | true =>
      rw [hgrant,if_pos rfl] at hkept
      rw [if_pos rfl,if_pos rfl]
      refine hlater.turn rfl (.solo m later) hlater.cohort (hsolo _ (fun m' hm => ?_) ?_) ?_ (fun _ => hfresh rfl) (by simp)
        hlater.length ⟨h.cohorts,fun _ => hkind.symm.trans hall⟩ (fun hopen => ⟨hopen,fun hmem => absurd hmem (hfresh rfl)⟩)
      · rw [own_append,if_neg (Ne.symm hm)]
      · rw [own_append,if_pos rfl]
        exact hkept
      · exact fun _ => ⟨hall,later,by simp⟩
    | false =>
      rw [hgrant,if_neg (by simp)] at hkept
      rw [if_neg (by simp),if_neg (by simp)]
      exact hlater.turn rfl .same hlater.cohort (hsolo b (fun _ _ => rfl) hkept) (tells_refused b all n w t m c)
        (fun _ => hfresh rfl) (by simp) hlater.length ⟨h.cohorts,h.singles⟩
        (fun hopen => ⟨hopen,fun hmem => absurd hmem (hfresh rfl)⟩)
  | closed | recovery | evaluate | closedAgain | recoveryAgain | lock | group | register | swap | done =>
    simp only [note,ht]
    exact hlater

theorem failurePolicy_booked (h : Booked all n w now s b) {t d : ℕ} {joined : Joined} (hnone : s.tasks t=none)
    (hfixed : (ScopeAction.failurePolicy t m d joined).Fixed all n w) : Booked all n w now (s.failurePolicy t m d joined) b := by
  have hfresh:=h.fresh t hnone
  cases joined with
  | failed e => exact h.pass rfl rfl (fun _ => rfl) hfresh (fun f hf => by simp at hf) (by simp) rfl
  | expired => exact h.pass rfl rfl (fun _ => rfl) hfresh (tells_stop b all n w t m) (by simp) rfl
  | ready pending =>
    refine h.pass rfl rfl (fun _ => rfl) hfresh (fun c hc => ?_) (by simp) rfl
    subst hc
    exact hfixed

theorem evaluated_booked (h : Booked all n w now s b) {t d : ℕ} {outcome : Except ActorError (Option PolicyChoice)}
    (ht : s.tasks t=some (.policy m (.evaluate d))) (hfixed : (ScopeAction.evaluated t outcome).Fixed all n w) :
    Booked all n w now (s.evaluated t m d outcome) b := by
  have hfresh:=h.before t m _ ht rfl
  cases outcome with
  | error e => exact h.pass rfl rfl (fun _ => rfl) hfresh (fun f hf => by simp at hf) (by simp) rfl
  | ok choice =>
    cases choice with
    | none => exact h.pass rfl rfl (fun _ => rfl) hfresh (fun f hf => by simp at hf) (by simp) rfl
    | some c => exact h.pass rfl rfl (fun _ => rfl) hfresh hfixed (by simp) rfl

theorem step_booked (hinv : Inv s) (h : Booked all n w now s b) {a : ScopeAction} (hfixed : a.Fixed all n w)
    (hreads : ∀ time, a.reads=some time → now≤time) : Booked all n w (a.reads.getD now) (s.step a) (s.note b a) := by
  cases hdecides : s.decides a with
  | false =>
    have hnote : s.note b a=b := by
      cases a with
      | proceed t =>
        cases hk : s.tasks t with
        | none => simp [note,hk]
        | some k =>
          cases k with
          | policy m stage => simp [decides,hk,Task.isPolicy] at hdecides
          | spawn | finish | close => simp [note,hk]
      | admitted t time => simp [decides] at hdecides
      | spawn | create | bindRecovery | setStopping | failurePolicy | evaluated | dropGroup | finish | notified | close
      | joined | epoch => rfl
    have hnow : a.reads.getD now=now := by
      cases a with
      | admitted t time => simp [decides] at hdecides
      | spawn | create | bindRecovery | setStopping | failurePolicy | evaluated | dropGroup | finish | notified | close
      | joined | epoch | proceed => rfl
    rw [hnote,hnow]
    exact h.aside (step_aside hdecides) (move_closed (step_moves s a))
  | true =>
    cases a with
    | failurePolicy t m d joined =>
      simp only [step,begin]
      split
      · rename_i hnone
        exact failurePolicy_booked h hnone hfixed
      · exact h
    | evaluated t outcome =>
      simp only [step]
      split
      · rename_i m d ht
        exact evaluated_booked h ht hfixed
      · exact h
    | admitted t time =>
      have hle:=hreads time rfl
      simp only [step]
      split
      · rename_i m stage ht
        exact admitted_booked h ht hle
      · rename_i hother
        have hnote : s.note b (.admitted t time)=b := by
          simp only [note]
          split
          · rename_i m d c ht
            exact absurd ht (hother m _)
          · rename_i m c ht
            exact absurd ht (hother m _)
          · rfl
        rw [hnote]
        exact h.mono hle
    | proceed t =>
      cases ht : s.tasks t with
      | none => simp [decides,ht] at hdecides
      | some k =>
        cases k with
        | policy m stage =>
          simp only [step,ht]
          exact policyStep_booked hinv h ht
        | spawn | finish | close => simp [decides,ht,Task.isPolicy] at hdecides
    | spawn | create | bindRecovery | setStopping | dropGroup | finish | notified | close | joined | epoch =>
      simp [decides] at hdecides

theorem run_booked (hinv : Inv s) (h : Booked all n w now s b) {actions : List ScopeAction}
    (hfixed : ∀ a∈actions, a.Fixed all n w) (hreads : (now::actions.filterMap ScopeAction.reads).Pairwise (·≤·)) :
    ∀ last≥now, (∀ time∈actions.filterMap ScopeAction.reads, time≤last) →
      Booked all n w last (s.run actions) (s.recorded b actions) := by
  induction actions generalizing s b now with
  | nil => exact fun last hlast _ => h.mono hlast
  | cons a actions ih =>
    intro last hlast hbound
    have hhead:=hfixed a (List.mem_cons_self ..)
    have htail : ∀ a∈actions, a.Fixed all n w := fun a' ha' => hfixed a' (List.mem_cons_of_mem _ ha')
    cases hread : a.reads with
    | none =>
      rw [List.filterMap_cons_none hread] at hreads hbound
      have hnext:=step_booked hinv h hhead (fun time htime => by simp [hread] at htime)
      rw [hread] at hnext
      exact ih (step_inv hinv a) hnext htail hreads last hlast hbound
    | some time =>
      rw [List.filterMap_cons_some hread] at hreads hbound
      obtain ⟨hnow,hrest⟩:=List.pairwise_cons.mp hreads
      have hnext:=step_booked hinv h hhead (fun time' htime => by
        obtain rfl:=Option.some.inj (hread.symm.trans htime)
        exact hnow time (List.mem_cons_self ..))
      rw [hread] at hnext
      exact ih (step_inv hinv a) hnext htail hrest last (hbound time (List.mem_cons_self ..))
        fun time' htime => hbound time' (List.mem_cons_of_mem _ htime)

end ChildScope

open ChildScope

namespace ChildScope

end ChildScope

def ScopeAction.fails : ScopeAction → Option ℕ
  | .failurePolicy t _ _ _ => some t
  | _ => none

end Parrot.Children
