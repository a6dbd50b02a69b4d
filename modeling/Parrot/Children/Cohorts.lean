import Parrot.Children.Barrier
import Parrot.Children.Moves

/-! # One cohort at a time

A failure group, or a recovery whose callback has not run, is the cohort of the scope. -/

namespace Parrot.Children
open Function (update_self update_of_ne update)

namespace Recovery
variable {r : Recovery}

theorem Sound.decided (h : Sound r) (hret : r.returned≠[]) : r.error.isSome=true ∨ r.committed=true := by
  cases h.gate.released with
  | inl hsilent => exact absurd hsilent.2.1 hret
  | inr hcalled =>
    obtain ⟨b,-,-,hwhy⟩:=hcalled
    cases b with
    | true => exact .inr hwhy
    | false => exact .inl hwhy.1

theorem abort_returned (r : Recovery) (error : String) : (r.abort error).returned=r.returned := by
  unfold abort
  split
  · rfl
  · rfl

theorem abort_decides (r : Recovery) (error : String) :
    (r.abort error).error.isSome=true ∨ (r.abort error).committed=true := by
  unfold abort
  split
  · rename_i h
    exact (Bool.or_eq_true_iff.mp h).symm
  · exact .inl rfl

theorem arrive_returned {member : Uuid} {step : Step} {out : Recovery × Stage} (h : Arrives r member step out) :
    out.1.returned=r.returned := by
  cases h with
  | late | refused | counted | advanced | committed => rfl

theorem step_receipt_returned (r : Recovery) (t : ℕ) (member : Uuid) :
    (r.step (.retiredAfterAbort t member)).returned=r.returned := by
  simp only [Recovery.step]
  split
  · rfl
  · unfold retiredAfterAbort
    split
    · rfl
    · rfl

end Recovery

inductive Cohort where
  | group (t : ℕ)
  | epoch (i : ℕ)

namespace ChildScope
open Recovery

theorem step_returned {r : Recovery} {a : Action} (hret : returns r a=false) : (r.step a).returned=r.returned := by
  cases a with
  | arrive t m st e =>
    simp only [Recovery.step]
    split
    · rfl
    · exact arrive_returned (arrive_arrives r m st e)
  | proceed t =>
    simp only [Recovery.step]
    split
    · rfl
    · rename_i a ha
      cases hs : a.stage with
      | refused e => exact abort_returned r e
      | publish left =>
        cases left with
        | nil | cons => rfl
      | release =>
        rw [Recovery.proceed]
        split
        · rfl
        · rfl
      | callback =>
        simp [returns,ha,hs] at hret
      | take | activate | waiting | done _ | dropped => rfl
  | timeout | drop =>
    simp only [Recovery.step]
    split
    · exact abort_returned r _
    · rfl
  | abort e => exact abort_returned r e
  | onActivation => rfl
  | retiredAfterAbort t m => exact step_receipt_returned r t m
  | retire t =>
    simp only [Recovery.step]
    split
    · rfl
    · rename_i p hp
      cases p with
      | release =>
        rw [Recovery.retire]
        split
        · rfl
        · rfl
      | callback =>
        simp [returns,hp] at hret
      | done => rfl
  | activation =>
    simp only [Recovery.step]
    split
    · rfl
    · rfl
    · rfl

theorem step_returns {r : Recovery} (h : Sound r) {a : Action} (hret : returns r a=true) :
    r.returned=[] ∧ (r.step a).returned≠[] := by
  cases a with
  | proceed t =>
    cases ha : r.tasks t with
    | none => simp [returns,ha] at hret
    | some a =>
      have hs : a.stage=.callback := by
        simp only [returns,ha,Option.any_some] at hret
        split at hret
        · assumption
        · cases hret
      have hreach:=h.gate.stage t a ha
      rw [hs] at hreach
      refine ⟨hreach.2.2,?_⟩
      simp [Recovery.step,ha,hs,Recovery.proceed,Recovery.setTask]
  | retire t =>
    have hp : r.retirements t=some .callback := by simpa [returns] using hret
    refine ⟨(h.gate.answering t hp).2,?_⟩
    simp [Recovery.step,hp,Recovery.retire,Recovery.setRetirement]
  | arrive _ _ _ _ | timeout _ | drop _ | abort _ | onActivation | retiredAfterAbort _ _ | activation => cases hret

def Passed (s : ChildScope) : Task → Prop
  | .spawn .create => s.groupActive=false
  | .policy m (.eligible _ _) | .policy m (.register _) => s.groupActive=false ∧ m∈s.children.map Child.id
  | _ => True

variable {k : Task}

theorem passed_of_not_locks (s : ChildScope) (h : k.locks=false) : s.Passed k := by
  unfold Passed
  split
  · cases h
  · cases h
  · cases h
  · trivial

structure Locks (s : ChildScope) : Prop where
  held : ∀ t k, s.tasks t=some k → k.locks=true → s.childrenLock=some t
  passed : ∀ t k, s.tasks t=some k → s.Passed k

theorem new_locks : Locks new := ⟨fun _ _ h => (by cases h),fun _ _ h => (by cases h)⟩

variable {s s' : ChildScope}

theorem update_eq_some {α : Type} {f : ℕ → Option α} {t u : ℕ} {k k' : α} (h : update f t (some k) u=some k') :
    u=t ∧ k'=k ∨ u≠t ∧ f u=some k' := by
  by_cases hu : u=t
  · rw [hu,update_self] at h
    exact .inl ⟨hu,(Option.some.inj h).symm⟩
  · rw [update_of_ne hu] at h
    exact .inr ⟨hu,h⟩

theorem Locks.others (h : Locks s) {t u : ℕ} (hlock : s.childrenLock=none ∨ s.childrenLock=some t)
    (hu : u≠t) (hk : s.tasks u=some k) : k.locks=false := by
  rw [← Bool.not_eq_true]
  intro hlocks
  have hheld:=h.held u k hk hlocks
  cases hlock with
  | inl hnone => cases hnone.symm.trans hheld
  | inr hsome => exact hu (Option.some.inj (hheld.symm.trans hsome))

variable {t : ℕ}

theorem Locks.own (h : Locks s) (hlock : s.childrenLock=none ∨ s.childrenLock=some t)
    (htasks : s'.tasks=update s.tasks t (some k)) (hk : k.locks=true → s'.childrenLock=some t)
    (hp : s'.Passed k) : Locks s' := by
  refine ⟨fun u k' hk' hlocks => ?_,fun u k' hk' => ?_⟩
  · rw [htasks] at hk'
    cases update_eq_some hk' with
    | inl hself =>
      obtain ⟨rfl,rfl⟩:=hself
      exact hk hlocks
    | inr hother => exact absurd hlocks (by rw [h.others hlock hother.1 hother.2]; decide)
  · rw [htasks] at hk'
    cases update_eq_some hk' with
    | inl hself =>
      obtain ⟨-,rfl⟩:=hself
      exact hp
    | inr hother => exact passed_of_not_locks s' (h.others hlock hother.1 hother.2)

theorem Passed.mono (h : s.Passed k) (hchildren : s'.children=s.children)
    (hflag : s.groupActive=false → s'.groupActive=false) : s'.Passed k := by
  unfold Passed at h ⊢
  split
  · exact hflag h
  · rw [hchildren]
    exact ⟨hflag h.1,h.2⟩
  · rw [hchildren]
    exact ⟨hflag h.1,h.2⟩
  · trivial

theorem Locks.mono (h : Locks s) (htasks : s'.tasks=s.tasks)
    (hsame : (s'.childrenLock,s'.children)=(s.childrenLock,s.children))
    (hflag : s.groupActive=false → s'.groupActive=false) : Locks s' := by
  obtain ⟨hlock,hchildren⟩:=Prod.mk.inj hsame
  refine ⟨fun t k hk hlocks => ?_,fun t k hk => ?_⟩
  · rw [htasks] at hk
    rw [hlock]
    exact h.held t k hk hlocks
  · rw [htasks] at hk
    exact (h.passed t k hk).mono hchildren hflag

theorem Locks.outside (h : Locks s) (htasks : s'.tasks=update s.tasks t (some k))
    (hsame : (s'.childrenLock,s'.children)=(s.childrenLock,s.children))
    (hflag : s.groupActive=false → s'.groupActive=false) (hk : k.locks=false) : Locks s' := by
  obtain ⟨hlock,hchildren⟩:=Prod.mk.inj hsame
  refine ⟨fun u k' hk' hlocks => ?_,fun u k' hk' => ?_⟩
  · rw [htasks] at hk'
    cases update_eq_some hk' with
    | inl hself =>
      obtain ⟨-,rfl⟩:=hself
      exact absurd hlocks (by rw [hk]; decide)
    | inr hother =>
      rw [hlock]
      exact h.held u k' hother.2 hlocks
  · rw [htasks] at hk'
    cases update_eq_some hk' with
    | inl hself =>
      obtain ⟨-,rfl⟩:=hself
      exact passed_of_not_locks _ hk
    | inr hother => exact (h.passed u k' hother.2).mono hchildren hflag

theorem Locks.free (h : Locks s) (hfree : s.childrenLock=none) (htasks : s'.tasks=s.tasks) : Locks s' := by
  have hnone : ∀ t k, s'.tasks t=some k → k.locks=false := by
    intro t k hk
    rw [htasks] at hk
    rw [← Bool.not_eq_true]
    intro hlocks
    cases hfree.symm.trans (h.held t k hk hlocks)
  exact ⟨fun t k hk hlocks => absurd hlocks (by rw [hnone t k hk]; decide),
    fun t k hk => passed_of_not_locks s' (hnone t k hk)⟩

theorem move_locks (h : Locks s) (hmove : Move s s') : Locks s' := by
  cases hmove with
  | stay => exact h
  | lifetimes | epoch => exact h.mono rfl rfl id
  | idle t k l _ _ hk => exact h.outside rfl rfl id (Task.not_locks_of_idle hk)
  | acquire | assigned | finished | aborts | receipts | notified | closeLocks | closeAborts | snapshots | joins =>
    exact h.outside rfl rfl id rfl
  | spawnFails t e stage created ht hpending hfree _ =>
    have hlock : s.childrenLock=none ∨ s.childrenLock=some t := by
      cases stage with
      | lock => exact .inl (hfree rfl)
      | group | create => exact .inr (h.held t _ ht rfl)
      | done r => cases hpending
    exact h.own hlock rfl (fun hc => by cases hc) trivial
  | spawnLocks t ht hfree _ => exact h.own (.inl hfree) rfl (fun _ => rfl) trivial
  | spawnPasses t ht hidle =>
    have hheld:=h.held t _ ht rfl
    exact h.own (.inr hheld) rfl (fun _ => hheld) hidle
  | inserts t id ht _ => exact h.own (.inr (h.held t _ ht rfl)) rfl (fun hc => by cases hc) trivial
  | policyLocks t m d c ht hfree => exact h.own (.inl hfree) rfl (fun _ => rfl) trivial
  | policyPasses t m d c ht hidle hmem =>
    have hheld:=h.held t _ ht rfl
    exact h.own (.inr hheld) rfl (fun _ => hheld) ⟨hidle,hmem⟩
  | policyAdmitted t m d c g ht =>
    have hheld:=h.held t _ ht rfl
    have hpassed:=h.passed t _ ht
    exact h.own (.inr hheld) rfl (fun _ => hheld) hpassed
  | policyUnlocks t m stage k g ht hlocks hk =>
    have hheld:=h.held t _ ht hlocks
    have hidle:=Task.not_locks_of_idle hk
    exact h.own (.inr hheld) rfl (fun hc => absurd hc (by rw [hidle]; decide)) (passed_of_not_locks _ hidle)
  | registers t m c ht hactive hopen =>
    rw [register,if_neg (by rw [hactive]; decide),if_neg (by rw [hopen]; decide)]
    exact h.own (.inr (h.held t _ ht rfl)) rfl (fun hc => by cases hc) trivial
  | swaps t m c ht hfree _ => exact h.own (.inl hfree) rfl (fun hc => by cases hc) trivial
  | dropsGroup t g _ => exact h.mono rfl rfl fun _ => rfl
  | removes t m res ht hfree =>
    rw [finishStep,if_neg (by rw [hfree]; decide)]
    exact h.own (.inl hfree) rfl (fun _ => rfl) trivial
  | records t m res c a ht => exact h.own (.inr (h.held t _ ht rfl)) rfl (fun hc => by cases hc) trivial
  | releases i r a _ _ _ _ hfree => exact h.free hfree rfl

/-- A failure group that is not dropped, a recovery that is not released. -/
def Alive (s : ChildScope) : Cohort → Prop
  | .group t => ∃ g, s.groups t=some g
  | .epoch i => ∃ r, s.epochs i=some r ∧ r.returned=[]

def Owes (s : ChildScope) : Task → Prop
  | .finish m _ (.abort i _) => ∃ r, s.epochs i=some r ∧ m∈r.members
  | .finish m _ (.receipt i _) => ∃ r, s.epochs i=some r ∧ m∈r.members ∧ (r.error.isSome=true ∨ r.committed=true)
  | _ => True

structure Cohorts (s : ChildScope) : Prop where
  sound : ∀ i r, s.epochs i=some r → Sound r
  active : s.groupActive=true ↔ ∃ c, s.Alive c
  one : ∀ c c', s.Alive c → s.Alive c' → c=c'
  known : ∀ i r, s.epochs i=some r → i<s.registered
  inForce : ∀ i, s.Alive (.epoch i) → s.activeRecovery=some i
  assigned : ∀ m i, (s.lifetimes m).recovery=some i → ∃ r, s.epochs i=some r ∧ m∈r.members ∧ r.returned=[]
  owes : ∀ t k, s.tasks t=some k → s.Owes k

theorem new_cohorts : Cohorts new where
  sound := fun _ _ h => by cases h
  active := by
    refine ⟨fun h => (by cases h),fun ⟨c,hc⟩ => ?_⟩
    cases c with
    | group t =>
      obtain ⟨g,hg⟩:=hc
      cases hg
    | epoch i =>
      obtain ⟨r,hr,-⟩:=hc
      cases hr
  one := fun c c' hc => by
    cases c with
    | group t =>
      obtain ⟨g,hg⟩:=hc
      cases hg
    | epoch i =>
      obtain ⟨r,hr,-⟩:=hc
      cases hr
  known := fun _ _ h => by cases h
  inForce := fun i hi => by
    obtain ⟨r,hr,-⟩:=hi
    cases hr
  assigned := fun _ _ h => by cases h
  owes := fun _ _ h => by cases h

structure Further (s s' : ChildScope) : Prop where
  back : ∀ i r', s'.epochs i=some r' → ∃ r, s.epochs i=some r ∧ r.returned=r'.returned
  on : ∀ i r, s.epochs i=some r → ∃ r', s'.epochs i=some r' ∧ Decided r r' ∧ r'.returned=r.returned

theorem Further.of_eq (h : s'.epochs=s.epochs) : Further s s' := by
  refine ⟨fun i r' hr' => ⟨r',by rw [← h]; exact hr',rfl⟩,fun i r hr => ⟨r,by rw [h]; exact hr,Decided.refl r,rfl⟩⟩

theorem Further.update {i : ℕ} {r r' : Recovery} (hr : s.epochs i=some r) (hdec : Decided r r')
    (hret : r'.returned=r.returned) (h : s'.epochs=update s.epochs i (some r')) : Further s s' := by
  refine ⟨fun j q hq => ?_,fun j q hq => ?_⟩
  · rw [h] at hq
    by_cases hj : j=i
    · rw [hj,update_self] at hq
      cases hq
      exact ⟨r,hj ▸ hr,hret.symm⟩
    · rw [update_of_ne hj] at hq
      exact ⟨q,hq,rfl⟩
  · rw [h]
    by_cases hj : j=i
    · rw [hj,update_self]
      rw [hj,hr] at hq
      cases hq
      exact ⟨r',rfl,hdec,hret⟩
    · rw [update_of_ne hj]
      exact ⟨q,hq,Decided.refl q,rfl⟩

theorem owes_on (hon : ∀ i r, s.epochs i=some r → ∃ r', s'.epochs i=some r' ∧ Decided r r')
    (hk : s.Owes k) : s'.Owes k := by
  unfold Owes at hk ⊢
  split
  · obtain ⟨r,hr,hmem⟩:=hk
    obtain ⟨r',hr',hdec⟩:=hon _ r hr
    exact ⟨r',hr',hdec.2.2 ▸ hmem⟩
  · obtain ⟨r,hr,hmem,hdone⟩:=hk
    obtain ⟨r',hr',hdec⟩:=hon _ r hr
    exact ⟨r',hr',hdec.2.2 ▸ hmem,hdone.imp (fun he => by rw [hdec.2.1 he]; exact he) hdec.1⟩
  · trivial

theorem Further.owes (h : Further s s') (hk : s.Owes k) : s'.Owes k := by
  refine owes_on (fun i r hr => ?_) hk
  obtain ⟨r',hr',hdec,-⟩:=h.on i r hr
  exact ⟨r',hr',hdec⟩

theorem Cohorts.further (h : Cohorts s) (hfar : Further s s') (hsound : ∀ i r, s'.epochs i=some r → Sound r)
    (hsame : (s'.groupActive,s'.groups,s'.registered,s'.activeRecovery) =
      (s.groupActive,s.groups,s.registered,s.activeRecovery))
    (hlife : ∀ m, (s'.lifetimes m).recovery=(s.lifetimes m).recovery)
    (howes : ∀ t k, s'.tasks t=some k → s'.Owes k) : Cohorts s' := by
  simp only [Prod.mk.injEq] at hsame
  obtain ⟨hflag,hgroups,hreg,hact⟩:=hsame
  have halive : ∀ c, s'.Alive c ↔ s.Alive c := by
    intro c
    cases c with
    | group t => simp only [Alive,hgroups]
    | epoch i =>
      constructor
      · intro hc
        obtain ⟨r',hr',hnil⟩:=hc
        obtain ⟨r,hr,heq⟩:=hfar.back i r' hr'
        exact ⟨r,hr,heq.trans hnil⟩
      · intro hc
        obtain ⟨r,hr,hnil⟩:=hc
        obtain ⟨r',hr',-,heq⟩:=hfar.on i r hr
        exact ⟨r',hr',heq.trans hnil⟩
  refine ⟨hsound,?_,fun c c' hc hc' => h.one c c' ((halive c).mp hc) ((halive c').mp hc'),fun i r' hr' => ?_,
    fun i hi => ?_,fun m i hm => ?_,howes⟩
  · rw [hflag,h.active]
    exact exists_congr fun c => (halive c).symm
  · obtain ⟨r,hr,-⟩:=hfar.back i r' hr'
    rw [hreg]
    exact h.known i r hr
  · rw [hact]
    exact h.inForce i ((halive _).mp hi)
  · rw [hlife] at hm
    obtain ⟨r,hr,hmem,hnil⟩:=h.assigned m i hm
    obtain ⟨r',hr',hdec,heq⟩:=hfar.on i r hr
    exact ⟨r',hr',hdec.2.2 ▸ hmem,heq.trans hnil⟩

theorem owes_update (h : Cohorts s) (hfar : Further s s') (htasks : s'.tasks=update s.tasks t (some k))
    (hk : s'.Owes k) : ∀ u k', s'.tasks u=some k' → s'.Owes k' := by
  intro u k' hk'
  rw [htasks] at hk'
  cases update_eq_some hk' with
  | inl hself =>
    obtain ⟨-,rfl⟩:=hself
    exact hk
  | inr hother => exact hfar.owes (h.owes u k' hother.2)

theorem Cohorts.pass (h : Cohorts s) (htasks : s'.tasks=update s.tasks t (some k))
    (hepochs : s'.epochs=s.epochs) (hsame : (s'.groupActive,s'.groups,s'.registered,s'.activeRecovery) =
      (s.groupActive,s.groups,s.registered,s.activeRecovery))
    (hlife : ∀ m, (s'.lifetimes m).recovery=(s.lifetimes m).recovery) (hk : s'.Owes k) : Cohorts s' := by
  have hfar:=Further.of_eq hepochs
  exact h.further hfar (fun i r hr => h.sound i r (hepochs ▸ hr)) hsame hlife (owes_update h hfar htasks hk)

theorem owes_idle (s : ChildScope) (hk : k.idle=true) : s.Owes k := by
  unfold Owes
  split
  · cases hk
  · cases hk
  · trivial

theorem Cohorts.none_alive (h : Cohorts s) (hidle : s.groupActive=false) (c : Cohort) : ¬s.Alive c := by
  intro hc
  have hflag:=h.active.mpr ⟨c,hc⟩
  exact absurd (hidle.symm.trans hflag) (by decide)

theorem alive_begins (s' : ChildScope) (h : Cohorts s) (hidle : s.groupActive=false) {c : Cohort} (hc : s'.Alive c)
    (hback : ∀ c', s'.Alive c' → c'=c ∨ s.Alive c') (hflag : s'.groupActive=true) :
    (s'.groupActive=true ↔ ∃ c, s'.Alive c) ∧ ∀ c₁ c₂, s'.Alive c₁ → s'.Alive c₂ → c₁=c₂ := by
  have honly : ∀ c', s'.Alive c' → c'=c := fun c' hc' => (hback c' hc').resolve_right (h.none_alive hidle c')
  exact ⟨⟨fun _ => ⟨c,hc⟩,fun _ => hflag⟩,fun c₁ c₂ h₁ h₂ => (honly c₁ h₁).trans (honly c₂ h₂).symm⟩

theorem alive_ends (s' : ChildScope) (h : Cohorts s) {c : Cohort} (hc : s.Alive c) (hgone : ¬s'.Alive c)
    (hback : ∀ c', s'.Alive c' → s.Alive c') (hflag : s'.groupActive=false) :
    (s'.groupActive=true ↔ ∃ c, s'.Alive c) ∧ ∀ c', ¬s'.Alive c' := by
  have hnone : ∀ c', ¬s'.Alive c' := by
    intro c' hc'
    obtain rfl:=h.one c' c (hback c' hc') hc
    exact hgone hc'
  refine ⟨⟨fun hf => absurd (hflag.symm.trans hf) (by decide),fun hex => ?_⟩,hnone⟩
  obtain ⟨c',hc'⟩:=hex
  exact absurd hc' (hnone c')

theorem swaps_cohorts (h : Cohorts s) (hidle : s.groupActive=false) (t : ℕ) (g : List Uuid) :
    Cohorts {s with groupActive:=true,groups:=update s.groups t (some g)} := by
  have halive:=alive_begins {s with groupActive:=true,groups:=update s.groups t (some g)} h hidle
    (c := .group t) ⟨g,update_self ..⟩ (fun c' hc' => ?_) rfl
  · exact ⟨h.sound,halive.1,halive.2,h.known,fun i hi => h.inForce i hi,h.assigned,h.owes⟩
  · cases c' with
    | epoch i => exact .inr hc'
    | group u =>
      obtain ⟨g',hg'⟩:=hc'
      by_cases hu : u=t
      · exact .inl (by rw [hu])
      · exact .inr ⟨g',(update_of_ne hu ..).symm.trans hg'⟩

theorem dropsGroup_cohorts (h : Cohorts s) {g : List Uuid} (hg : s.groups t=some g) :
    Cohorts {s with groupActive:=false,groups:=update s.groups t none} := by
  have halive:=alive_ends {s with groupActive:=false,groups:=update s.groups t none} h
    (c := .group t) ⟨g,hg⟩ (fun hc => ?_) (fun c' hc' => ?_) rfl
  · exact ⟨h.sound,halive.1,fun c _ hc => absurd hc (halive.2 c),h.known,fun i hi => absurd hi (halive.2 _),
      h.assigned,h.owes⟩
  · obtain ⟨g',hg'⟩:=hc
    exact absurd ((update_self ..).symm.trans hg') (by simp)
  · cases c' with
    | epoch i => exact hc'
    | group u =>
      obtain ⟨g',hg'⟩:=hc'
      by_cases hu : u=t
      · rw [hu] at hg'
        exact absurd ((update_self ..).symm.trans hg') (by simp)
      · exact ⟨g',(update_of_ne hu ..).symm.trans hg'⟩

theorem registers_cohorts (hl : Locks s) (h : Cohorts s) {m : Uuid} {c : PolicyChoice}
    (ht : s.tasks t=some (.policy m (.register c))) (hactive : s.activeLock=none) (hopen : s.closed=false) :
    Cohorts (s.register t m c) := by
  obtain ⟨hidle,hmem⟩:=hl.passed t _ ht
  have hsound : Sound (Recovery.new (s.children.map Child.id)) := ⟨new_votes (List.ne_nil_of_mem hmem),new_gate _⟩
  have hfresh : ∀ i r, s.epochs i=some r → i≠s.registered := fun i r hr => Nat.ne_of_lt (h.known i r hr)
  have hself : s.enrol.epochs s.registered=some (Recovery.new (s.children.map Child.id)) := update_self ..
  have hother : ∀ i r, s.epochs i=some r → s.enrol.epochs i=some r := fun i r hr =>
    (update_of_ne (hfresh i r hr) ..).trans hr
  obtain ⟨hflag,hone⟩:=alive_begins s.enrol h hidle (c := .epoch s.registered) ⟨_,hself,rfl⟩ (fun c' hc' => by
    cases c' with
    | group u => exact .inr hc'
    | epoch i =>
      obtain ⟨r,hr,hnil⟩:=hc'
      cases update_eq_some hr with
      | inl hnew => exact .inl (by rw [hnew.1])
      | inr hold => exact .inr ⟨r,hold.2,hnil⟩) rfl
  rw [register,if_neg (by rw [hactive]; decide),if_neg (by rw [hopen]; decide)]
  refine ⟨fun i r hr => ?_,hflag,hone,fun i r hr => ?_,fun i hi => ?_,fun m' i hi => ?_,fun u k hk => ?_⟩
  · cases update_eq_some hr with
    | inl hnew =>
      obtain ⟨-,rfl⟩:=hnew
      exact hsound
    | inr hold => exact h.sound i r hold.2
  · cases update_eq_some hr with
    | inl hnew => exact Nat.lt_succ_of_le (le_of_eq hnew.1)
    | inr hold => exact Nat.lt_succ_of_lt (h.known i r hold.2)
  · cases hone (.epoch i) (.epoch s.registered) hi ⟨_,hself,rfl⟩
    rfl
  · change (if m'∈s.children.map Child.id then {s.lifetimes m' with recovery:=some s.registered}
      else s.lifetimes m').recovery=some i at hi
    split at hi
    · rename_i hin
      cases hi
      exact ⟨_,hself,List.mem_dedup.mpr hin,rfl⟩
    · obtain ⟨r,hr,hmem',hnil⟩:=h.assigned m' i hi
      exact ⟨r,hother i r hr,hmem',hnil⟩
  · cases update_eq_some hk with
    | inl hnew =>
      obtain ⟨-,rfl⟩:=hnew
      trivial
    | inr hold => exact owes_on (fun i r hr => ⟨r,hother i r hr,Decided.refl r⟩) (h.owes u k hold.2)

theorem releases_cohorts (h : Cohorts s) {i : ℕ} {r : Recovery} {a : Action} (hr : s.epochs i=some r)
    (hperm : r.Permitted a) (hret : returns r a=true) : Cohorts ((s.release i r.members).setEpoch i (r.step a)) := by
  obtain ⟨hnil,hsome⟩:=step_returns (h.sound i r hr) hret
  have hdec:=step_decided r a
  obtain ⟨hflag,hnone⟩:=alive_ends ((s.release i r.members).setEpoch i (r.step a)) h (c := .epoch i) ⟨r,hr,hnil⟩
    (fun hc => by
      obtain ⟨q,hq,hqnil⟩:=hc
      cases update_eq_some hq with
      | inl hself =>
        obtain ⟨-,rfl⟩:=hself
        exact hsome hqnil
      | inr hother => exact hother.1 rfl)
    (fun c' hc' => by
      cases c' with
      | group u => exact hc'
      | epoch j =>
        obtain ⟨q,hq,hqnil⟩:=hc'
        cases update_eq_some hq with
        | inl hself =>
          obtain ⟨-,rfl⟩:=hself
          exact absurd hqnil hsome
        | inr hother => exact ⟨q,hother.2,hqnil⟩) rfl
  refine ⟨fun j q hq => ?_,hflag,fun c _ hc => absurd hc (hnone c),fun j q hq => ?_,fun j hj => absurd hj (hnone _),
    fun m j hj => ?_,fun u k hk => ?_⟩
  · cases update_eq_some hq with
    | inl hself =>
      obtain ⟨-,rfl⟩:=hself
      exact step_sound (h.sound i r hr) hperm
    | inr hother => exact h.sound j q hother.2
  · cases update_eq_some hq with
    | inl hself => exact hself.1 ▸ h.known i r hr
    | inr hother => exact h.known j q hother.2
  · change (if m∈r.members ∧ (s.lifetimes m).recovery=some i then {s.lifetimes m with recovery:=none}
      else s.lifetimes m).recovery=some j at hj
    split at hj
    · cases hj
    · rename_i hout
      obtain ⟨q,hq,hmem,hqnil⟩:=h.assigned m j hj
      by_cases hji : j=i
      · subst hji
        obtain rfl:=Option.some.inj (hr.symm.trans hq)
        exact absurd ⟨hmem,hj⟩ hout
      · exact ⟨q,(update_of_ne hji ..).trans hq,hmem,hqnil⟩
  · refine owes_on (fun j q hq => ?_) (h.owes u k hk)
    by_cases hji : j=i
    · subst hji
      obtain rfl:=Option.some.inj (hr.symm.trans hq)
      exact ⟨_,update_self ..,hdec⟩
    · exact ⟨q,(update_of_ne hji ..).trans hq,Decided.refl q⟩

theorem Cohorts.setEpoch (h : Cohorts s) {i : ℕ} {r r' : Recovery} (hr : s.epochs i=some r) (hsound : Sound r')
    (hdec : Decided r r') (hret : r'.returned=r.returned) (hepochs : s'.epochs=update s.epochs i (some r'))
    (hsame : (s'.groupActive,s'.groups,s'.registered,s'.activeRecovery,s'.lifetimes) =
      (s.groupActive,s.groups,s.registered,s.activeRecovery,s.lifetimes))
    (howes : ∀ t k, s'.tasks t=some k → s'.Owes k) : Cohorts s' := by
  simp only [Prod.mk.injEq] at hsame
  obtain ⟨hflag,hgroups,hreg,hact,hlife⟩:=hsame
  refine h.further (Further.update hr hdec hret hepochs) (fun j q hq => ?_) (by rw [hflag,hgroups,hreg,hact])
    (fun m => by rw [hlife]) howes
  rw [hepochs] at hq
  cases update_eq_some hq with
  | inl hself =>
    obtain ⟨-,rfl⟩:=hself
    exact hsound
  | inr hother => exact h.sound j q hother.2

theorem closeAborts_epochs (s : ChildScope) (t : ℕ) (j : Bool) (i : ℕ) :
    (s.closeStep t j .abort).epochs i=if s.activeRecovery=some i then
      (s.epochs i).map fun r => r.abort "parent stop cancelled cohort recovery" else s.epochs i := rfl

theorem closeAborts_further (s : ChildScope) (t : ℕ) (j : Bool) : Further s (s.closeStep t j .abort) := by
  refine ⟨fun i r' hr' => ?_,fun i r hr => ?_⟩
  · rw [closeAborts_epochs] at hr'
    split at hr'
    · obtain ⟨r,hr,rfl⟩:=Option.map_eq_some_iff.mp hr'
      exact ⟨r,hr,(abort_returned r _).symm⟩
    · exact ⟨r',hr',rfl⟩
  · rw [closeAborts_epochs]
    split
    · exact ⟨_,by rw [hr]; rfl,abort_decided r _,abort_returned r _⟩
    · exact ⟨r,hr,Decided.refl r,rfl⟩

theorem closeAborts_cohorts (h : Cohorts s) (t : ℕ) (j : Bool) : Cohorts (s.closeStep t j .abort) := by
  have hfar:=closeAborts_further s t j
  refine h.further hfar (fun i r' hr' => ?_) rfl (fun _ => rfl) (owes_update h hfar rfl trivial)
  rw [closeAborts_epochs] at hr'
  split at hr'
  · obtain ⟨r,hr,rfl⟩:=Option.map_eq_some_iff.mp hr'
    obtain ⟨hv,hg⟩:=h.sound i r hr
    exact ⟨abort_votes hv _,abort_gate hg _⟩
  · exact h.sound i r' hr'

theorem move_cohorts (hl : Locks s) (h : Cohorts s) (hmove : Move s s') : Cohorts s' := by
  have hsame : ∀ m, (s.lifetimes m).recovery=(s.lifetimes m).recovery := fun _ => rfl
  cases hmove with
  | stay => exact h
  | lifetimes l hlife =>
    exact h.further (Further.of_eq rfl) h.sound rfl hlife fun t k hk => h.owes t k hk
  | idle t k l hlife _ hk => exact h.pass rfl rfl rfl hlife (owes_idle _ hk)
  | acquire | spawnFails | spawnLocks | spawnPasses | inserts | policyLocks | policyPasses | policyAdmitted | records
  | finished | notified | closeLocks | snapshots | joins => exact h.pass rfl rfl rfl hsame trivial
  | policyUnlocks t m stage k g _ _ hk => exact h.pass rfl rfl rfl hsame (owes_idle _ hk)
  | registers t m c ht hactive hopen => exact registers_cohorts hl h ht hactive hopen
  | swaps t m c _ _ hidle => exact (swaps_cohorts h hidle t _).pass rfl rfl rfl hsame trivial
  | dropsGroup t g hg => exact dropsGroup_cohorts h hg
  | removes t m res _ hfree =>
    rw [finishStep,if_neg (by rw [hfree]; decide)]
    exact h.pass rfl rfl rfl hsame trivial
  | assigned t m res c i _ hi =>
    refine h.pass rfl rfl rfl hsame ?_
    obtain ⟨hassigned,-⟩:=Option.filter_eq_some_iff.mp hi
    obtain ⟨r,hr,hmem,-⟩:=h.assigned m i hassigned
    exact ⟨r,hr,hmem⟩
  | aborts t m res c i r ht hr =>
    obtain ⟨hv,hg⟩:=h.sound i r hr
    have hdec:=abort_decided r "member terminated during cohort recovery"
    have hret:=abort_returned r "member terminated during cohort recovery"
    have hfar : Further s ((s.setEpoch i (r.abort _)).setTask t (.finish m res (.receipt i c))) :=
      Further.update hr hdec hret rfl
    refine h.setEpoch hr ⟨abort_votes hv _,abort_gate hg _⟩ hdec hret rfl rfl (owes_update h hfar rfl ?_)
    obtain ⟨q,hq,hmem⟩:=h.owes t _ ht
    obtain rfl:=Option.some.inj (hr.symm.trans hq)
    exact ⟨_,update_self ..,hdec.2.2 ▸ hmem,abort_decides r _⟩
  | receipts t m res c i r ht hr =>
    obtain ⟨q,hq,hmem,hdone⟩:=h.owes t _ ht
    obtain rfl:=Option.some.inj (hr.symm.trans hq)
    have hdec:=step_decided r (.retiredAfterAbort t m)
    have hret:=step_receipt_returned r t m
    have hfar : Further s ((s.setEpoch i (r.step (.retiredAfterAbort t m))).setTask t (.finish m res (.settle i c))) :=
      Further.update hr hdec hret rfl
    have hperm : r.Permitted (.retiredAfterAbort t m) := ⟨hdone,hmem⟩
    exact h.setEpoch hr (step_sound (h.sound i r hr) hperm) hdec hret rfl rfl (owes_update h hfar rfl trivial)
  | closeAborts t j _ => exact closeAborts_cohorts h t j
  | epoch i r a hr hperm _ hret =>
    have hdec:=step_decided r a
    have hkeep:=step_returned hret
    have hfar : Further s (s.setEpoch i (r.step a)) := Further.update hr hdec hkeep rfl
    exact h.setEpoch hr (step_sound (h.sound i r hr) hperm) hdec hkeep rfl rfl fun t k hk => hfar.owes (h.owes t k hk)
  | releases i r a hr hperm _ hret _ => exact releases_cohorts h hr hperm hret

end ChildScope

end Parrot.Children
