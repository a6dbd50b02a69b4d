import Parrot.Children.Closing
import Parrot.Lib.Window

/-! # Restart intensity (`supervisor_exec.rs:45-78`, `children.rs:555-587`, `children.rs:640-651`)

Three places let a failed actor restart under one rule: fewer than so many restarts in the
window before. -/

namespace Parrot.Children
open Function (update)
open Window

inductive SupervisorStrategy where
  | restart (maxRetries within : ℕ)
  | resume
  | stop
  | escalate

inductive EscalateReason where
  | strategy
  | exhausted (maxRetries within : ℕ)
  deriving DecidableEq

inductive Decision where
  | restart
  | stop
  | escalate (reason : EscalateReason)
  deriving DecidableEq

/-- `supervisor_exec::decide`. -/
def SupervisorStrategy.decide (strategy : SupervisorStrategy) (restarts : List ℕ) (now : ℕ) : Decision × List ℕ :=
  match strategy with
  | .stop | .resume => (.stop,restarts)
  | .escalate => (.escalate .strategy,restarts)
  | .restart maxRetries within =>
    let restarts:=restarts.filter fun time => now-time<within
    if restarts.length≥maxRetries then (.escalate (.exhausted maxRetries within),restarts)
    else (.restart,restarts++[now])

/-- The times kept after failures at the given times. -/
def SupervisorStrategy.history (strategy : SupervisorStrategy) (restarts times : List ℕ) : List ℕ :=
  times.foldl (fun restarts now => (strategy.decide restarts now).2) restarts

theorem withinBudget_admits (n w : ℕ) (history : List ℕ) (now : ℕ) :
    withinBudget history now (some (n,w))=admits n w history now := rfl

def Task.isPolicy : Task → Bool
  | .policy _ _ => true
  | _ => false

namespace ChildScope

variable {s s' : ChildScope}

structure Aside (s s' : ChildScope) : Prop where
  group : s'.groupRestarts=s.groupRestarts
  restarts : ∀ m, (s'.lifetimes m).restarts=(s.lifetimes m).restarts
  registered : s'.registered=s.registered
  tasks : s'.tasks=s.tasks ∨ ∃ t k, s'.tasks=update s.tasks t (some k) ∧ k.isPolicy=false ∧
    ∀ k', s.tasks t=some k' → k'.isPolicy=false

theorem Aside.refl (s : ChildScope) : Aside s s := ⟨rfl,fun _ => rfl,rfl,.inl rfl⟩

theorem Aside.task {t : ℕ} {k old : Task} (hold : s.tasks t=some old) (hother : old.isPolicy=false)
    (hgroup : s'.groupRestarts=s.groupRestarts) (hrestarts : ∀ m, (s'.lifetimes m).restarts=(s.lifetimes m).restarts)
    (hregistered : s'.registered=s.registered) (htasks : s'.tasks=update s.tasks t (some k))
    (hk : k.isPolicy=false) : Aside s s' := by
  refine ⟨hgroup,hrestarts,hregistered,.inr ⟨t,k,htasks,hk,fun k' hk' => ?_⟩⟩
  obtain rfl:=Option.some.inj (hold.symm.trans hk')
  exact hother

theorem begin_aside {t : ℕ} {start : ChildScope} {k : Task} (hgroup : start.groupRestarts=s.groupRestarts)
    (hrestarts : ∀ m, (start.lifetimes m).restarts=(s.lifetimes m).restarts)
    (hregistered : start.registered=s.registered) (htasks : start.tasks=update s.tasks t (some k))
    (hk : k.isPolicy=false) : Aside s (s.begin t start) := by
  unfold begin
  split
  · rename_i hnone
    refine ⟨hgroup,hrestarts,hregistered,.inr ⟨t,k,htasks,hk,fun k' hk' => ?_⟩⟩
    rw [hnone] at hk'
    contradiction
  · exact Aside.refl s

theorem spawnStep_aside {t : ℕ} {stage : SpawnStage} (ht : s.tasks t=some (.spawn stage)) :
    Aside s (s.spawnStep t stage) := by
  cases stage with
  | lock =>
    simp only [spawnStep]
    split
    · exact Aside.refl s
    · split
      · exact .task ht rfl rfl (fun _ => rfl) rfl rfl rfl
      · exact .task ht rfl rfl (fun _ => rfl) rfl rfl rfl
  | group =>
    simp only [spawnStep]
    split
    · exact .task ht rfl rfl (fun _ => rfl) rfl rfl rfl
    · exact .task ht rfl rfl (fun _ => rfl) rfl rfl rfl
  | create | done => exact Aside.refl s

theorem finishStep_aside {t : ℕ} {m : Uuid} {res : Except ActorError Unit} {stage : FinishStage}
    (ht : s.tasks t=some (.finish m res stage)) : Aside s (s.finishStep t m res stage) := by
  cases stage with
  | lock | abort | receipt =>
    simp only [finishStep]
    split
    · exact Aside.refl s
    · exact .task ht rfl rfl (fun _ => rfl) rfl rfl rfl
  | record child after => exact .task ht rfl rfl (fun _ => rfl) rfl rfl rfl
  | recovery child =>
    simp only [finishStep]
    split
    · exact .task ht rfl rfl (fun _ => rfl) rfl rfl rfl
    · exact .task ht rfl rfl (fun _ => rfl) rfl rfl rfl
  | settle i child =>
    simp only [finishStep]
    split
    · exact .task ht rfl rfl (fun _ => rfl) rfl rfl rfl
    · exact Aside.refl s
  | done child => exact Aside.refl s

theorem closeStep_aside {t : ℕ} {j : Bool} {stage : CloseStage} (ht : s.tasks t=some (.close j stage)) :
    Aside s (s.closeStep t j stage) := by
  cases stage with
  | lock | snapshot =>
    simp only [closeStep]
    split
    · exact Aside.refl s
    · exact .task ht rfl rfl (fun _ => rfl) rfl rfl rfl
  | abort => exact .task ht rfl rfl (fun _ => rfl) rfl rfl rfl
  | closed | waiting | done => exact Aside.refl s

theorem update_restarts {m : Uuid} {l : Lifetime} (h : l.restarts=(s.lifetimes m).restarts) (m' : Uuid) :
    (update s.lifetimes m l m').restarts=(s.lifetimes m').restarts := by
  by_cases heq : m'=m
  · subst heq
    rw [Function.update_self,h]
  · rw [Function.update_of_ne heq]

theorem epochStep_aside (s : ChildScope) (i : ℕ) (a : Action) : Aside s (s.epochStep i a) := by
  unfold epochStep
  split
  · exact Aside.refl s
  · rename_i r hr
    split
    · exact Aside.refl s
    · split
      · split
        · exact Aside.refl s
        · refine ⟨rfl,fun m => ?_,rfl,.inl rfl⟩
          change (if m∈r.members ∧ (s.lifetimes m).recovery=some i then {s.lifetimes m with recovery:=none}
            else s.lifetimes m).restarts=(s.lifetimes m).restarts
          split <;> rfl
      · exact ⟨rfl,fun _ => rfl,rfl,.inl rfl⟩

def decides (s : ChildScope) : ScopeAction → Bool
  | .failurePolicy _ _ _ _ | .evaluated _ _ | .admitted _ _ => true
  | .proceed t => (s.tasks t).any Task.isPolicy
  | _ => false

theorem step_aside {a : ScopeAction} (h : s.decides a=false) : Aside s (s.step a) := by
  cases a with
  | spawn t =>
    unfold step
    dsimp only
    split
    · exact begin_aside rfl (fun _ => rfl) rfl rfl rfl
    · exact begin_aside rfl (fun _ => rfl) rfl rfl rfl
  | create t id outcome =>
    unfold step
    dsimp only
    split
    · rename_i ht
      split
      · exact Aside.refl s
      · cases outcome with
        | error | ok => exact .task ht rfl rfl (fun _ => rfl) rfl rfl rfl
    · exact Aside.refl s
  | bindRecovery | setStopping => exact ⟨rfl,update_restarts rfl,rfl,.inl rfl⟩
  | failurePolicy | evaluated | admitted => contradiction
  | dropGroup t =>
    unfold step dropGroup
    dsimp only
    split
    · exact ⟨rfl,fun _ => rfl,rfl,.inl rfl⟩
    · exact Aside.refl s
  | finish | close => exact begin_aside rfl (fun _ => rfl) rfl rfl rfl
  | notified t =>
    unfold step
    dsimp only
    split
    · rename_i ht
      exact .task ht rfl rfl (fun _ => rfl) rfl rfl rfl
    · exact Aside.refl s
  | joined t stops disposal =>
    unfold step
    dsimp only
    split
    · rename_i j stage ht
      cases stage with
      | waiting snapshot => exact .task ht rfl rfl (fun _ => rfl) rfl rfl rfl
      | lock | abort | closed | snapshot | done => exact Aside.refl s
    · exact Aside.refl s
  | epoch i a => exact epochStep_aside s i a
  | proceed t =>
    unfold step
    dsimp only
    split
    · rename_i k ht
      cases k with
      | spawn stage => exact spawnStep_aside ht
      | policy m stage => simp [decides,ht,Task.isPolicy] at h
      | finish m res stage => exact finishStep_aside ht
      | close j stage => exact closeStep_aside ht
    · exact Aside.refl s

end ChildScope
end Parrot.Children
