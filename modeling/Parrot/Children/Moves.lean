import Parrot.Children.Scope

/-! # What a step of the scope can do

Every later proof goes by cases on `Move`. -/

namespace Parrot.Children
open Bool (not_eq_true)

namespace PolicyStage

def locks : PolicyStage → Bool
  | .group _ _ | .eligible _ _ | .register _ => true
  | _ => false

end PolicyStage

namespace SpawnStage

def pending : SpawnStage → Bool
  | .lock | .group | .create => true
  | .done _ => false

end SpawnStage

namespace FinishStage

def child : FinishStage → Option Child
  | .lock => none
  | .record c _ | .recovery c | .abort _ c | .receipt _ c | .settle _ c | .done c => c

end FinishStage

namespace Task

def locks : Task → Bool
  | .spawn .group | .spawn .create => true
  | .policy _ stage => stage.locks
  | .finish _ _ (.record _ _) => true
  | _ => false

def idle : Task → Bool
  | .spawn (.done (.error _)) => true
  | .policy _ stage => !stage.locks
  | .finish _ _ .lock => true
  | .close _ .lock => true
  | _ => false

theorem not_locks_of_idle {k : Task} (h : k.idle=true) : k.locks=false := by
  cases k with
  | spawn stage =>
    cases stage with
    | done | lock => rfl
    | group | create => cases h
  | policy m stage => simpa [idle,locks] using h
  | finish m r stage =>
    cases stage with
    | lock | recovery | abort | receipt | settle | done => rfl
    | record c a => cases h
  | close j stage => rfl

end Task

namespace ChildScope

inductive Move (s : ChildScope) : ChildScope → Prop where
  | stay : Move s s
  | lifetimes (l) : (∀ m, (l m).recovery=(s.lifetimes m).recovery) → Move s {s with lifetimes:=l}
  | idle (t k l) : (∀ m, (l m).recovery=(s.lifetimes m).recovery) → (∀ k', s.tasks t=some k' → k'.idle=true) →
      k.idle=true → Move s (({s with lifetimes:=l}).setTask t k)
  | acquire (t) : s.tasks t=none → s.permits.length < maxChildren →
      Move s (({s with permits:=t::s.permits}).setTask t (.spawn .lock))
  | spawnFails (t e stage created) : s.tasks t=some (.spawn stage) → stage.pending=true →
      (stage=.lock → s.childrenLock=none) → (∀ m∈s.created, m∈created) →
      Move s {s.spawnFails t e with created:=created}
  | spawnLocks (t) : s.tasks t=some (.spawn .lock) → s.childrenLock=none → s.closed=false →
      Move s ((s.lock t).setTask t (.spawn .group))
  | spawnPasses (t) : s.tasks t=some (.spawn .group) → s.groupActive=false → Move s (s.setTask t (.spawn .create))
  | inserts (t id) : s.tasks t=some (.spawn .create) → id∉s.created → Move s (s.create t id (.ok ()))
  | policyLocks (t m d c) : s.tasks t=some (.policy m (.lock d c)) → s.childrenLock=none →
      Move s ((s.lock t).setTask t (.policy m (.group d c)))
  | policyPasses (t m d c) : s.tasks t=some (.policy m (.group d c)) → s.groupActive=false →
      m∈s.children.map Child.id → Move s (s.setTask t (.policy m (.eligible d c)))
  | policyAdmitted (t m d c g) : s.tasks t=some (.policy m (.eligible d c)) →
      Move s (({s with groupRestarts:=g}).setTask t (.policy m (.register c)))
  | policyUnlocks (t m stage k g) : s.tasks t=some (.policy m stage) → stage.locks=true → k.idle=true →
      Move s (({s.unlock with groupRestarts:=g}).setTask t k)
  | registers (t m c) : s.tasks t=some (.policy m (.register c)) → s.activeLock=none → s.closed=false →
      Move s (s.register t m c)
  | swaps (t m c) : s.tasks t=some (.policy m (.swap c)) → s.childrenLock=none → s.groupActive=false →
      Move s (({s with
        groupActive := true
        groups := Function.update s.groups t (some ((s.children.map Child.id).filter (· ≠ m)))}).policyDone t m
        ⟨c.decision,true,none⟩)
  | dropsGroup (t g) : s.groups t=some g → Move s {s with groupActive:=false,groups:=Function.update s.groups t none}
  | removes (t m res) : s.tasks t=some (.finish m res .lock) → s.childrenLock=none →
      Move s (s.finishStep t m res .lock)
  | records (t m res c a) : s.tasks t=some (.finish m res (.record c a)) → Move s (s.finishStep t m res (.record c a))
  | assigned (t m res c i) : s.tasks t=some (.finish m res (.recovery c)) → s.recovery m=some i →
      Move s (s.setTask t (.finish m res (.abort i c)))
  | finished (t m res stage) : s.tasks t=some (.finish m res stage) → stage ≠ .lock →
      (Task.finish m res stage).locks=false → Move s (s.setTask t (.finish m res (.done stage.child)))
  | aborts (t m res c i r) : s.tasks t=some (.finish m res (.abort i c)) → s.epochs i=some r →
      Move s ((s.setEpoch i (r.abort "member terminated during cohort recovery")).setTask t
        (.finish m res (.receipt i c)))
  | receipts (t m res c i r) : s.tasks t=some (.finish m res (.receipt i c)) → s.epochs i=some r →
      Move s ((s.setEpoch i (r.step (.retiredAfterAbort t m))).setTask t (.finish m res (.settle i c)))
  | notified (t m res c) : s.tasks t=some (.finish m res (.done (some c))) →
      Move s ((s.dropPermit c.permit).setTask t (.finish m res (.done none)))
  | closeLocks (t j) : s.tasks t=some (.close j .lock) → s.activeLock=none →
      Move s (({s with closed:=true,activeLock:=some t}).setTask t (.close j .abort))
  | closeAborts (t j) : s.tasks t=some (.close j .abort) → Move s (s.closeStep t j .abort)
  | snapshots (t j) : s.tasks t=some (.close j .snapshot) → s.childrenLock=none →
      Move s (s.setTask t (.close j (.waiting (s.children.map Child.id))))
  | joins (t j stops a b) : s.tasks t=some (.close j (.waiting stops)) → Move s (s.joined t j a b (.waiting stops))
  | epoch (i r a) : s.epochs i=some r → r.Permitted a → receipt a=false → returns r a=false →
      Move s (s.setEpoch i (r.step a))
  | releases (i r a) : s.epochs i=some r → r.Permitted a → receipt a=false → returns r a=true →
      s.childrenLock=none → Move s ((s.release i r.members).setEpoch i (r.step a))

variable {s : ChildScope}

variable {t : ℕ}

theorem Move.rest {k : Task} (hold : ∀ k', s.tasks t=some k' → k'.idle=true) (hk : k.idle=true) :
    Move s (s.setTask t k) := Move.idle t k s.lifetimes (fun _ => rfl) hold hk

variable {m : Uuid}

theorem update_recovery (s : ChildScope) {l : Lifetime} (h : l.recovery=(s.lifetimes m).recovery) (m' : Uuid) :
    (Function.update s.lifetimes m l m').recovery=(s.lifetimes m').recovery := by
  by_cases hm : m'=m
  · subst hm
    rw [Function.update_self,h]
  · rw [Function.update_of_ne hm]

theorem begin_moves {start : ChildScope} (h : s.tasks t=none → Move s start) : Move s (s.begin t start) := by
  unfold ChildScope.begin
  split
  · exact h ‹_›
  · exact .stay

theorem lock_free {l : Option ℕ} (h : ¬l.isSome=true) : l=none := by
  cases l with
  | none => rfl
  | some t => exact absurd rfl h

theorem spawnStep_moves {stage : SpawnStage} (ht : s.tasks t=some (.spawn stage)) : Move s (s.spawnStep t stage) := by
  cases stage with
  | lock =>
    rw [spawnStep]
    split
    · exact .stay
    · rename_i hfree
      split
      · exact .spawnFails t .stopped _ s.created ht rfl (fun _ => lock_free hfree) fun _ hm => hm
      · exact .spawnLocks t ht (lock_free hfree) (not_eq_true _ ▸ ‹¬s.closed=true›)
  | group =>
    rw [spawnStep]
    split
    · exact .spawnFails t groupHandling _ s.created ht rfl (fun h => by cases h) fun _ hm => hm
    · exact .spawnPasses t ht (not_eq_true _ ▸ ‹¬s.groupActive=true›)
  | create | done => exact .stay

theorem policyDone_moves {policy : FailurePolicy} (hold : ∀ k', s.tasks t=some k' → k'.idle=true) :
    Move s (s.policyDone t m policy) := Move.rest hold rfl

theorem chosen_locks (deadline : ℕ) (choice : PolicyChoice) : (chosen deadline choice).locks=false := by
  unfold chosen
  split
  · rfl
  · split
    · rfl
    · rfl

theorem register_moves {c : PolicyChoice} (ht : s.tasks t=some (.policy m (.register c))) :
    Move s (s.register t m c) := by
  by_cases hactive : s.activeLock.isSome=true
  · rw [register,if_pos hactive]
    exact .stay
  · by_cases hclosed : s.closed=true
    · rw [register,if_neg hactive,if_pos hclosed]
      exact .policyUnlocks t m _ _ s.groupRestarts ht rfl rfl
    · exact .registers t m c ht (lock_free hactive) (not_eq_true _ ▸ hclosed)

theorem policyStep_moves {stage : PolicyStage} (ht : s.tasks t=some (.policy m stage)) :
    Move s (s.policyStep t m stage) := by
  have hold : stage.locks=false → ∀ k', s.tasks t=some k' → k'.idle=true := by
    intro hfree k' hk'
    obtain rfl:=Option.some.inj (ht.symm.trans hk')
    show (!stage.locks)=true
    rw [hfree]
    rfl
  cases stage with
  | closed | closedAgain =>
    rw [policyStep]
    split
    · exact policyDone_moves (hold rfl)
    · exact .rest (hold rfl) rfl
  | recovery d p =>
    simp only [policyStep]
    split
    · exact policyDone_moves (hold rfl)
    · exact .rest (hold rfl) rfl
    · exact .rest (hold rfl) rfl
    · exact .rest (hold rfl) rfl
  | evaluate | eligible | budget | done => exact .stay
  | recoveryAgain d c =>
    rw [policyStep]
    split
    · exact policyDone_moves (hold rfl)
    · refine .rest (hold rfl) ?_
      show (!(chosen d c).locks)=true
      rw [chosen_locks]
      rfl
  | lock d c =>
    rw [policyStep]
    split
    · exact .stay
    · rename_i hfree
      split
      · exact policyDone_moves (hold rfl)
      · exact .policyLocks t m d c ht (lock_free hfree)
  | group d c =>
    rw [policyStep]
    split
    · exact .policyUnlocks t m _ _ s.groupRestarts ht rfl rfl
    · rename_i hidle
      split
      · exact .policyUnlocks t m _ _ s.groupRestarts ht rfl rfl
      · rename_i hmem
        exact .policyPasses t m d c ht (not_eq_true _ ▸ hidle) (not_not.mp hmem)
  | register c => exact register_moves ht
  | swap c =>
    rw [policyStep]
    split
    · split
      · exact .stay
      · rename_i hfree
        split
        · exact policyDone_moves (hold rfl)
        · rename_i hidle
          exact .swaps t m c ht (lock_free hfree) (not_eq_true _ ▸ hidle)
    · exact policyDone_moves (hold rfl)

theorem admitted_moves {stage : PolicyStage} (ht : s.tasks t=some (.policy m stage)) (now : ℕ) :
    Move s (s.admitted t m now stage) := by
  cases stage with
  | eligible d c =>
    rw [admitted]
    split
    · dsimp only
      split
      · exact .policyAdmitted t m d c _ ht
      · exact .policyUnlocks t m _ _ _ ht rfl rfl
    · exact .policyUnlocks t m _ _ s.groupRestarts ht rfl rfl
  | budget c =>
    refine .idle t _ _ (update_recovery s rfl) (fun k' hk' => ?_) rfl
    obtain rfl:=Option.some.inj (ht.symm.trans hk')
    rfl
  | closed _ _ | recovery _ _ | evaluate _ | closedAgain _ _ | recoveryAgain _ _ | lock _ _ | group _ _ | register _
  | swap _ | done _ => exact .stay

theorem finishStep_moves {res : Except ActorError Unit} {stage : FinishStage}
    (ht : s.tasks t=some (.finish m res stage)) : Move s (s.finishStep t m res stage) := by
  cases stage with
  | lock =>
    by_cases hfree : s.childrenLock.isSome=true
    · rw [finishStep,if_pos hfree]
      exact .stay
    · exact .removes t m res ht (lock_free hfree)
  | record c a => exact .records t m res c a ht
  | recovery c =>
    rw [finishStep]
    split
    · exact .assigned t m res c _ ht ‹_›
    · exact .finished t m res _ ht (fun h => by cases h) rfl
  | abort i c =>
    rw [finishStep]
    split
    · exact .stay
    · exact .aborts t m res c i _ ht ‹_›
  | receipt i c =>
    rw [finishStep]
    split
    · exact .stay
    · exact .receipts t m res c i _ ht ‹_›
  | settle i c =>
    rw [finishStep]
    split
    · exact .finished t m res _ ht (fun h => by cases h) rfl
    · exact .stay
  | done c => exact .stay

theorem closeStep_moves {j : Bool} {stage : CloseStage} (ht : s.tasks t=some (.close j stage)) :
    Move s (s.closeStep t j stage) := by
  cases stage with
  | lock =>
    rw [closeStep]
    split
    · exact .stay
    · rename_i hfree
      exact .closeLocks t j ht (lock_free hfree)
  | abort => exact .closeAborts t j ht
  | snapshot =>
    rw [closeStep]
    split
    · exact .stay
    · rename_i hfree
      exact .snapshots t j ht (lock_free hfree)
  | closed | waiting | done => exact .stay

theorem epochStep_moves (s : ChildScope) (i : ℕ) (a : Action) : Move s (s.epochStep i a) := by
  unfold epochStep
  split
  · exact .stay
  · rename_i r hr
    split
    · exact .stay
    · rename_i hperm
      rw [not_or,not_not,not_eq_true] at hperm
      split
      · split
        · exact .stay
        · rename_i hfree
          exact .releases i r a hr hperm.1 hperm.2 ‹_› (lock_free hfree)
      · exact .epoch i r a hr hperm.1 hperm.2 (not_eq_true _ ▸ ‹¬returns r a=true›)

theorem step_moves (s : ChildScope) (a : ScopeAction) : Move s (s.step a) := by
  cases a with
  | spawn t =>
    refine begin_moves fun hnone => ?_
    split
    · exact .acquire t hnone ‹_›
    · exact .rest (fun k' hk' => by rw [hnone] at hk'; cases hk') rfl
  | create t id outcome =>
    simp only [step]
    split
    · rename_i ht
      split
      · exact .stay
      · cases outcome with
        | error e => exact .spawnFails t e _ (id::s.created) ht rfl (fun h => by cases h) fun _ hm => List.mem_cons_of_mem id hm
        | ok u => exact .inserts t id ht ‹_›
    · exact .stay
  | bindRecovery | setStopping => exact .lifetimes _ (update_recovery s rfl)
  | failurePolicy t member deadline joined =>
    refine begin_moves fun hnone => ?_
    have hold : ∀ k', s.tasks t=some k' → k'.idle=true := fun k' hk' => by rw [hnone] at hk'; cases hk'
    cases joined with
    | failed | ready => exact .rest hold rfl
    | expired => exact policyDone_moves hold
  | evaluated t outcome =>
    simp only [step]
    split
    · rename_i m d ht
      have hold : ∀ k', s.tasks t=some k' → k'.idle=true := fun k' hk' => by
        obtain rfl:=Option.some.inj (ht.symm.trans hk')
        rfl
      cases outcome with
      | error e => exact .rest hold rfl
      | ok c =>
        cases c with
        | none | some => exact .rest hold rfl
    · exact .stay
  | admitted t now =>
    simp only [step]
    split
    · exact admitted_moves ‹_› now
    · exact .stay
  | dropGroup t =>
    simp only [step,dropGroup]
    split
    · rename_i hg
      obtain ⟨g,hg⟩:=Option.isSome_iff_exists.mp hg
      exact .dropsGroup t g hg
    · exact .stay
  | finish | close =>
    exact begin_moves fun hnone => .rest (fun k' hk' => by rw [hnone] at hk'; cases hk') rfl
  | notified t =>
    simp only [step]
    split
    · exact .notified t _ _ _ ‹_›
    · exact .stay
  | joined t stops disposal =>
    simp only [step]
    split
    · rename_i j stage ht
      cases stage with
      | waiting l => exact .joins t j l stops disposal ht
      | lock | abort | closed | snapshot | done _ _ => exact .stay
    · exact .stay
  | epoch i a => exact epochStep_moves s i a
  | proceed t =>
    simp only [step]
    split
    · rename_i k hk
      cases k with
      | spawn stage => exact spawnStep_moves hk
      | policy m stage => exact policyStep_moves hk
      | finish m r stage => exact finishStep_moves hk
      | close j stage => exact closeStep_moves hk
    · exact .stay

end ChildScope

end Parrot.Children
