import Parrot.App.Converge

/-! # Rounds of reconciliation

Every round heals a component, so that as many rounds as there are components are enough. -/

namespace Parrot.App
open Machine Text

variable {host : Host} {s : AppSupervisor} {latest : Except String (Option DesiredStateRecord)} {o : ObservedState}

/-- A supervisor without mirrors and rollouts that is up to date. -/
structure Idle (host : Host) (s : AppSupervisor) (latest : Except String (Option DesiredStateRecord)) : Prop where
  valid : validateWithLimits host s.limits s.state.manifest=.ok ()
  current : s.requireCurrent latest=.ok ()
  mirrors : s.state.manifest.mirrors=[] ∧ s.state.mirrors.entries=[]
  pending : s.state.pending.entries=[]

section
variable (h : Idle host s latest)
include h

theorem Idle.report (hlimits : checkObserved host s.limits o=.ok ()) :
    s.reconcileOnce host latest o=⟨allActions host s.state o,(allActions host s.state o).isEmpty⟩ := by
  simp [AppSupervisor.reconcileOnce,AppSupervisor.reconcileComponents,h.mirrors.1,h.mirrors.2,h.current,hlimits]

theorem Idle.advanced {n : ℕ} (hlimits : checkObserved host s.limits (s.rounds host latest n o)=.ok ())
    (hwatched : Watched host s.state.manifest (s.rounds host latest n o)) :
    Advanced host s.state (s.rounds host latest n o) (s.rounds host latest (n+1) o) := by
  have hround:=round_advanced h.pending (validate_accepted h.valid).distinct hwatched
  simp only [AppSupervisor.rounds,h.report hlimits]
  exact hround

theorem Idle.progress (hwatched : Watched host s.state.manifest o) {n : ℕ}
    (hlimits : ∀ k<n, checkObserved host s.limits (s.rounds host latest k o)=.ok ()) :
    Watched host s.state.manifest (s.rounds host latest n o) ∧
      sickCount host s.state (s.rounds host latest n o) ≤ s.state.manifest.components.length-n ∧
      (0<n → ∀ e∈(s.rounds host latest n o).components.entries, s.state.manifest.component e.1=none → e.2=[]) := by
  have haccepted:=validate_accepted h.valid
  induction n with
  | zero => exact ⟨hwatched,List.countP_le_length,by simp⟩
  | succ n ih =>
    obtain ⟨hw,hcount,-⟩:=ih fun k hk => hlimits k (by omega)
    have hadvanced:=h.advanced (hlimits n (by omega)) hw
    refine ⟨hadvanced.watched haccepted hw,?_,?_⟩
    · rcases hadvanced.sickCount_lt haccepted h.pending hw with hlt | hzero <;> omega
    · intro _ e he hgone
      have hget:=OrderedMap.get_eq_some.mpr he
      rcases (hadvanced.removed e.1 hgone).2 with ⟨-,hnone⟩ | ⟨-,hempty⟩
      · rw [hnone] at hget
        contradiction
      · exact (Option.some.inj (hempty.symm.trans hget)).symm

theorem Idle.careful (o : ObservedState) :
    (∀ c∈s.state.manifest.components, healthyObservation host c s.state.manifest.version o=true →
    .drain c.name∉(s.reconcileOnce host latest o).actions ∧ .stop c.name∉(s.reconcileOnce host latest o).actions ∧
    ∀ node, .deploy c.name node∉(s.reconcileOnce host latest o).actions) ∧ ∀ comp node, .deploy comp
    node∈(s.reconcileOnce host latest o).actions → ∃ c∈s.state.manifest.components, c.name=comp ∧ ∀ name∈c.deps,
    ∃ d∈s.state.manifest.components, d.name=name ∧ healthyObservation host d s.state.manifest.version o=true := by
  have haccepted:=validate_accepted h.valid
  cases hcheck : checkObserved host s.limits o with
  | error e =>
    have hreport : (s.reconcileOnce host latest o).actions=[.wait s.state.manifest.name e.text] := by
      simp [AppSupervisor.reconcileOnce,AppSupervisor.reconcileComponents,h.mirrors.1,h.mirrors.2,h.current,hcheck,waiting]
    rw [hreport]
    simp
  | ok u =>
    have hreport : (s.reconcileOnce host latest o).actions=allActions host s.state o := by rw [h.report hcheck]
    rw [hreport]
    constructor
    · intro c hc hhealthy
      have hnone {a : ReconcileAction} (hcomp : a.comp=c.name) (ha : a∈allActions host s.state o) :
          ∃ reason, a=.wait c.name reason := by
        rw [mem_allActions haccepted.distinct hc hcomp] at ha
        simp only [componentActions] at ha
        split at ha
        · exact ⟨_,List.mem_singleton.mp ha⟩
        · simp [hhealthy] at ha
      refine ⟨fun ha => ?_,fun ha => ?_,fun node ha => ?_⟩
      · obtain ⟨reason,heq⟩:=hnone rfl ha
        contradiction
      · obtain ⟨reason,heq⟩:=hnone rfl ha
        contradiction
      · obtain ⟨reason,heq⟩:=hnone rfl ha
        contradiction
    · intro comp node ha
      rcases List.mem_append.mp ha with ha | ha
      · obtain ⟨c,hc,ha⟩:=List.mem_flatMap.mp ha
        refine ⟨c,hc,(componentActions_comp ha).symm,fun name hname => ?_⟩
        simp only [componentActions] at ha
        split at ha
        · simp at ha
        · rename_i target hobstacle
          obtain ⟨d,hd,rfl⟩:=List.mem_map.mp (haccepted.deps c hc name hname)
          refine ⟨d,hd,rfl,?_⟩
          simp only [obstacle] at hobstacle
          split at hobstacle
          · contradiction
          · split at hobstacle
            · contradiction
            · rename_i hdeps
              have hready : ∀ x∈c.deps, dependencyReady host s.state o x=true := by simpa using hdeps
              have:=hready d.name hname
              simp only [dependencyReady,component_self haccepted.distinct hd,Option.any_some,Bool.and_eq_true] at this
              exact this.2
      · obtain ⟨e,-,ha⟩:=List.mem_flatMap.mp ha
        unfold removalActions at ha
        split at ha
        · simp at ha
        · split at ha <;> simp at ha

end

/-- Where empty reports come from the node to deploy to and every observation on the way is
within the limits, the call after as many rounds as there are components reports convergence,
and so does every later one. -/
theorem reconcile_converges (host : Host) (s : AppSupervisor) (latest : Except String (Option DesiredStateRecord))
    (o : ObservedState) (h : Idle host s latest) (hwatched : Watched host s.state.manifest o)
    (hlimits : ∀ n ≤ s.state.manifest.components.length, checkObserved host s.limits (s.rounds host latest n o)=.ok ()) :
    (∀ n≥s.state.manifest.components.length, (s.reconcileOnce host latest (s.rounds host latest n o)).converged=true ∧
      s.rounds host latest n o=s.rounds host latest s.state.manifest.components.length o) ∧
    ∀ n, (∀ c∈s.state.manifest.components,
        healthyObservation host c s.state.manifest.version (s.rounds host latest n o)=true →
          .drain c.name∉(s.reconcileOnce host latest (s.rounds host latest n o)).actions ∧
          .stop c.name∉(s.reconcileOnce host latest (s.rounds host latest n o)).actions ∧
          ∀ node, .deploy c.name node∉(s.reconcileOnce host latest (s.rounds host latest n o)).actions) ∧
      ∀ comp node, .deploy comp node∈(s.reconcileOnce host latest (s.rounds host latest n o)).actions →
        ∃ c∈s.state.manifest.components, c.name=comp ∧ ∀ name∈c.deps, ∃ d∈s.state.manifest.components, d.name=name ∧
          healthyObservation host d s.state.manifest.version (s.rounds host latest n o)=true := by
  have haccepted:=validate_accepted h.valid
  obtain ⟨hw,hcount,hgone⟩:=h.progress hwatched (n := s.state.manifest.components.length) fun k hk => hlimits k hk.le
  have hpositive : 0<s.state.manifest.components.length := List.length_pos_of_ne_nil haccepted.nonempty
  have hnil:=allActions_nil haccepted h.pending hw (by omega) (hgone hpositive)
  have hreport : s.reconcileOnce host latest (s.rounds host latest s.state.manifest.components.length o)=⟨[],true⟩ := by
    rw [h.report (hlimits _ le_rfl),hnil]
    rfl
  have hstays (k : ℕ) : s.rounds host latest (s.state.manifest.components.length+k) o =
      s.rounds host latest s.state.manifest.components.length o := by
    induction k with
    | zero => rfl
    | succ k ih =>
      rw [← Nat.add_assoc,AppSupervisor.rounds,ih,hreport]
      rfl
  refine ⟨?_,fun n => h.careful _⟩
  intro n hn
  obtain ⟨k,rfl⟩:=Nat.exists_eq_add_of_le hn
  rw [hstays k,hreport]
  exact ⟨rfl,rfl⟩

def idleSupervisor (limits : ApplicationLimits) (m : AppManifest) : AppSupervisor := ⟨limits,⟨1,m,.empty,.empty⟩,false⟩

def upToDate (limits : ApplicationLimits) (m : AppManifest) : Except String (Option DesiredStateRecord) :=
  .ok (some (idleSupervisor limits m).state)

theorem idleSupervisor_idle {limits : ApplicationLimits} {m : AppManifest} (hmirrors : m.mirrors=[])
    (h : validateWithLimits host limits m=.ok ()) : Idle host (idleSupervisor limits m) (upToDate limits m) :=
  ⟨h,by simp [AppSupervisor.requireCurrent,upToDate,idleSupervisor,bind,Except.bind],⟨hmirrors,rfl⟩,rfl⟩

def emptyObserved : ObservedState where
  components := (OrderedMap.empty.insert "a" []).insert "b" []
  componentNodes := (OrderedMap.empty.insert "a" "parrot-1").insert "b" "parrot-1"
  liveNodes := ["parrot-1"]
  linksKnown := true

theorem emptyObserved_watched : Watched asciiHost plainManifest emptyObserved :=
  ⟨⟨by decide +kernel,by decide +kernel,by decide +kernel,by decide +kernel⟩,by decide +kernel⟩

theorem reconcile_converges_empty :
    Idle asciiHost (idleSupervisor {} plainManifest) (upToDate {} plainManifest) ∧
    ((idleSupervisor {} plainManifest).reconcileOnce asciiHost (upToDate {} plainManifest)
      ((idleSupervisor {} plainManifest).rounds asciiHost (upToDate {} plainManifest) 2 emptyObserved)).converged=true := by
  have hidle:=idleSupervisor_idle rfl plainManifest_valid
  refine ⟨hidle,((reconcile_converges asciiHost (idleSupervisor {} plainManifest) (upToDate {} plainManifest) emptyObserved hidle
    emptyObserved_watched ?_).1 2 le_rfl).1⟩
  have hall : ∀ n<3, (checkObserved asciiHost {} ((idleSupervisor {} plainManifest).rounds asciiHost
      (upToDate {} plainManifest) n emptyObserved)).toOption=some () := by decide +kernel
  exact fun n hn => checkObserved_ok (hall n (Nat.lt_succ_of_le hn))

def loneManifest : AppManifest := sampleManifest [sampleComponent "a" .singleton []]

/-- The empty report is from a live node that is not the first. -/
def elsewhereObserved : ObservedState where
  components := OrderedMap.empty.insert "a" []
  componentNodes := OrderedMap.empty.insert "a" "parrot-2"
  liveNodes := ["parrot-1","parrot-2"]
  linksKnown := true

/-- Two pools of two, within a budget of four instances. -/
def tightLimits : ApplicationLimits := {maxInstances:=4}
def pairManifest : AppManifest := sampleManifest [sampleComponent "a" (.pool 2) [],sampleComponent "b" (.pool 2) ["a"]]

/-- The second pool has two members too many and waits for the first. -/
def crowdedObserved : ObservedState where
  components := (OrderedMap.empty.insert "a" []).insert "b"
    ((List.range 4).map fun i => ⟨"/user/b-"++toString i,"running","1.0.0"⟩)
  componentNodes := (OrderedMap.empty.insert "a" "parrot-1").insert "b" "parrot-1"
  liveNodes := ["parrot-1"]
  linksKnown := true

theorem rounds_wait {n : ℕ} {comp reason : String} (h : (s.reconcileOnce host latest (s.rounds host latest n o)).actions =
    [.wait comp reason]) : ∀ k, s.rounds host latest (n+k) o=s.rounds host latest n o := by
  intro k
  induction k with
  | zero => rfl
  | succ k ih =>
    rw [← Nat.add_assoc,AppSupervisor.rounds,ih,h]
    rfl

/-- An empty report from another node is waited on for ever, and so is an observation that the
first deployment puts over the limits. -/
theorem reconcile_stuck :
    (Idle asciiHost (idleSupervisor {} loneManifest) (upToDate {} loneManifest) ∧
      Reported asciiHost loneManifest elsewhereObserved ∧ checkObserved asciiHost {} elsewhereObserved=.ok () ∧
      ∀ n, ((idleSupervisor {} loneManifest).reconcileOnce asciiHost (upToDate {} loneManifest)
        ((idleSupervisor {} loneManifest).rounds asciiHost (upToDate {} loneManifest) n elsewhereObserved)).converged=false) ∧
    Idle asciiHost (idleSupervisor tightLimits pairManifest) (upToDate tightLimits pairManifest) ∧
      Watched asciiHost pairManifest crowdedObserved ∧ checkObserved asciiHost tightLimits crowdedObserved=.ok () ∧
      ∀ n, ((idleSupervisor tightLimits pairManifest).reconcileOnce asciiHost (upToDate tightLimits pairManifest)
        ((idleSupervisor tightLimits pairManifest).rounds asciiHost (upToDate tightLimits pairManifest) n
          crowdedObserved)).converged=false := by
  constructor
  · refine ⟨idleSupervisor_idle rfl (validate_ok_of_toOption (by decide +kernel)),?_,checkObserved_ok (by decide +kernel),fun n => ?_⟩
    · exact ⟨by decide +kernel,by decide +kernel,by decide +kernel,by decide +kernel⟩
    · have hwait : ((idleSupervisor {} loneManifest).reconcileOnce asciiHost (upToDate {} loneManifest)
          ((idleSupervisor {} loneManifest).rounds asciiHost (upToDate {} loneManifest) 0 elsewhereObserved)) =
          ⟨[.wait "a" "target component absence has not been observed"],false⟩ := by decide +kernel
      have hstays:=rounds_wait (congrArg ReconcileReport.actions hwait) n
      rw [Nat.zero_add] at hstays
      rw [hstays,hwait]
  · refine ⟨idleSupervisor_idle rfl (validate_ok_of_toOption (by decide +kernel)),?_,checkObserved_ok (by decide +kernel),fun n => ?_⟩
    · exact ⟨⟨by decide +kernel,by decide +kernel,by decide +kernel,by decide +kernel⟩,by decide +kernel⟩
    · have hwait : ((idleSupervisor tightLimits pairManifest).reconcileOnce asciiHost (upToDate tightLimits pairManifest)
          ((idleSupervisor tightLimits pairManifest).rounds asciiHost (upToDate tightLimits pairManifest) 1 crowdedObserved)) =
          ⟨[.wait "demo" "application observed instances budget exceeded: requested 6, limit 4"],false⟩ := by decide +kernel
      cases n with
      | zero => decide +kernel
      | succ n =>
        have hstays:=rounds_wait (congrArg ReconcileReport.actions hwait) n
        rw [Nat.add_comm 1 n] at hstays
        rw [hstays,hwait]

end Parrot.App
