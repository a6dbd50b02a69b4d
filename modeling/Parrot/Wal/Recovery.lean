import Parrot.Wal.System

/-! # Crash recovery

Runs of a log: calls that complete, closing, crashes inside any call or inside `open` itself,
and reopening. -/

namespace Parrot.Wal
open Machine
open CrashFs (Disk Effect)
open SegmentLog

inductive Proc where
  | up (w : WalInner)
  | exited
  | crashed

structure Sys where
  disk : Disk ℕ
  proc : Proc
  since : List Value

def Sys.initial : Sys := ⟨Disk.empty,.crashed,[]⟩

/-- The values since the last sync, after one more call. -/
def sinceAfter (w : WalInner) (since : List Value) (v : Value) : WalOp → List Value
  | .sync => if w.failed then since++[v] else [v]
  | _ => since++[v]

section env
variable (env : WalEnv) (limits : WalLimits) (segmentMax : ℕ)

def crashedDisk (d : Disk ℕ) (w : WalInner) (op : WalOp) (budget kept : ℕ) (cut : ℕ → ℕ) : Disk ℕ :=
  (d.exec budget (op.plan env limits segmentMax d w).1).1.crash kept cut

/- `Allowed` restricts the crashes of a run. -/
inductive Step (Allowed : Disk ℕ → WalInner → WalOp → Disk ℕ → Prop) : Sys → Sys → Prop where
  | start {s : Sys} {plan : Plan Unit} {budget left : ℕ} {d' : Disk ℕ} (hproc : s.proc=.crashed)
    (hopen : openWithLimits env limits segmentMax s.disk=.ok plan)
    (hrun : s.disk.exec budget plan.effects=(d',some left)) :
    Step Allowed s ⟨d',.up plan.wal,[plan.wal.value]⟩
  | restart {s : Sys} {plan : Plan Unit} {budget left : ℕ} {d' : Disk ℕ} (hproc : s.proc=.exited)
    (hopen : openWithLimits env limits segmentMax s.disk=.ok plan)
    (hrun : s.disk.exec budget plan.effects=(d',some left)) :
    Step Allowed s ⟨d',.up plan.wal,s.since⟩
  | call {s : Sys} {w : WalInner} {op : WalOp} {budget left : ℕ} {d' : Disk ℕ} (hproc : s.proc=.up w)
    (hop : op.InRange)
    (hrun : s.disk.exec budget (op.plan env limits segmentMax s.disk w).1=(d',some left)) :
    Step Allowed s ⟨d',.up (op.plan env limits segmentMax s.disk w).2,
      sinceAfter w s.since (op.plan env limits segmentMax s.disk w).2.value op⟩
  | exit {s : Sys} {w : WalInner} (hproc : s.proc=.up w) : Step Allowed s ⟨s.disk,.exited,s.since⟩
  | crash {s : Sys} {w : WalInner} {op : WalOp} {budget kept : ℕ} {cut : ℕ → ℕ} (hproc : s.proc=.up w)
    (hop : op.InRange)
    (hallowed : Allowed s.disk w op (crashedDisk env limits segmentMax s.disk w op budget kept cut)) :
    Step Allowed s ⟨crashedDisk env limits segmentMax s.disk w op budget kept cut,.crashed,[]⟩
  | crashOpening {s : Sys} {plan : Plan Unit} {budget kept : ℕ} {cut : ℕ → ℕ}
    (hproc : s.proc=.exited ∨ s.proc=.crashed)
    (hopen : openWithLimits env limits segmentMax s.disk=.ok plan) :
    Step Allowed s ⟨(s.disk.exec budget plan.effects).1.crash kept cut,.crashed,[]⟩

abbrev Run (Allowed : Disk ℕ → WalInner → WalOp → Disk ℕ → Prop) (s : Sys) : Prop :=
  Relation.ReflTransGen (Step env limits segmentMax Allowed) Sys.initial s

def Within (L : Layout (Stored env limits)) (values : List Value) : Prop :=
  ∀ j, L.synced≤j → j≤L.active.length → replay (items (L.sealed++[L.active.take j]))∈values

def Inv (s : Sys) : Prop :=
  match s.proc with
  | .up w => ∃ L, Up env limits s.disk w L ∧ Within env limits L s.since
  | .exited => ∃ L, Down env limits s.disk L [] ∧ Within env limits L s.since
  | .crashed => Fresh s.disk ∨ ∃ L t, Down env limits s.disk L t ∧ L.synced=L.active.length

variable {env limits segmentMax} {s s' : Sys}

variable {L : Layout (Stored env limits)} {values : List Value}

theorem within_full (hs : L.synced≤L.active.length) (h : Within env limits L values) : replay (items L.log)∈values := by
  have hlast:=h L.active.length hs (le_rfl)
  rwa [List.take_length] at hlast

theorem initial_inv : Inv env limits Sys.initial := .inl ⟨Disk.empty_named,Disk.empty_history⟩

theorem within_after {w w' : WalInner} {c : Change (Stored env limits)} (hlive : Live w' (c.after L))
    (hwithin : Within env limits L values) (op : WalOp)
    (hop : op=.sync → (c.after L).synced=(c.after L).active.length) :
    Within env limits (c.after L) (sinceAfter w values w'.value op) := by
  have hfull : replay (items (c.after L).log)=w'.value := hlive.represents.value.symm
  have hmem : w'.value∈sinceAfter w values w'.value op := by
    cases op with
    | sync =>
      simp only [sinceAfter]
      split
      · exact List.mem_append_right _ (List.mem_singleton_self _)
      · exact List.mem_singleton_self _
    | append | ack => exact List.mem_append_right _ (List.mem_singleton_self _)
  intro j hj hj'
  by_cases hsync : op=.sync
  · have heq : j=(c.after L).active.length := by
      rw [hop hsync] at hj
      exact Nat.le_antisymm hj' hj
    rw [heq,List.take_length]
    change replay (items (c.after L).log)∈_
    rw [hfull]
    exact hmem
  · rcases after_images j hj hj' with heq | ⟨hsealed,hactive,hlow,hhigh⟩
    · rw [heq,hfull]
      exact hmem
    · rw [hsealed,hactive]
      have hold:=hwithin j hlow hhigh
      cases op with
      | sync => exact absurd rfl hsync
      | append | ack => exact List.mem_append_left _ hold

theorem sync_plan {d : Disk ℕ} {w : WalInner} (hw : w.failed=false) :
    WalOp.sync.plan env limits segmentMax d w=([.sync w.segId],w) := by
  simp only [WalOp.plan,WalInner.sync,WalInner.healthy,hw]
  rfl

section
variable (hlimits : limits.validate segmentMax=.ok ())
include hlimits

theorem call_inv {d d' : Disk ℕ} {w : WalInner} (h : Up env limits d w L)
    (hwithin : Within env limits L values) {op : WalOp} (hop : op.InRange) {budget left : ℕ}
    (hrun : d.exec budget (op.plan env limits segmentMax d w).1=(d',some left)) :
    ∃ L', Up env limits d' (op.plan env limits segmentMax d w).2 L' ∧
      Within env limits L' (sinceAfter w values (op.plan env limits segmentMax d w).2.value op) := by
  by_cases hsync : op=.sync
  · subst hsync
    have hprogram : ([Effect.sync w.segId] : List (Effect ℕ)) =
        Change.sync.program Stored.body checksum L := by rw [Change.program,h.live.segId]
    rw [sync_plan h.live.healthy] at hrun ⊢
    have hlive : Live w (Change.sync.after L) := ⟨h.live.represents,h.live.segId,h.live.segBytes,
      h.live.diskBytes,h.live.segments,h.live.healthy,h.live.disk_le,h.live.segments_le,h.live.segId_le⟩
    have hcomp:=Disk.exec_completed hrun
    dsimp only at hcomp
    rw [hprogram] at hcomp
    exact ⟨_,op_completes hlimits h hlive hcomp,within_after hlive hwithin .sync fun _ => rfl⟩
  · rcases op_cases hlimits h op hop with hnone | ⟨c,heff,hlive,-⟩
    · rw [hnone] at hrun ⊢
      obtain ⟨rfl,-⟩:=Prod.mk.inj hrun
      refine ⟨L,h,?_⟩
      intro j hj hj'
      have hold:=hwithin j hj hj'
      cases op with
      | sync => exact absurd rfl hsync
      | append | ack => exact List.mem_append_left _ hold
    · rw [heff] at hrun
      exact ⟨_,op_completes hlimits h hlive (Disk.exec_completed hrun),
        within_after hlive hwithin op fun heq => absurd heq hsync⟩

theorem crash_inv {d : Disk ℕ} {w : WalInner} (h : Up env limits d w L)
    (hwithin : Within env limits L values) {op : WalOp} (hop : op.InRange) (budget kept : ℕ) (cut : ℕ → ℕ)
    (hsafe : ¬ Exposed d w op (crashedDisk env limits segmentMax d w op budget kept cut)) : ∃ L' t,
    Down env limits (crashedDisk env limits segmentMax d w op budget kept cut) L' t ∧ L'.synced=L'.active.length ∧
    L'.segId≤w.segId+1 ∧ replay (items L'.log)∈values++[(op.plan env limits segmentMax d w).2.value] := by
  unfold crashedDisk at hsafe ⊢
  rcases op_cases hlimits h op hop with hnone | ⟨c,heff,hlive,hfollows⟩
  · -- nothing was done: the crash is one of an idle log
    obtain ⟨hrecord,-⟩:=validate_limits hlimits
    rw [hnone]
    obtain ⟨j,t,hj,hj',hdown⟩:=open_crash hlimits h.down (Disk.stopped_refl _ d) kept cut
    refine ⟨_,t,hdown,rfl,?_,?_⟩
    · rw [h.live.segId]
      exact Nat.le_succ _
    · exact List.mem_append_left _ (hwithin j hj hj')
  · rw [heff] at hsafe ⊢
    rcases op_crash hlimits h hlive hfollows (Disk.exec_stopped rfl) kept cut with hexposed | ⟨L',t,hcrash⟩
    · exact absurd hexposed hsafe
    · obtain ⟨-,-,hid⟩:=image_bounds h hlive hfollows hcrash.image
      refine ⟨L',t,hcrash.down,hcrash.synced,hid,?_⟩
      rcases (image_recover h hlive hfollows hcrash.image).2 with ⟨j,hj,hj',heq⟩ | heq
      · change replay (items (L'.sealed++[L'.active]))∈_
        rw [heq]
        exact List.mem_append_left _ (hwithin j hj hj')
      · exact List.mem_append_right _ (List.mem_singleton.mpr heq)

theorem step_inv (hinv : Inv env limits s)
    (hstep : Step env limits segmentMax (fun d w op d' => ¬ Exposed d w op d') s s') : Inv env limits s' := by
  cases hstep with
  | @start plan budget left d' hproc hopen hrun =>
    unfold Inv at hinv
    rw [hproc] at hinv
    rcases hinv with hfresh | ⟨L,t,hdown,hsynced⟩
    · rw [open_fresh hlimits hfresh] at hopen
      cases hopen
      refine ⟨first,start_up hlimits hfresh (Disk.exec_completed hrun),?_⟩
      intro j hj hj'
      obtain rfl : j=0 := Nat.le_zero.mp hj'
      exact List.mem_singleton.mpr rfl
    · obtain ⟨x,hx,rfl⟩:=open_down_inv hlimits hdown hopen
      have hup:=open_completes hdown hx (Disk.exec_completed hrun)
      refine ⟨L,hup,?_⟩
      intro j hj hj'
      obtain rfl : j=L.active.length := Nat.le_antisymm hj' (hsynced ▸ hj)
      rw [List.take_length]
      exact List.mem_singleton.mpr hup.live.represents.value.symm
  | @restart plan budget left d' hproc hopen hrun =>
    unfold Inv at hinv
    rw [hproc] at hinv
    obtain ⟨L,hdown,hwithin⟩:=hinv
    obtain ⟨x,hx,rfl⟩:=open_down_inv hlimits hdown hopen
    exact ⟨L,open_completes hdown hx (Disk.exec_completed hrun),hwithin⟩
  | @call w op budget left d' hproc hop hrun =>
    unfold Inv at hinv
    rw [hproc] at hinv
    obtain ⟨L,hup,hwithin⟩:=hinv
    exact call_inv hlimits hup hwithin hop hrun
  | @exit w hproc =>
    unfold Inv at hinv
    rw [hproc] at hinv
    obtain ⟨L,hup,hwithin⟩:=hinv
    exact ⟨L,hup.down,hwithin⟩
  | @crash w op budget kept cut hproc hop hallowed =>
    unfold Inv at hinv
    rw [hproc] at hinv
    obtain ⟨L,hup,hwithin⟩:=hinv
    obtain ⟨L',t,hdown,hsynced,-⟩:=crash_inv hlimits hup hwithin hop budget kept cut hallowed
    exact .inr ⟨L',t,hdown,hsynced⟩
  | @crashOpening plan budget kept cut hproc hopen =>
    have hcase : Fresh s.disk ∨ ∃ L t, Down env limits s.disk L t := by
      unfold Inv at hinv
      rcases hproc with hproc | hproc
      · rw [hproc] at hinv
        obtain ⟨L,hdown,-⟩:=hinv
        exact .inr ⟨L,[],hdown⟩
      · rw [hproc] at hinv
        rcases hinv with hfresh | ⟨L,t,hdown,-⟩
        · exact .inl hfresh
        · exact .inr ⟨L,t,hdown⟩
    rcases hcase with hfresh | ⟨L,t,hdown⟩
    · rw [open_fresh hlimits hfresh] at hopen
      cases hopen
      rcases start_crash hfresh (Disk.exec_stopped rfl) kept cut with hfresh' | hrests
      · exact .inl hfresh'
      · exact .inr ⟨first,[],first_down hlimits hrests,rfl⟩
    · obtain ⟨x,hx,rfl⟩:=open_down_inv hlimits hdown hopen
      obtain ⟨j,t',-,-,hdown'⟩:=open_crash hlimits hdown (Disk.exec_stopped rfl) kept cut
      exact .inr ⟨_,t',hdown',rfl⟩

theorem run_inv (hrun : Run env limits segmentMax (fun d w op d' => ¬ Exposed d w op d') s) : Inv env limits s := by
  induction hrun with
  | refl => exact initial_inv
  | tail _ hstep ih => exact step_inv hlimits ih hstep

end

end env

def smallLimits : WalLimits := ⟨1024,65536,8,8,4096,4,4096,8,65536⟩

theorem smallLimits_valid : smallLimits.validate 4096=.ok () := by decide +kernel

def smallWal : WalInner := opened emptyIndex (first : Layout (Stored WalEnv.standard smallLimits))

def smallSys : Sys := ⟨((Disk.empty : Disk ℕ).exec 2 start).1,.up smallWal,[smallWal.value]⟩

theorem smallSys_run {Allowed : Disk ℕ → WalInner → WalOp → Disk ℕ → Prop} :
    Run WalEnv.standard smallLimits 4096 Allowed smallSys := by
  have hopen:=@open_fresh WalEnv.standard smallLimits 4096 _ smallLimits_valid
    (⟨Disk.empty_named,Disk.empty_history⟩ : Fresh (Disk.empty : Disk ℕ))
  have hrun : (Disk.empty : Disk ℕ).exec 2 start=(smallSys.disk,some 0) := rfl
  exact Relation.ReflTransGen.single
    (@Step.start WalEnv.standard smallLimits 4096 Allowed Sys.initial _ _ _ _ rfl hopen hrun)

/- An unsynced record, then the acknowledgement that clears the log. -/
def smallAppend : WalOp := .append ⟨"node","node",1,"/user/a","app::Order",[]⟩ none none
def smallPlan : List (Effect ℕ) × WalInner :=
  smallAppend.plan WalEnv.standard smallLimits 4096 smallSys.disk smallWal

end Parrot.Wal
