import Mathlib.Algebra.GroupWithZero.Nat
import Parrot.Lib.CrashFs

/-! # Replacing a file atomically

Write a temporary file, sync it, rename it over the target, sync the directory.
Wherever this stops, and whatever a later crash keeps, the target holds either
what it held before or the complete new content; once it completes, only the
latter. -/

namespace CrashFs
open Function (update)
open List (mem_cons_self map_cons cons_append foldlM_cons)

variable {N : Type} [DecidableEq N]

def replace (tmp main : N) (chunks : List Bytes) : List (Effect N) :=
  .create tmp::(chunks.map (.write tmp)++[.sync tmp,.rename tmp main,.syncDir])

namespace Disk

def Bounded (d : Disk N) : Prop := ∀ k, ∀ e∈d.view k, e.2<d.fresh

def Settled (d : Disk N) (main : N) (P : Option Bytes → Prop) : Prop :=
  ∀ k, ∃ o, P o ∧ ((d.view k).lookup main).map d.inodes=o.map fun b => ⟨b,b⟩

variable {d d' : Disk N} {tmp main : N} {P Q : Option Bytes → Prop}

theorem Settled.imp (h : d.Settled main P) (hpq : ∀ o, P o → Q o) : d.Settled main Q := by
  intro k
  obtain ⟨o,ho,heq⟩:=h k
  exact ⟨o,hpq o ho,heq⟩

theorem empty_bounded : (empty : Disk N).Bounded := by
  intro k e he
  simp [empty,view] at he

theorem empty_settled (h : P none) : (empty : Disk N).Settled main P := by
  intro k
  exact ⟨none,h,by simp [empty,view]⟩

theorem Settled.read (h : d.Settled main P) : P (d.read main) := by
  obtain ⟨o,ho,heq⟩:=h d.pending.length
  rw [← dir_eq_view] at heq
  unfold Disk.read Disk.file
  rw [heq]
  cases o with
  | none => exact ho
  | some b => exact ho

theorem Settled.crash (h : d.Settled main P) (kept : ℕ) (cut : ℕ → ℕ) : (d.crash kept cut).Settled main P := by
  intro k
  obtain ⟨o,ho,heq⟩:=h kept
  refine ⟨o,ho,?_⟩
  simp only [Disk.crash,view_nil]
  cases hl : (d.view kept).lookup main with
  | none =>
    rw [hl] at heq
    simpa using heq
  | some i =>
    rw [hl] at heq
    cases o with
    | none => simp at heq
    | some b =>
      simp only [Option.map_some,Option.some.injEq] at heq ⊢
      rw [heq,File.keep_settled]

theorem Bounded.crash (h : d.Bounded) (kept : ℕ) (cut : ℕ → ℕ) : (d.crash kept cut).Bounded := by
  intro k e he
  simp only [Disk.crash,view_nil] at he
  exact h kept e he

variable {i : ℕ}

theorem mem_of_lookup {dir : Dir N} {n : N} (h : dir.lookup n=some i) : (n,i)∈dir := by
  induction dir with
  | nil => simp at h
  | cons e dir ih =>
    obtain ⟨x,j⟩:=e
    rw [List.lookup_cons] at h
    by_cases hx : n=x
    · subst hx
      simp only [beq_self_eq_true,Option.some.injEq] at h
      rw [h]
      exact mem_cons_self ..
    · rw [beq_false_of_ne hx] at h
      exact List.mem_cons_of_mem _ (ih h)

structure Staged (d : Disk N) (tmp main : N) (P : Option Bytes → Prop) (i : ℕ) (f : File) : Prop where
  bounded : d.Bounded
  settled : d.Settled main P
  name : d.dir.lookup tmp=some i
  apart : ∀ k, (d.view k).lookup main≠some i
  content : d.inodes i=f

theorem perform_create_staged (hb : d.Bounded) (hs : d.Settled main P) (hne : main≠tmp)
    (h : d.perform (.create tmp)=some d') : Staged d' tmp main P d.fresh ⟨[],[]⟩ := by
  simp only [perform] at h
  obtain ⟨hnone,h⟩:=Option.ite_none_left_eq_some.mp h
  rw [Bool.not_eq_true,Option.isSome_eq_false_iff,Option.isNone_iff_eq_none] at hnone
  cases h
  have hlink : ∀ k, (d.view k).lookup main≠some d.fresh := by
    intro k hk
    exact absurd (hb k _ (mem_of_lookup hk)) (by simp)
  have hview : ∀ k, (view ⟨update d.inodes d.fresh ⟨[],[]⟩,d.fresh+1,d.durable,
      d.pending++[.link tmp d.fresh]⟩ k).lookup main =
      (d.view (if k≤d.pending.length then k else d.pending.length)).lookup main := by
    intro k
    rw [view_snoc]
    split
    · rfl
    · rw [lookup_link _ _ _ hnone,if_neg hne,dir_eq_view]
  refine ⟨?_,?_,?_,?_,by simp⟩
  · intro k e he
    rw [view_snoc] at he
    split at he
    · exact Nat.lt_succ_of_lt (hb k e he)
    · rcases List.mem_append.mp he with he | he
      · rw [dir_eq_view] at he
        exact Nat.lt_succ_of_lt (hb _ e he)
      · rw [List.mem_singleton.mp he]
        exact Nat.lt_succ_self _
  · intro k
    obtain ⟨o,ho,heq⟩:=hs (if k≤d.pending.length then k else d.pending.length)
    refine ⟨o,ho,?_⟩
    rw [hview,← heq]
    cases hl : (d.view (if k≤d.pending.length then k else d.pending.length)).lookup main with
    | none => rfl
    | some i =>
      have : i≠d.fresh := by
        rintro rfl
        exact hlink _ hl
      simp [this]
  · rw [dir_eq_view,view_snoc,if_neg (by simp),lookup_link _ _ _ hnone,if_pos rfl]
  · intro k
    rw [hview]
    exact hlink _

theorem Staged.modify {f : File} (hst : Staged d tmp main P i f) {g : File → File}
    (h : d.modify tmp g=some d') : Staged d' tmp main P i (g f) := by
  simp only [Disk.modify,hst.name,Option.map_some,Option.some.injEq] at h
  subst h
  refine ⟨hst.bounded,?_,hst.name,hst.apart,by simp [hst.content]⟩
  intro k
  obtain ⟨o,ho,heq⟩:=hst.settled k
  refine ⟨o,ho,?_⟩
  rw [← heq]
  change ((d.view k).lookup main).map _=_
  cases hl : (d.view k).lookup main with
  | none => rfl
  | some j =>
    have : j≠i := by
      rintro rfl
      exact hst.apart k hl
    simp [this]

theorem Staged.write {f : File} (hst : Staged d tmp main P i f) {bytes : Bytes}
    (h : d.perform (.write tmp bytes)=some d') :
    Staged d' tmp main P i {f with data:=f.data++bytes} :=
  Staged.modify (g := fun f => {f with data:=f.data++bytes}) hst h

theorem Staged.sync {f : File} (hst : Staged d tmp main P i f)
    (h : d.perform (.sync tmp)=some d') : Staged d' tmp main P i {f with synced:=f.data} :=
  Staged.modify (g := fun f => {f with synced:=f.data}) hst h

theorem Staged.rename {b : Bytes} (hst : Staged d tmp main P i ⟨b,b⟩) (hne : main≠tmp)
    (h : d.perform (.rename tmp main)=some d') : d'.Bounded ∧ d'.Settled main (fun o => P o ∨ o=some b) ∧
    (d'.dir.lookup main).map d'.inodes=some ⟨b,b⟩ := by
  simp only [perform,hst.name,Option.isSome_some,if_true,Option.some.injEq] at h
  subst h
  have hlast : ((DirOp.rename tmp main).apply d.dir).lookup main=some i := by
    rw [lookup_rename_dst _ (Ne.symm hne),hst.name]
  refine ⟨?_,?_,?_⟩
  · intro k e he
    rw [view_snoc] at he
    split at he
    · exact hst.bounded k e he
    · obtain ⟨x,hx⟩:=mem_rename he
      rw [dir_eq_view] at hx
      exact hst.bounded _ (x,e.2) hx
  · intro k
    rw [view_snoc]
    split
    · obtain ⟨o,ho,heq⟩:=hst.settled k
      exact ⟨o,.inl ho,heq⟩
    · exact ⟨some b,.inr rfl,by rw [hlast]; simp [hst.content]⟩
  · rw [dir_eq_view,view_snoc,if_neg (by simp),hlast]
    simp [hst.content]

theorem perform_syncDir_settled {b : Bytes} (hb : d.Bounded) (hf : (d.dir.lookup main).map d.inodes=some ⟨b,b⟩)
    (h : d.perform .syncDir=some d') : d'.Bounded ∧ d'.Settled main (· = some b) := by
  cases h
  constructor
  · intro k e he
    rw [view_nil,dir_eq_view] at he
    exact hb _ e he
  · intro k
    exact ⟨some b,rfl,by rw [view_nil]; exact hf⟩

variable {chunks : List Bytes}

theorem Staged.writes {acc : Bytes} (hst : Staged d tmp main P i ⟨[],acc⟩) {rest : List (Effect N)}
    (h : Stopped (chunks.map (.write tmp)++rest) d d') : (∃ f, Staged d' tmp main P i f) ∨ ∃ d1,
    Staged d1 tmp main P i ⟨[],acc++chunks.flatten⟩ ∧ Stopped rest d1 d' := by
  induction chunks generalizing d acc with
  | nil => exact .inr ⟨d,by simpa using hst,h⟩
  | cons c cs ih =>
    rcases h with rfl | ⟨k,p,hp,hd⟩ | ⟨d1,hd1,hrest⟩
    · exact .inl ⟨_,hst⟩
    · cases hp
      exact .inl ⟨_,hst.write hd⟩
    · have hnext:=hst.write hd1
      simpa [List.append_assoc] using ih hnext hrest

theorem replace_stopped (hb : d.Bounded) (hs : d.Settled main P)
    (hne : main≠tmp) (h : Stopped (replace tmp main chunks) d d') :
    d'.Bounded ∧ d'.Settled main (fun o => P o ∨ o=some chunks.flatten) := by
  have hstaged : ∀ {x : Disk N} {i f}, Staged x tmp main P i f → x.Bounded ∧
      x.Settled main (fun o => P o ∨ o=some chunks.flatten) :=
    fun hst => ⟨hst.bounded,hst.settled.imp fun _ => .inl⟩
  rcases h with rfl | ⟨k,p,hp,-⟩ | ⟨d1,hd1,h1⟩
  · exact ⟨hb,hs.imp fun _ => .inl⟩
  · simp [Effect.part] at hp
  rcases (perform_create_staged hb hs hne hd1).writes h1 with ⟨f,hst⟩ | ⟨d2,hst,h2⟩
  · exact hstaged hst
  rcases h2 with rfl | ⟨k,p,hp,-⟩ | ⟨d3,hd3,h3⟩
  · exact hstaged hst
  · simp [Effect.part] at hp
  have hst3:=hst.sync hd3
  rcases h3 with rfl | ⟨k,p,hp,-⟩ | ⟨d4,hd4,h4⟩
  · exact hstaged hst3
  · simp [Effect.part] at hp
  obtain ⟨hb4,hs4,hf4⟩:=hst3.rename hne hd4
  rcases h4 with rfl | ⟨k,p,hp,-⟩ | ⟨d5,hd5,rfl⟩
  · exact ⟨hb4,hs4⟩
  · simp [Effect.part] at hp
  obtain ⟨hb5,hs5⟩:=perform_syncDir_settled hb4 hf4 hd5
  exact ⟨hb5,hs5.imp fun _ => .inr⟩

theorem Staged.writes_completed {acc : Bytes} (hst : Staged d tmp main P i ⟨[],acc⟩) {rest : List (Effect N)}
    (h : Completed (chunks.map (.write tmp)++rest) d d') :
    ∃ d1, Staged d1 tmp main P i ⟨[],acc++chunks.flatten⟩ ∧ Completed rest d1 d' := by
  induction chunks generalizing d acc with
  | nil => exact ⟨d,by simpa using hst,h⟩
  | cons c cs ih =>
    simp only [Completed,map_cons,cons_append,foldlM_cons] at h
    obtain ⟨d1,hd1,h1⟩:=Option.bind_eq_some_iff.mp h
    simpa [List.append_assoc] using ih (hst.write hd1) h1

theorem replace_completed (hb : d.Bounded) (hs : d.Settled main P) (hne : main≠tmp)
    (h : Completed (replace tmp main chunks) d d') : d'.Bounded ∧ d'.Settled main (· = some chunks.flatten) := by
  simp only [Completed,replace,foldlM_cons] at h
  obtain ⟨d1,hd1,h1⟩:=Option.bind_eq_some_iff.mp h
  obtain ⟨d2,hst,h2⟩:=(perform_create_staged hb hs hne hd1).writes_completed h1
  simp only [Completed,foldlM_cons] at h2
  obtain ⟨d3,hd3,h3⟩:=Option.bind_eq_some_iff.mp h2
  obtain ⟨d4,hd4,h4⟩:=Option.bind_eq_some_iff.mp h3
  obtain ⟨d5,hd5,h5⟩:=Option.bind_eq_some_iff.mp h4
  cases h5
  obtain ⟨hb4,-,hf4⟩:=(hst.sync hd3).rename hne hd4
  exact perform_syncDir_settled hb4 hf4 hd5

def Housekeeping (tmp main : N) (e : Effect N) : Prop :=
  e=.unlink tmp ∨ e=.sync main ∨ e=.syncDir

theorem perform_syncDir_read (hb : d.Bounded) (hs : d.Settled main P) (h : d.perform .syncDir=some d') : d'.Bounded ∧
    d'.read main=d.read main ∧ d'.Settled main (· = d.read main) := by
  cases h
  refine ⟨?_,rfl,?_⟩
  · intro k e he
    rw [view_nil,dir_eq_view] at he
    exact hb _ e he
  · intro k
    obtain ⟨o,-,ho⟩:=hs d.pending.length
    rw [← dir_eq_view] at ho
    refine ⟨o,?_,by rw [view_nil]; exact ho⟩
    unfold Disk.read Disk.file
    rw [ho]
    cases o <;> rfl

theorem housekeeping_step (hb : d.Bounded) (hs : d.Settled main P) (hne : main≠tmp) {e : Effect N}
    (he : Housekeeping tmp main e) (h : d.perform e=some d') :
    d'.Bounded ∧ d'.Settled main P ∧ d'.read main=d.read main := by
  rcases he with rfl | rfl | rfl
  · simp only [perform] at h
    obtain ⟨-,h⟩:=Option.ite_none_right_eq_some.mp h
    cases h
    have hlook : ((DirOp.unlink tmp).apply d.dir).lookup main=d.dir.lookup main := by
      rw [lookup_unlink,if_neg hne]
    refine ⟨?_,?_,?_⟩
    · intro k e he
      rw [view_snoc] at he
      split at he
      · exact hb k e he
      · have:=List.mem_of_mem_filter he
        rw [dir_eq_view] at this
        exact hb _ e this
    · intro k
      rw [view_snoc]
      split
      · exact hs k
      · rw [hlook,dir_eq_view]
        exact hs _
    · unfold Disk.read Disk.file
      rw [dir_eq_view,view_snoc,if_neg (by simp),hlook]
  · -- the target is synced already: nothing changes
    simp only [perform,Disk.modify] at h
    obtain ⟨i,hi,rfl⟩:=Option.map_eq_some_iff.mp h
    obtain ⟨o,-,ho⟩:=hs d.pending.length
    rw [← dir_eq_view,hi] at ho
    have hsame : update d.inodes i {d.inodes i with synced:=(d.inodes i).data}=d.inodes := by
      cases o with
      | none => simp at ho
      | some b =>
        have hf : d.inodes i=⟨b,b⟩ := by simpa using ho
        rw [hf,← hf,Function.update_eq_self]
    rw [hsame]
    exact ⟨hb,hs,rfl⟩
  · obtain ⟨hb',hr,hs'⟩:=perform_syncDir_read hb hs h
    exact ⟨hb',hs'.imp fun o ho => ho ▸ hs.read,hr⟩

variable {effects : List (Effect N)}

theorem housekeeping_stopped (hb : d.Bounded) (hs : d.Settled main P) (hne : main≠tmp)
    (hall : ∀ e∈effects, Housekeeping tmp main e) (h : Stopped effects d d') : d'.Bounded ∧ d'.Settled main P := by
  induction effects generalizing d with
  | nil =>
    obtain rfl : d'=d := h
    exact ⟨hb,hs⟩
  | cons e rest ih =>
    have he:=hall e (mem_cons_self ..)
    rcases h with rfl | ⟨k,p,hp,-⟩ | ⟨d1,hd1,h1⟩
    · exact ⟨hb,hs⟩
    · rcases he with rfl | rfl | rfl <;> simp [Effect.part] at hp
    · obtain ⟨hb1,hs1,-⟩:=housekeeping_step hb hs hne he hd1
      exact ih hb1 hs1 (fun x hx => hall x (List.mem_cons_of_mem _ hx)) h1

theorem housekeeping_completed (hb : d.Bounded) (hs : d.Settled main P) (hne : main≠tmp)
    (hall : ∀ e∈effects, Housekeeping tmp main e) (h : Completed (effects++[.syncDir]) d d') : d'.Bounded ∧
    d'.Settled main (· = d.read main) := by
  induction effects generalizing d with
  | nil =>
    simp only [List.nil_append,Completed,foldlM_cons] at h
    obtain ⟨d1,hd1,h1⟩:=Option.bind_eq_some_iff.mp h
    cases h1
    obtain ⟨hb',-,hs'⟩:=perform_syncDir_read hb hs hd1
    exact ⟨hb',hs'⟩
  | cons e rest ih =>
    simp only [cons_append,Completed,foldlM_cons] at h
    obtain ⟨d1,hd1,h1⟩:=Option.bind_eq_some_iff.mp h
    obtain ⟨hb1,hs1,hr1⟩:=housekeeping_step hb hs hne (hall e (mem_cons_self ..)) hd1
    rw [← hr1]
    exact ih hb1 hs1 (fun x hx => hall x (List.mem_cons_of_mem _ hx)) h1

/-! ### Completion

With enough budget nothing but a missing or an unexpected name stops a program. -/

def cost (effects : List (Effect N)) : ℕ := (effects.map Effect.cost).sum

theorem exec_of_completed {budget : ℕ} (h : Completed effects d d')
    (hb : cost effects≤budget) : exec budget effects d=(d',some (budget-cost effects)) := by
  induction effects generalizing d budget with
  | nil =>
    obtain rfl : d=d' := Option.some.inj h
    rfl
  | cons e rest ih =>
    simp only [Completed,foldlM_cons] at h
    obtain ⟨d1,hd1,h1⟩:=Option.bind_eq_some_iff.mp h
    simp only [cost,map_cons,List.sum_cons] at hb ⊢
    rw [exec,if_neg (by omega),hd1]
    dsimp only
    rw [ih h1 (by unfold cost; omega)]
    simp only [cost,Nat.sub_sub]

theorem exec_short {effects rest : List (Effect N)} {e : Effect N} (he : 0<e.cost) (hpart : e.part 0=none)
    (h : Completed effects d d') : exec (cost effects) (effects++e::rest) d=(d',none) := by
  induction effects generalizing d with
  | nil =>
    obtain rfl : d=d' := Option.some.inj h
    have hcost : cost ([] : List (Effect N))=0 := rfl
    simp only [List.nil_append,hcost,exec,if_pos he,hpart,Option.bind_none,Option.getD_none]
  | cons e' effects ih =>
    simp only [Completed,foldlM_cons] at h
    obtain ⟨d1,hd1,h1⟩:=Option.bind_eq_some_iff.mp h
    have hcost : cost (e'::effects)=e'.cost+cost effects := by simp [cost]
    rw [hcost,cons_append,exec,if_neg (by omega),hd1]
    simp only [Nat.add_sub_cancel_left]
    exact ih h1

theorem modify_dir {name : N} {f : File → File} (h : d.modify name f=some d') : d'.dir=d.dir := by
  obtain ⟨i,-,rfl⟩:=Option.map_eq_some_iff.mp h
  rfl

theorem modify_completes {name : N} (h : d.dir.lookup name=some i) (f : File → File) :
    ∃ d', d.modify name f=some d' ∧ d'.dir=d.dir := by
  unfold Disk.modify
  rw [h]
  exact ⟨_,rfl,rfl⟩

theorem writes_dir (h : Completed (chunks.map (.write tmp)) d d') : d'.dir=d.dir := by
  induction chunks generalizing d with
  | nil =>
    obtain rfl : d=d' := Option.some.inj h
    rfl
  | cons c chunks ih =>
    simp only [Completed,map_cons,foldlM_cons] at h
    obtain ⟨d1,hd1,h1⟩:=Option.bind_eq_some_iff.mp h
    simp only [perform] at hd1
    rw [ih h1,modify_dir hd1]

theorem writes_completes (chunks : List Bytes) (h : d.dir.lookup tmp=some i) :
    ∃ d', Completed (chunks.map (.write tmp)) d d' := by
  induction chunks generalizing d with
  | nil => exact ⟨d,rfl⟩
  | cons c chunks ih =>
    obtain ⟨d1,hd1,hdir⟩:=modify_completes h fun f => {f with data:=f.data++c}
    obtain ⟨d',hd'⟩:=ih (d := d1) (by rw [hdir]; exact h)
    refine ⟨d',?_⟩
    simp only [Completed,map_cons,foldlM_cons]
    exact Option.bind_eq_some_iff.mpr ⟨d1,hd1,hd'⟩

theorem dir_snoc (d : Disk N) (op : DirOp N) (inodes : ℕ → File) (fresh : ℕ) :
    dir ⟨inodes,fresh,d.durable,d.pending++[op]⟩=op.apply d.dir := by
  simp only [dir,List.foldl_append,List.foldl_cons,List.foldl_nil]

theorem replace_clears (hne : tmp≠main) (h : Completed (replace tmp main chunks) d d') : d'.dir.lookup tmp=none := by
  have hsplit : replace tmp main chunks=([.create tmp]++chunks.map (.write tmp)++[.sync tmp])++
      [.rename tmp main,.syncDir] := by simp [replace]
  rw [hsplit] at h
  obtain ⟨d1,-,h1⟩:=completed_append.mp h
  obtain ⟨d2,h2,h3⟩:=(completed_append (a := [.rename tmp main])).mp h1
  have hrename:=completed_singleton.mp h2
  obtain rfl:=Option.some.inj (completed_singleton.mp h3)
  simp only [perform] at hrename
  obtain ⟨-,hrename⟩:=Option.ite_none_right_eq_some.mp hrename
  cases hrename
  change (dir ⟨d1.inodes,d1.fresh,d1.durable,d1.pending++[.rename tmp main]⟩).lookup tmp=none
  rw [dir_snoc]
  exact lookup_rename_src _ hne

theorem replace_completes (chunks : List Bytes) (main : N) (hfree : d.dir.lookup tmp=none) :
    ∃ d', Completed (replace tmp main chunks) d d' := by
  have hcreate : d.perform (.create tmp)=some {d with
      inodes := update d.inodes d.fresh ⟨[],[]⟩
      fresh := d.fresh+1
      pending := d.pending++[.link tmp d.fresh]} := by
    simp only [perform,hfree]
    rfl
  generalize hd1 : ({d with
      inodes := update d.inodes d.fresh ⟨[],[]⟩
      fresh := d.fresh+1
      pending := d.pending++[.link tmp d.fresh]} : Disk N)=d1 at hcreate
  have h1 : d1.dir.lookup tmp=some d.fresh := by
    rw [← hd1,dir_snoc,lookup_link _ _ _ hfree,if_pos rfl]
  obtain ⟨d2,h2⟩:=writes_completes chunks h1
  have hdir2:=writes_dir h2
  obtain ⟨d3,h3,hdir3⟩:=modify_completes (d := d2) (by rw [hdir2]; exact h1) fun f => {f with synced:=f.data}
  have h4 : d3.perform (.rename tmp main)=some {d3 with pending:=d3.pending++[.rename tmp main]} := by
    have hsome : (d3.dir.lookup tmp).isSome=true := by rw [hdir3,hdir2,h1]; rfl
    simp only [perform,hsome,if_true]
  have htail : Completed [.sync tmp,.rename tmp main,.syncDir] d2 _ :=
    Option.bind_eq_some_iff.mpr ⟨d3,h3,Option.bind_eq_some_iff.mpr ⟨_,h4,Option.bind_eq_some_iff.mpr ⟨_,rfl,rfl⟩⟩⟩
  exact ⟨_,(completed_append (a := [.create tmp])).mpr
    ⟨d1,completed_singleton.mpr hcreate,completed_append.mpr ⟨d2,h2,htail⟩⟩⟩

def recovery (tmp main : N) (d : Disk N) : List (Effect N) :=
  (if (d.read tmp).isSome then [Effect.unlink tmp] else [])++[.sync main,.syncDir]

theorem isSome_read (d : Disk N) (name : N) : (d.read name).isSome=(d.dir.lookup name).isSome := by
  simp only [Disk.read,Disk.file,Option.isSome_map]

theorem recovery_completes {b : Bytes} (hread : d.read main=some b) (hne : tmp≠main) :
    ∃ d', Completed (recovery tmp main d) d d' ∧ d'.dir.lookup tmp=none := by
  obtain ⟨i,hi⟩ : ∃ i, d.dir.lookup main=some i := by
    rw [← Option.isSome_iff_exists,← isSome_read,hread]
    rfl
  have hrest : ∀ x : Disk N, x.dir.lookup main=some i → x.dir.lookup tmp=none →
      ∃ d', Completed [.sync main,.syncDir] x d' ∧ d'.dir.lookup tmp=none := by
    intro x hx hfree
    obtain ⟨x1,h1,hdir⟩:=modify_completes hx fun f => {f with synced:=f.data}
    refine ⟨_,Option.bind_eq_some_iff.mpr ⟨x1,h1,Option.bind_eq_some_iff.mpr ⟨_,rfl,rfl⟩⟩,?_⟩
    change x1.dir.lookup tmp=none
    rw [hdir]
    exact hfree
  unfold recovery
  split
  · rename_i hsome
    rw [isSome_read] at hsome
    have hun : d.perform (.unlink tmp)=some {d with pending:=d.pending++[.unlink tmp]} := by
      simp only [perform,hsome,if_true]
    obtain ⟨d',hd',hfree⟩:=hrest {d with pending:=d.pending++[.unlink tmp]}
      (by rw [dir_snoc,lookup_unlink,if_neg hne.symm]; exact hi) (by rw [dir_snoc,lookup_unlink,if_pos rfl])
    exact ⟨d',completed_append.mpr ⟨_,completed_singleton.mpr hun,hd'⟩,hfree⟩
  · rename_i hnone
    rw [isSome_read,Bool.not_eq_true,Option.isSome_eq_false_iff,Option.isNone_iff_eq_none] at hnone
    exact hrest d hi hnone

end Disk
end CrashFs
