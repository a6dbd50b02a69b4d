import Mathlib.Data.List.Basic
import Mathlib.Data.List.Lookmap

/-! # A crash-prone directory of files

Files reach the disk when they are synced, directory entries when the directory
is. A crash keeps a byte prefix of what each file gained since its last sync and,
in order, some of the directory changes since the last directory sync. A program
is a list of effects that may stop after any number of them, a write after any
number of its bytes. -/

namespace CrashFs
open List (filter_cons lookup_cons)

abbrev Bytes := List UInt8

structure File where
  synced : Bytes
  data : Bytes

/-- What is left of a file when `cut` bytes of it reached the disk: never less than
the synced content, or than the content a pending truncation left. -/
def File.keep (f : File) (cut : ℕ) : Bytes :=
  if f.synced.length≤f.data.length then f.data.take (max cut f.synced.length)
  else f.synced.take (max cut f.data.length)

theorem File.keep_settled (b : Bytes) (cut : ℕ) : File.keep ⟨b,b⟩ cut=b := by
  simp only [File.keep,Nat.le_refl,if_true]
  exact List.take_of_length_le (Nat.le_max_right _ _)

abbrev Dir (N : Type) := List (N × ℕ)

inductive DirOp (N : Type) where
  | link (name : N) (inode : ℕ)
  | unlink (name : N)
  | rename (src dst : N)

section names
variable {N : Type} [DecidableEq N]

def DirOp.apply (dir : Dir N) : DirOp N → Dir N
  | .link name inode => dir++[(name,inode)]
  | .unlink name => dir.filter fun e => e.1≠name
  | .rename src dst =>
    (dir.filter fun e => e.1≠dst).map fun e => (if e.1=src then dst else e.1,e.2)

structure Disk (N : Type) where
  inodes : ℕ → File
  fresh : ℕ
  durable : Dir N
  pending : List (DirOp N)

namespace Disk

def empty : Disk N := ⟨fun _ => ⟨[],[]⟩,0,[],[]⟩

/-- The directory as it is after the first `k` pending changes. -/
def view (d : Disk N) (k : ℕ) : Dir N := (d.pending.take k).foldl DirOp.apply d.durable

def dir (d : Disk N) : Dir N := d.pending.foldl DirOp.apply d.durable

def file (d : Disk N) (name : N) : Option File := (d.dir.lookup name).map d.inodes
def read (d : Disk N) (name : N) : Option Bytes := (d.file name).map File.data

def crash (d : Disk N) (kept : ℕ) (cut : ℕ → ℕ) : Disk N where
  inodes := fun i => ⟨(d.inodes i).keep (cut i),(d.inodes i).keep (cut i)⟩
  fresh := d.fresh
  durable := d.view kept
  pending := []

end Disk

inductive Effect (N : Type) where
  | create (name : N)
  | write (name : N) (bytes : Bytes)
  | truncate (name : N) (length : ℕ)
  | sync (name : N)
  | rename (src dst : N)
  | unlink (name : N)
  | syncDir

def Effect.cost : Effect N → ℕ
  | .write _ bytes => bytes.length
  | _ => 1

/-- What an interrupted effect has done: only a write is divisible. -/
def Effect.part (k : ℕ) : Effect N → Option (Effect N)
  | .write name bytes => some (.write name (bytes.take k))
  | _ => none

namespace Disk

def modify (d : Disk N) (name : N) (f : File → File) : Option (Disk N) :=
  (d.dir.lookup name).map fun i => {d with inodes:=Function.update d.inodes i (f (d.inodes i))}

/- `none` is an I/O error that changes nothing: a missing name, or one that exists
where a new file is asked for. -/
def perform (d : Disk N) : Effect N → Option (Disk N)
  | .create name =>
    if (d.dir.lookup name).isSome then none
    else some {d with
      inodes := Function.update d.inodes d.fresh ⟨[],[]⟩
      fresh := d.fresh+1
      pending := d.pending++[.link name d.fresh]}
  | .write name bytes => d.modify name fun f => {f with data:=f.data++bytes}
  | .truncate name length => d.modify name fun f => {f with data:=f.data.take length}
  | .sync name => d.modify name fun f => {f with synced:=f.data}
  | .rename src dst =>
    if (d.dir.lookup src).isSome then some {d with pending:=d.pending++[.rename src dst]} else none
  | .unlink name =>
    if (d.dir.lookup name).isSome then some {d with pending:=d.pending++[.unlink name]} else none
  | .syncDir => some {d with durable:=d.dir,pending:=[]}

/-- Run a program that is stopped, by an error or by a crash, after `budget` bytes
and calls; the second component is what is left of the budget if it completes. -/
def exec (budget : ℕ) : List (Effect N) → Disk N → Disk N × Option ℕ
  | [],d => (d,some budget)
  | e::rest,d =>
    if budget<e.cost then (((e.part budget).bind d.perform).getD d,none)
    else
      match d.perform e with
      | none => (d,none)
      | some d' => exec (budget-e.cost) rest d'

def Stopped : List (Effect N) → Disk N → Disk N → Prop
  | [],d,d' => d'=d
  | e::rest,d,d' => d'=d ∨ (∃ k p, e.part k=some p ∧ d.perform p=some d') ∨
    ∃ d1, d.perform e=some d1 ∧ Stopped rest d1 d'

def Completed (effects : List (Effect N)) (d d' : Disk N) : Prop :=
  effects.foldlM perform d=some d'

theorem completed_append {a b : List (Effect N)} {d d' : Disk N} :
    Completed (a++b) d d' ↔ ∃ d1, Completed a d d1 ∧ Completed b d1 d' := by
  unfold Completed
  rw [List.foldlM_append]
  exact Option.bind_eq_some_iff

theorem completed_singleton {e : Effect N} {d d' : Disk N} : Completed [e] d d' ↔ d.perform e=some d' := by
  simp [Completed]

theorem stopped_refl (effects : List (Effect N)) (d : Disk N) : Stopped effects d d := by
  cases effects with
  | nil => rfl
  | cons e rest => exact .inl rfl

theorem exec_stopped {budget : ℕ} {effects : List (Effect N)} {d d' : Disk N} {left : Option ℕ}
    (h : exec budget effects d=(d',left)) : Stopped effects d d' := by
  induction effects generalizing budget d with
  | nil => exact (congrArg Prod.fst h).symm
  | cons e rest ih =>
    simp only [exec] at h
    split at h
    · cases hp : (e.part budget).bind d.perform with
      | none =>
        rw [hp] at h
        exact .inl (congrArg Prod.fst h).symm
      | some d1 =>
        rw [hp] at h
        obtain rfl : d1=d' := congrArg Prod.fst h
        obtain ⟨p,hp1,hp2⟩:=Option.bind_eq_some_iff.mp hp
        exact .inr (.inl ⟨budget,p,hp1,hp2⟩)
    · split at h
      · exact .inl (congrArg Prod.fst h).symm
      · rename_i d1 hd1
        exact .inr (.inr ⟨d1,hd1,ih h⟩)

theorem exec_completed {budget left : ℕ} {effects : List (Effect N)} {d d' : Disk N}
    (h : exec budget effects d=(d',some left)) : Completed effects d d' := by
  induction effects generalizing budget d with
  | nil =>
    simp only [exec,Prod.mk.injEq] at h
    simp [Completed,h.1]
  | cons e rest ih =>
    simp only [exec] at h
    split at h
    · simp at h
    · split at h
      · simp at h
      · rename_i d1 hd1
        simp only [Completed,List.foldlM_cons,hd1]
        exact ih h

theorem view_of_le (d : Disk N) {k : ℕ} (h : d.pending.length≤k) : d.view k=d.dir := by
  unfold view dir
  rw [List.take_of_length_le h]

theorem dir_eq_view (d : Disk N) : d.dir=d.view d.pending.length :=
  (view_of_le d (Nat.le_refl _)).symm

theorem view_snoc (d : Disk N) (op : DirOp N) (inodes : ℕ → File) (fresh k : ℕ) :
    view ⟨inodes,fresh,d.durable,d.pending++[op]⟩ k = if k≤d.pending.length then d.view k else op.apply d.dir := by
  unfold view dir
  split
  · rename_i hk
    dsimp only
    rw [List.take_append_of_le_length hk]
  · rename_i hk
    dsimp only
    rw [List.take_of_length_le (by simp; omega),List.foldl_append]
    rfl

theorem view_nil (inodes : ℕ → File) (fresh k : ℕ) (dir : Dir N) : view ⟨inodes,fresh,dir,[]⟩ k=dir := by
  simp [view]

end Disk

theorem lookup_unlink (dir : Dir N) (n m : N) :
    ((DirOp.unlink n).apply dir).lookup m=if m=n then none else dir.lookup m := by
  induction dir with
  | nil => simp [DirOp.apply]
  | cons e dir ih =>
    obtain ⟨x,i⟩:=e
    simp only [DirOp.apply] at ih ⊢
    by_cases hx : x=n
    · subst hx
      simp only [ne_eq,decide_not,filter_cons,decide_true,Bool.not_true,Bool.false_eq_true,↓reduceIte] at ih ⊢
      rw [ih]
      by_cases hm : m=x
      · simp [hm]
      · simp [hm,lookup_cons,beq_false_of_ne hm]
    · simp only [ne_eq,decide_not,filter_cons,hx,decide_false,Bool.not_false,↓reduceIte] at ih ⊢
      by_cases hm : m=x
      · subst hm
        simp [hx]
      · simpa [lookup_cons,beq_false_of_ne hm] using ih

theorem lookup_link (dir : Dir N) {n : N} (i : ℕ) (m : N) (h : dir.lookup n=none) :
    ((DirOp.link n i).apply dir).lookup m=if m=n then some i else dir.lookup m := by
  simp only [DirOp.apply,List.lookup_append]
  by_cases hm : m=n
  · simp [hm,h]
  · simp [hm,lookup_cons,beq_false_of_ne hm]

theorem lookup_rename_dst (dir : Dir N) {src dst : N} (hne : src≠dst) :
    ((DirOp.rename src dst).apply dir).lookup dst=dir.lookup src := by
  induction dir with
  | nil => simp [DirOp.apply]
  | cons e dir ih =>
    obtain ⟨x,i⟩:=e
    simp only [DirOp.apply] at ih ⊢
    by_cases hd : x=dst
    · subst hd
      simpa [filter_cons,lookup_cons,beq_false_of_ne hne] using ih
    · by_cases hs : x=src
      · subst hs
        simp [hd]
      · simp only [ne_eq,decide_not,filter_cons,hd,decide_false,Bool.not_false,↓reduceIte,
          List.map_cons,hs,lookup_cons,beq_false_of_ne (Ne.symm hd),
          beq_false_of_ne (Ne.symm hs)] at ih ⊢
        exact ih

theorem lookup_rename_src (dir : Dir N) {src dst : N} (hne : src≠dst) :
    ((DirOp.rename src dst).apply dir).lookup src=none := by
  induction dir with
  | nil => rfl
  | cons e dir ih =>
    obtain ⟨x,i⟩:=e
    simp only [DirOp.apply] at ih ⊢
    by_cases hd : x=dst
    · simpa [filter_cons,hd] using ih
    · by_cases hs : x=src
      · simpa [filter_cons,hd,hs,hne,lookup_cons,beq_false_of_ne hne] using ih
      · simpa [filter_cons,hd,hs,lookup_cons,beq_false_of_ne (Ne.symm hs)] using ih

theorem mem_rename {dir : Dir N} {src dst : N} {e : N × ℕ}
    (h : e∈(DirOp.rename src dst).apply dir) : ∃ x, (x,e.2)∈dir := by
  simp only [DirOp.apply,List.mem_map,List.mem_filter] at h
  obtain ⟨⟨x,i⟩,⟨hx,-⟩,rfl⟩:=h
  exact ⟨x,hx⟩

end names
end CrashFs
