import Mathlib.Algebra.GroupWithZero.Nat
import Mathlib.Data.List.Range
import Parrot.Lib.CrashFs

/-! # Directories without renames

Where no file is renamed or linked twice, a disk is the list of the listings its
directory went through since it was last synced: a crash picks one of them and
cuts each file. `Always` asks that a property of this history holds wherever a
program may stop. -/

namespace CrashFs
open List (map_map map_congr_left map_cons sum_cons)

variable {N : Type} [DecidableEq N]

abbrev Listing (N : Type) := List (N × File)

def current (hist : List (Listing N)) : Listing N := hist.getLast?.getD []

def touch (name : N) (f : File → File) (l : Listing N) : Listing N :=
  l.map fun x => if x.1=name then (x.1,f x.2) else x

def Effect.onHistory (hist : List (Listing N)) : Effect N → List (Listing N)
  | .create name => hist++[current hist++[(name,⟨[],[]⟩)]]
  | .write name bytes => hist.map (touch name fun f => {f with data:=f.data++bytes})
  | .truncate name length => hist.map (touch name fun f => {f with data:=f.data.take length})
  | .sync name => hist.map (touch name fun f => {f with synced:=f.data})
  | .rename _ _ => hist
  | .unlink name => hist++[(current hist).filter fun x => x.1≠name]
  | .syncDir => [current hist]

def Effect.Fits (hist : List (Listing N)) : Effect N → Prop
  | .create name => ∀ l∈hist, ∀ x∈l, x.1≠name
  | .write name _ => ∃ x∈current hist, x.1=name
  | .truncate name _ => ∃ x∈current hist, x.1=name
  | .sync name => ∃ x∈current hist, x.1=name
  | .rename _ _ => False
  | .unlink name => ∃ x∈current hist, x.1=name
  | .syncDir => True

def AllFit : List (Effect N) → List (Listing N) → Prop
  | [],_ => True
  | e::rest,hist => e.Fits hist ∧ AllFit rest (e.onHistory hist)

def Always (Φ : List (Listing N) → Prop) : List (Effect N) → List (Listing N) → Prop
  | [],hist => Φ hist
  | e::rest,hist => Φ hist ∧ (∀ k p, e.part k=some p → Φ (p.onHistory hist)) ∧
    Always Φ rest (e.onHistory hist)

theorem allFit_append {xs ys : List (Effect N)} {hist : List (Listing N)} (h : AllFit xs hist)
    (h' : AllFit ys (xs.foldl Effect.onHistory hist)) : AllFit (xs++ys) hist := by
  induction xs generalizing hist with
  | nil => exact h'
  | cons e rest ih => exact ⟨h.1,ih h.2 h'⟩

theorem always_append {Φ : List (Listing N) → Prop} {xs ys : List (Effect N)} {hist : List (Listing N)}
    (h : Always Φ xs hist) (h' : Always Φ ys (xs.foldl Effect.onHistory hist)) : Always Φ (xs++ys) hist := by
  induction xs generalizing hist with
  | nil => exact h'
  | cons e rest ih => exact ⟨h.1,h.2.1,ih h.2.2 h'⟩

def Listing.cut (cut : N → ℕ) (l : Listing N) : Listing N :=
  l.map fun x => (x.1,⟨x.2.keep (cut x.1),x.2.keep (cut x.1)⟩)

namespace Disk
variable {d d' : Disk N}

def listing (d : Disk N) (k : ℕ) : Listing N := (d.view k).map fun e => (e.1,d.inodes e.2)

def history (d : Disk N) : List (Listing N) := (List.range (d.pending.length+1)).map d.listing

structure Named (d : Disk N) : Prop where
  bounded : ∀ k, ∀ e∈d.view k, e.2<d.fresh
  functional : ∀ k k', ∀ e∈d.view k, ∀ e'∈d.view k', e.1=e'.1 ↔ e.2=e'.2

theorem current_history (d : Disk N) : current d.history=d.listing d.pending.length := by
  simp [current,history,List.range_succ]

theorem listing_mem_history (d : Disk N) (k : ℕ) : d.listing k∈d.history := by
  by_cases hk : k≤d.pending.length
  · exact List.mem_map.mpr ⟨k,by simpa using Nat.lt_succ_of_le hk,rfl⟩
  · refine List.mem_map.mpr ⟨d.pending.length,by simp,?_⟩
    rw [listing,listing,view_of_le d (by omega : d.pending.length≤k),dir_eq_view]

theorem dir_eq_current (d : Disk N) : current d.history=d.dir.map fun e => (e.1,d.inodes e.2) := by
  rw [current_history,listing,← dir_eq_view]

theorem exists_lookup {dir : Dir N} {n : N} : (dir.lookup n).isSome=true ↔ ∃ e∈dir, e.1=n := by
  rw [List.lookup_isSome_iff]
  simp only [beq_iff_eq]
  exact ⟨fun ⟨e,he,h⟩ => ⟨e,he,h.symm⟩,fun ⟨e,he,h⟩ => ⟨e,he,h.symm⟩⟩

theorem current_names (d : Disk N) (n : N) : (∃ x∈current d.history, x.1=n) ↔ (d.dir.lookup n).isSome=true := by
  rw [exists_lookup,dir_eq_current]
  simp only [List.mem_map]
  constructor
  · rintro ⟨x,⟨e,he,rfl⟩,rfl⟩
    exact ⟨e,he,rfl⟩
  · rintro ⟨e,he,rfl⟩
    exact ⟨_,⟨e,he,rfl⟩,rfl⟩

theorem empty_named : (empty : Disk N).Named := by
  constructor
  · intro k e he
    simp [empty,view] at he
  · intro k k' e he
    simp [empty,view] at he

theorem empty_history : (empty : Disk N).history=[[]] := rfl

theorem mem_of_lookup_some {dir : Dir N} {n : N} {i : ℕ} (h : dir.lookup n=some i) : (n,i)∈dir := by
  obtain ⟨l1,l2,rfl,-⟩:=List.lookup_eq_some_iff.mp h
  simp

theorem file_current (hd : d.Named) {x : N × File} (h : x∈current d.history) : d.file x.1=some x.2 := by
  rw [dir_eq_current] at h
  obtain ⟨e,he,rfl⟩:=List.mem_map.mp h
  obtain ⟨i,hi⟩:=Option.isSome_iff_exists.mp (exists_lookup.mpr ⟨e,he,rfl⟩)
  have hsame : i=e.2 := by
    have he':=dir_eq_view d ▸ he
    have hi':=dir_eq_view d ▸ mem_of_lookup_some hi
    exact (hd.functional _ _ _ hi' _ he').mp rfl
  simp [file,hi,hsame]

theorem read_current (hd : d.Named) {x : N × File} (h : x∈current d.history) : d.read x.1=some x.2.data := by
  rw [read,file_current hd h]
  rfl

theorem modify_history (hd : d.Named) {n : N} {f : File → File} (h : d.modify n f=some d') :
    d'.Named ∧ d'.history=d.history.map (touch n f) := by
  unfold modify at h
  cases hl : d.dir.lookup n with
  | none => simp [hl] at h
  | some i =>
    rw [hl] at h
    cases h
    have hmem:=mem_of_lookup_some hl
    rw [dir_eq_view] at hmem
    refine ⟨⟨hd.bounded,hd.functional⟩,?_⟩
    simp only [history,map_map]
    refine map_congr_left ?_
    intro k _
    simp only [listing,touch,Function.comp,map_map]
    refine map_congr_left ?_
    intro e he
    have hiff:=hd.functional k _ e he _ hmem
    by_cases hn : e.1=n
    · simp [hn,hiff.mp hn]
    · simp [hn,Function.update_of_ne (fun hi => hn (hiff.mpr hi))]

theorem snoc_history (d : Disk N) (op : DirOp N) {inodes : ℕ → File} {fresh : ℕ} (hsame : ∀ k, ∀ e∈d.view k,
    inodes e.2=d.inodes e.2) : (⟨inodes,fresh,d.durable,d.pending++[op]⟩ : Disk N).history =
    d.history++[(op.apply d.dir).map fun e => (e.1,inodes e.2)] := by
  simp only [history,List.length_append,List.length_singleton]
  rw [List.range_succ,List.map_append]
  congr 1
  · refine map_congr_left ?_
    intro k hk
    rw [listing,view_snoc,if_pos (Nat.le_of_lt_succ (List.mem_range.mp hk))]
    refine map_congr_left ?_
    intro e he
    exact congrArg (Prod.mk e.1) (hsame k e he)
  · simp only [List.map_singleton,listing]
    rw [view_snoc,if_neg (by simp)]

theorem named_snoc {op : DirOp N} {inodes : ℕ → File} {fresh : ℕ} (hfresh : d.fresh≤fresh) (hd : d.Named)
    (hsub : ∀ e∈op.apply d.dir, e∈d.dir) : (⟨inodes,fresh,d.durable,d.pending++[op]⟩ : Disk N).Named := by
  have hview : ∀ k, ∀ e∈(⟨inodes,fresh,d.durable,d.pending++[op]⟩ : Disk N).view k,∃ k', e∈d.view k' := by
    intro k e he
    rw [view_snoc] at he
    split at he
    · exact ⟨k,he⟩
    · exact ⟨_,dir_eq_view d ▸ hsub e he⟩
  constructor
  · intro k e he
    obtain ⟨k',he'⟩:=hview k e he
    exact (hd.bounded k' e he').trans_le hfresh
  · intro k k' e he e' he'
    obtain ⟨q,hq⟩:=hview k e he
    obtain ⟨q',hq'⟩:=hview k' e' he'
    exact hd.functional q q' e hq e' hq'

theorem create_history (hd : d.Named) {n : N} (hnew : ∀ l∈d.history, ∀ x∈l, x.1≠n)
    (h : d.perform (.create n)=some d') : d'.Named ∧ d'.history=d.history++[current d.history++[(n,⟨[],[]⟩)]] := by
  simp only [perform] at h
  obtain ⟨-,h⟩:=Option.ite_none_left_eq_some.mp h
  cases h
  have hname : ∀ k, ∀ e∈d.view k, e.1≠n := by
    intro k e he
    exact hnew _ (d.listing_mem_history k) (e.1,d.inodes e.2) (List.mem_map.mpr ⟨e,he,rfl⟩)
  have hsame : ∀ k, ∀ e∈d.view k,Function.update d.inodes d.fresh ⟨[],[]⟩ e.2=d.inodes e.2 := by
    intro k e he
    exact Function.update_of_ne (hd.bounded k e he).ne ..
  have hview : ∀ k, ∀ e∈(⟨Function.update d.inodes d.fresh ⟨[],[]⟩,d.fresh+1,d.durable,
      d.pending++[.link n d.fresh]⟩ : Disk N).view k, (∃ k', e∈d.view k') ∨ e=(n,d.fresh) := by
    intro k e he
    rw [view_snoc] at he
    split at he
    · exact .inl ⟨k,he⟩
    · rcases List.mem_append.mp he with he | he
      · exact .inl ⟨_,dir_eq_view d ▸ he⟩
      · exact .inr (List.mem_singleton.mp he)
  refine ⟨⟨?_,?_⟩,?_⟩
  · intro k e he
    rcases hview k e he with ⟨k',he'⟩ | rfl
    · exact (hd.bounded k' e he').trans (Nat.lt_succ_self _)
    · exact Nat.lt_succ_self _
  · intro k k' e he e' he'
    rcases hview k e he with ⟨q,hq⟩ | rfl <;> rcases hview k' e' he' with ⟨q',hq'⟩ | rfl
    · exact hd.functional q q' e hq e' hq'
    · exact ⟨fun heq => absurd heq (hname q e hq),fun heq => absurd heq (hd.bounded q e hq).ne⟩
    · exact ⟨fun heq => absurd heq.symm (hname q' e' hq'),fun heq => absurd heq.symm (hd.bounded q' e' hq').ne⟩
    · simp
  · rw [snoc_history d _ hsame]
    congr 2
    rw [dir_eq_current,DirOp.apply,List.map_append]
    congr 1
    · refine map_congr_left ?_
      intro e he
      rw [hsame _ e (dir_eq_view d ▸ he)]
    · simp

theorem unlink_history (hd : d.Named) {n : N} (h : d.perform (.unlink n)=some d') :
    d'.Named ∧ d'.history=d.history++[(current d.history).filter fun x => x.1≠n] := by
  simp only [perform] at h
  obtain ⟨-,h⟩:=Option.ite_none_right_eq_some.mp h
  cases h
  refine ⟨named_snoc (le_rfl) hd fun e he => (List.mem_filter.mp he).1,?_⟩
  rw [snoc_history d _ fun _ _ _ => rfl,dir_eq_current,DirOp.apply,List.filter_map]
  rfl

theorem syncDir_history (hd : d.Named) (h : d.perform .syncDir=some d') :
    d'.Named ∧ d'.history=[current d.history] := by
  cases h
  refine ⟨⟨?_,?_⟩,?_⟩
  · intro k e he
    rw [view_nil,dir_eq_view] at he
    exact hd.bounded _ e he
  · intro k k' e he e' he'
    rw [view_nil,dir_eq_view] at he he'
    exact hd.functional _ _ e he e' he'
  · rw [dir_eq_current]
    simp [history,listing,view]

theorem perform_history (hd : d.Named) {e : Effect N} (hf : e.Fits d.history)
    (h : d.perform e=some d') : d'.Named ∧ d'.history=e.onHistory d.history := by
  cases e with
  | create n => exact create_history hd hf h
  | write | truncate | sync => exact modify_history hd h
  | rename src dst => exact absurd hf id
  | unlink n => exact unlink_history hd h
  | syncDir => exact syncDir_history hd h

omit [DecidableEq N] in
theorem part_fits {e p : Effect N} {k : ℕ} {hist : List (Listing N)} (hp : e.part k=some p)
    (hf : e.Fits hist) : p.Fits hist := by
  cases e with
  | write n bytes =>
    cases hp
    exact hf
  | _ => simp [Effect.part] at hp

variable {effects : List (Effect N)}

theorem stopped_history {Φ : List (Listing N) → Prop} (hd : d.Named) (hfit : AllFit effects d.history)
    (halways : Always Φ effects d.history) (h : Stopped effects d d') : d'.Named ∧ Φ d'.history := by
  induction effects generalizing d with
  | nil =>
    obtain rfl : d'=d := h
    exact ⟨hd,halways⟩
  | cons e rest ih =>
    rcases h with rfl | ⟨k,p,hp,hperf⟩ | ⟨d1,hperf,hrest⟩
    · exact ⟨hd,halways.1⟩
    · obtain ⟨hd',heq⟩:=perform_history hd (part_fits hp hfit.1) hperf
      rw [heq]
      exact ⟨hd',halways.2.1 k p hp⟩
    · obtain ⟨hd1,heq⟩:=perform_history hd hfit.1 hperf
      refine ih hd1 ?_ ?_ hrest
      · rw [heq]
        exact hfit.2
      · rw [heq]
        exact halways.2.2

theorem completed_history (hd : d.Named) (hfit : AllFit effects d.history) (h : Completed effects d d') : d'.Named ∧
    d'.history=effects.foldl Effect.onHistory d.history := by
  induction effects generalizing d with
  | nil =>
    cases h
    exact ⟨hd,rfl⟩
  | cons e rest ih =>
    simp only [Completed,List.foldlM_cons] at h
    obtain ⟨d1,hperf,hrest⟩:=Option.bind_eq_some_iff.mp h
    obtain ⟨hd1,heq⟩:=perform_history hd hfit.1 hperf
    have hfit1:=hfit.2
    rw [← heq] at hfit1
    obtain ⟨hd',heq'⟩:=ih hd1 hfit1 hrest
    exact ⟨hd',by rw [heq',heq]; rfl⟩

theorem stopped_named (hd : d.Named) (hfit : AllFit effects d.history) (h : Stopped effects d d') : d'.Named := by
  have halways : ∀ (effects : List (Effect N)) (hist : List (Listing N)),Always (fun _ => True) effects hist := by
    intro effects
    induction effects with
    | nil => exact fun _ => trivial
    | cons e rest ih => exact fun hist => ⟨trivial,fun _ _ _ => trivial,ih _⟩
  exact (stopped_history hd hfit (halways effects d.history) h).1

theorem crash_history (hd : d.Named) (kept : ℕ) (cut : ℕ → ℕ) : (d.crash kept cut).Named ∧
    ∃ l∈d.history, ∃ c : N → ℕ, (d.crash kept cut).history=[l.cut c] := by
  have hview : ∀ k, (d.crash kept cut).view k=d.view kept := by
    intro k
    simp only [crash,view_nil]
  refine ⟨⟨?_,?_⟩,d.listing kept,d.listing_mem_history kept,fun n => (((d.view kept).lookup n).map cut).getD 0,?_⟩
  · intro k e he
    rw [hview] at he
    exact hd.bounded kept e he
  · intro k k' e he e' he'
    rw [hview] at he he'
    exact hd.functional kept kept e he e' he'
  · have hone : (d.crash kept cut).history=[(d.crash kept cut).listing 0] := rfl
    rw [hone]
    congr 1
    simp only [listing,hview,Listing.cut,map_map]
    refine map_congr_left ?_
    intro e he
    -- the name's inode is the one the directory finds
    obtain ⟨i,hi⟩:=Option.isSome_iff_exists.mp (exists_lookup.mpr ⟨e,he,rfl⟩)
    have hsame : i=e.2 := (hd.functional kept kept _ (mem_of_lookup_some hi) e he).mp rfl
    simp [crash,hi,hsame]

end Disk

end CrashFs
