import Mathlib.Data.List.Nodup
import Parrot.Lib.CrashLog

/-! # The files of a directory

What a program that is not interrupted does to the files it sees: each effect finds the
names it needs and does one thing to the listing. -/

namespace CrashFs

variable {N : Type} [DecidableEq N]

def Effect.onFiles (l : Listing N) : Effect N → Listing N
  | .create name => l++[(name,⟨[],[]⟩)]
  | .write name bytes => touch name (fun f => {f with data:=f.data++bytes}) l
  | .truncate name length => touch name (fun f => {f with data:=f.data.take length}) l
  | .sync name => touch name (fun f => {f with synced:=f.data}) l
  | .rename _ _ => l
  | .unlink name => l.filter fun x => x.1≠name
  | .syncDir => l

def Effect.Applies (l : Listing N) : Effect N → Prop
  | .create name => ∀ x∈l, x.1≠name
  | .write name _ => ∃ x∈l, x.1=name
  | .truncate name _ => ∃ x∈l, x.1=name
  | .sync name => ∃ x∈l, x.1=name
  | .rename _ _ => False
  | .unlink name => ∃ x∈l, x.1=name
  | .syncDir => True

def AllApply : List (Effect N) → Listing N → Prop
  | [],_ => True
  | e::rest,l => e.Applies l ∧ AllApply rest (e.onFiles l)

theorem allApply_append {xs ys : List (Effect N)} {l : Listing N} (h : AllApply xs l)
    (h' : AllApply ys (xs.foldl Effect.onFiles l)) : AllApply (xs++ys) l := by
  induction xs generalizing l with
  | nil => exact h'
  | cons e rest ih => exact ⟨h.1,ih h.2 h'⟩

namespace Disk
variable {d d' : Disk N}

def files (d : Disk N) : Listing N := d.dir.map fun e => (e.1,d.inodes e.2)

/-- The directory has a name once and a file once, and new files are new. -/
structure Distinct (d : Disk N) : Prop where
  names : (d.dir.map Prod.fst).Nodup
  inodes : (d.dir.map Prod.snd).Nodup
  bounded : ∀ e∈d.dir, e.2<d.fresh

theorem empty_distinct : (empty : Disk N).Distinct := by
  refine ⟨List.nodup_nil,List.nodup_nil,?_⟩
  intro e he
  contradiction

theorem files_names (d : Disk N) : d.files.map Prod.fst=d.dir.map Prod.fst := by
  rw [files,List.map_map]
  rfl

theorem mem_files {n : N} : (∃ x∈d.files, x.1=n) ↔ (d.dir.lookup n).isSome=true := by
  rw [exists_lookup]
  simp [files]

theorem Distinct.unique (h : d.Distinct) {e e' : N × ℕ} (he : e∈d.dir) (he' : e'∈d.dir) : e.1=e'.1 ↔ e.2=e'.2 := by
  constructor
  · intro heq
    rw [List.inj_on_of_nodup_map h.names he he' heq]
  · intro heq
    rw [List.inj_on_of_nodup_map h.inodes he he' heq]

theorem Distinct.read (h : d.Distinct) {x : N × File} (hx : x∈d.files) : d.read x.1=some x.2.data := by
  obtain ⟨e,he,rfl⟩:=List.mem_map.mp hx
  obtain ⟨i,hi⟩:=Option.isSome_iff_exists.mp (exists_lookup.mpr ⟨e,he,rfl⟩)
  have hsame:=(h.unique (mem_of_lookup_some hi) he).mp rfl
  dsimp only at hsame ⊢
  rw [Disk.read,file,hi,hsame]
  rfl

section
variable (hd : d.Distinct)
include hd

theorem modify_files {n : N} {f : File → File} (hn : ∃ x∈d.files, x.1=n) :
    ∃ d', d.modify n f=some d' ∧ d'.Distinct ∧ d'.files=touch n f d.files := by
  obtain ⟨i,hi⟩:=Option.isSome_iff_exists.mp (mem_files.mp hn)
  refine ⟨{d with inodes:=Function.update d.inodes i (f (d.inodes i))},by rw [modify,hi]; rfl,
    ⟨hd.names,hd.inodes,hd.bounded⟩,?_⟩
  have hmem:=mem_of_lookup_some hi
  simp only [files,touch,List.map_map]
  refine List.map_congr_left ?_
  intro e he
  have hiff:=hd.unique he hmem
  by_cases hname : e.1=n
  · simp [hname,hiff.mp hname]
  · simp [hname,Function.update_of_ne (fun heq => hname (hiff.mpr heq))]

theorem create_files {n : N} (hn : ∀ x∈d.files, x.1≠n) :
    ∃ d', d.perform (.create n)=some d' ∧ d'.Distinct ∧ d'.files=d.files++[(n,⟨[],[]⟩)] := by
  have hnone : ¬ (d.dir.lookup n).isSome=true := by
    rw [← mem_files]
    rintro ⟨x,hx,heq⟩
    exact hn x hx heq
  have hdir : (d.pending++[DirOp.link n d.fresh]).foldl DirOp.apply d.durable=d.dir++[(n,d.fresh)] := by
    rw [List.foldl_append]
    rfl
  refine ⟨_,by rw [perform,if_neg hnone],⟨?_,?_,?_⟩,?_⟩
  · change (((d.pending++[DirOp.link n d.fresh]).foldl DirOp.apply d.durable).map Prod.fst).Nodup
    rw [hdir,List.map_append,List.nodup_append]
    refine ⟨hd.names,List.nodup_singleton _,?_⟩
    intro a ha b hb heq
    obtain rfl:=List.mem_singleton.mp hb
    rw [← files_names] at ha
    obtain ⟨x,hx,hxa⟩:=List.mem_map.mp ha
    exact hn x hx (hxa.trans heq)
  · change (((d.pending++[DirOp.link n d.fresh]).foldl DirOp.apply d.durable).map Prod.snd).Nodup
    rw [hdir,List.map_append,List.nodup_append]
    refine ⟨hd.inodes,List.nodup_singleton _,?_⟩
    intro a ha b hb heq
    obtain rfl:=List.mem_singleton.mp hb
    obtain ⟨e,he,hea⟩:=List.mem_map.mp ha
    have hlt:=hd.bounded e he
    dsimp only at heq
    omega
  · change ∀ e∈(d.pending++[DirOp.link n d.fresh]).foldl DirOp.apply d.durable, e.2<d.fresh+1
    rw [hdir]
    intro e he
    rcases List.mem_append.mp he with he | he
    · exact (hd.bounded e he).trans (Nat.lt_succ_self _)
    · rw [List.mem_singleton.mp he]
      exact Nat.lt_succ_self _
  · change ((d.pending++[DirOp.link n d.fresh]).foldl DirOp.apply d.durable).map _=_
    rw [hdir,List.map_append,files]
    congr 1
    · refine List.map_congr_left ?_
      intro e he
      have hne:=(hd.bounded e he).ne
      simp [Function.update_of_ne hne]
    · simp

theorem unlink_files {n : N} (hn : ∃ x∈d.files, x.1=n) :
    ∃ d', d.perform (.unlink n)=some d' ∧ d'.Distinct ∧ d'.files=d.files.filter fun x => x.1≠n := by
  have hdir : (d.pending++[DirOp.unlink n]).foldl DirOp.apply d.durable=d.dir.filter fun e => e.1≠n := by
    rw [List.foldl_append]
    rfl
  have hsub : (d.dir.filter fun e => e.1≠n).Sublist d.dir := List.filter_sublist
  refine ⟨_,by rw [perform,if_pos (mem_files.mp hn)],⟨?_,?_,?_⟩,?_⟩
  · change (((d.pending++[DirOp.unlink n]).foldl DirOp.apply d.durable).map Prod.fst).Nodup
    rw [hdir]
    exact hd.names.sublist (hsub.map _)
  · change (((d.pending++[DirOp.unlink n]).foldl DirOp.apply d.durable).map Prod.snd).Nodup
    rw [hdir]
    exact hd.inodes.sublist (hsub.map _)
  · change ∀ e∈(d.pending++[DirOp.unlink n]).foldl DirOp.apply d.durable, e.2<d.fresh
    rw [hdir]
    exact fun e he => hd.bounded e (List.mem_of_mem_filter he)
  · change ((d.pending++[DirOp.unlink n]).foldl DirOp.apply d.durable).map _=_
    rw [hdir,files,List.filter_map]
    rfl

theorem perform_files {e : Effect N} (he : e.Applies d.files) :
    ∃ d', d.perform e=some d' ∧ d'.Distinct ∧ d'.files=e.onFiles d.files := by
  cases e with
  | create n => exact create_files hd he
  | write n bytes => exact @modify_files _ _ d hd n (fun f => {f with data:=f.data++bytes}) he
  | truncate n length => exact @modify_files _ _ d hd n (fun f => {f with data:=f.data.take length}) he
  | sync n => exact @modify_files _ _ d hd n (fun f => {f with synced:=f.data}) he
  | rename src dst => exact absurd he id
  | unlink n => exact unlink_files hd he
  | syncDir => exact ⟨_,rfl,⟨hd.names,hd.inodes,hd.bounded⟩,rfl⟩

theorem completed_files {effects : List (Effect N)} (h : AllApply effects d.files) :
    ∃ d', Completed effects d d' ∧ d'.Distinct ∧ d'.files=effects.foldl Effect.onFiles d.files := by
  induction effects generalizing d with
  | nil => exact ⟨d,rfl,hd,rfl⟩
  | cons e rest ih =>
    obtain ⟨d1,hperf,hd1,hfiles⟩:=perform_files hd h.1
    obtain ⟨d',hrun,hd',hfiles'⟩:=ih hd1 (by rw [hfiles]; exact h.2)
    refine ⟨d',?_,hd',by rw [hfiles',hfiles]; rfl⟩
    simp only [Completed,List.foldlM_cons,hperf]
    exact hrun

end

end Disk

section beside
variable {n : N} {f : File} {rest l : Listing N}

structure Beside (l : Listing N) (n : N) (f : File) (rest : Listing N) : Prop where
  perm : l.Perm ((n,f)::rest)
  other : ∀ x∈rest, x.1≠n

omit [DecidableEq N] in
theorem Beside.mem (h : Beside l n f rest) : ∃ x∈l, x.1=n :=
  ⟨(n,f),h.perm.mem_iff.mpr List.mem_cons_self,rfl⟩

theorem touch_rest {g : File → File} (h : ∀ x∈rest, x.1≠n) : touch n g rest=rest := by
  unfold touch
  conv_rhs => rw [← List.map_id rest]
  refine List.map_congr_left ?_
  intro x hx
  rw [if_neg (h x hx)]
  rfl

theorem Beside.touch (h : Beside l n f rest) (g : File → File) : Beside (touch n g l) n (g f) rest := by
  refine ⟨?_,h.other⟩
  have hperm : (CrashFs.touch n g l).Perm (CrashFs.touch n g ((n,f)::rest)) := h.perm.map _
  have hcons : CrashFs.touch n g ((n,f)::rest)=(n,g f)::CrashFs.touch n g rest := by simp [CrashFs.touch]
  rw [hcons,touch_rest h.other] at hperm
  exact hperm

omit [DecidableEq N] in
theorem beside_create (h : ∀ x∈l, x.1≠n) : Beside (l++[(n,⟨[],[]⟩)]) n ⟨[],[]⟩ l :=
  ⟨List.perm_append_singleton ..,h⟩

theorem Beside.writes (h : Beside l n f rest) (chunks : List Bytes) :
    AllApply (chunks.map (Effect.write n)) l ∧
    Beside ((chunks.map (Effect.write n)).foldl Effect.onFiles l) n {f with data:=f.data++chunks.flatten} rest := by
  induction chunks generalizing l f with
  | nil => exact ⟨trivial,by simpa using h⟩
  | cons b chunks ih =>
    obtain ⟨happly,hbeside⟩:=ih (h.touch fun f => {f with data:=f.data++b})
    refine ⟨⟨h.mem,happly⟩,?_⟩
    rw [List.flatten_cons,← List.append_assoc]
    exact hbeside

theorem Beside.unlinks (h : Beside l n f rest) {names : List N} (hnodup : names.Nodup)
    (hnames : ∀ m∈names, ∃ x∈rest, x.1=m) : AllApply (names.map Effect.unlink) l ∧
    Beside ((names.map Effect.unlink).foldl Effect.onFiles l) n f (rest.filter fun x => x.1∉names) := by
  induction names generalizing l rest with
  | nil => exact ⟨trivial,by simpa using h⟩
  | cons m names ih =>
    obtain ⟨x,hx,hxm⟩:=hnames m List.mem_cons_self
    have hne : n≠m := fun heq => h.other x hx (hxm.trans heq.symm)
    have hnext : Beside (l.filter fun x => x.1≠m) n f (rest.filter fun x => x.1≠m) := by
      refine ⟨?_,fun y hy => h.other y (List.mem_of_mem_filter hy)⟩
      have hperm:=h.perm.filter fun x => decide (x.1≠m)
      rwa [List.filter_cons_of_pos (by simpa using hne)] at hperm
    obtain ⟨hm,hrest⟩:=List.nodup_cons.mp hnodup
    obtain ⟨happly,hbeside⟩:=ih hnext hrest (by
      intro k hk
      obtain ⟨y,hy,rfl⟩:=hnames k (List.mem_cons_of_mem m hk)
      refine ⟨y,List.mem_filter.mpr ⟨hy,?_⟩,rfl⟩
      simpa using fun heq : y.1=m => hm (heq ▸ hk))
    refine ⟨⟨⟨x,h.perm.mem_iff.mpr (List.mem_cons_of_mem _ hx),hxm⟩,happly⟩,?_⟩
    have hsame : (rest.filter fun x => x.1≠m).filter (fun x => x.1∉names)=rest.filter fun x => x.1∉m::names := by
      rw [List.filter_filter]
      refine List.filter_congr ?_
      intro y _
      simp [Bool.and_comm]
    rw [← hsame]
    exact hbeside

end beside
end CrashFs
