import Parrot.Lib.CrashLog
import Parrot.Lib.Frames

/-! # Segmented logs

A log of framed records in numbered files. The last one grows; the others are
sealed, and reached the disk before their successor was created. A checkpoint
writes a new segment and then removes all older ones. This module has the changes
of a log, the programs that make them and the logs a crash may leave. -/

namespace SegmentLog
open List (range' map_append map_cons map_take take_take)
open CrashFs Frames

variable {α : Type}

/-- The log: its first segment's number, the sealed segments, the active one, and
how many records of it are synced. -/
structure Layout (α : Type) where
  base : ℕ
  sealed : List (List α)
  active : List α
  synced : ℕ

namespace Layout

def segId (L : Layout α) : ℕ := L.base+L.sealed.length
def log (L : Layout α) : List (List α) := L.sealed++[L.active]

end Layout

inductive Change (α : Type) where
  | write (r : α) (rotate : Bool)
  | checkpoint (rs : List α)
  | sync

def Change.after (L : Layout α) : Change α → Layout α
  | .write r false => {L with active:=L.active++[r]}
  | .write r true => ⟨L.base,L.sealed++[L.active++[r]],[],0⟩
  | .checkpoint rs => ⟨L.segId+1,[],rs,rs.length⟩
  | .sync => {L with synced:=L.active.length}

inductive Image (L : Layout α) : Change α → ℕ → List (List α) → List α → Prop where
  | kept (c : Change α) (j : ℕ) (hj : L.synced≤j) (hj' : j≤L.active.length) :
    Image L c L.base L.sealed (L.active.take j)
  | written (r : α) (rotate : Bool) : Image L (.write r rotate) L.base L.sealed (L.active++[r])
  | rotated (r : α) : Image L (.write r true) L.base (L.sealed++[L.active++[r]]) []
  | begun (rs : List α) (i : ℕ) (hs : L.synced=L.active.length) :
    Image L (.checkpoint rs) L.base (L.sealed++[L.active]) (rs.take i)
  | collected (rs : List α) (k : ℕ) (hk : k≤L.sealed.length) (hs : L.synced=L.active.length) :
    Image L (.checkpoint rs) (L.base+k) ((L.sealed++[L.active]).drop k) rs
  | replaced (rs : List α) : Image L (.checkpoint rs) (L.segId+1) [] rs

def Unclean (L : Layout α) (c : Change α) (l : Listing ℕ) : Prop :=
  (∃ rs, c=.checkpoint rs) ∧ L.synced<L.active.length ∧ (∃ x∈l, x.1=L.segId) ∧ ∃ x∈l, x.1=L.segId+1

section files
variable (body : α → Bytes) (check : Bytes → ℕ)

def data (seg : List α) : Bytes := frames check (seg.map body)

def size (log : List (List α)) : ℕ := (log.map fun seg => (data body check seg).length).sum

def Change.bytes : Change α → ℕ
  | .write r _ => (frame check (body r)).length
  | .checkpoint rs => (data body check rs).length
  | .sync => 0

def settled (b : Bytes) : File := ⟨b,b⟩

def sealedFiles : ℕ → List (List α) → Listing ℕ
  | _,[] => []
  | base,seg::rest => (base,settled (data body check seg))::sealedFiles (base+1) rest

variable (base : ℕ)

def under (segs : List (List α)) (f : File) : Listing ℕ :=
  sealedFiles body check base segs++[(base+segs.length,f)]

def Layout.listing (L : Layout α) : Listing ℕ := under body check L.base L.sealed
  ⟨data body check (L.active.take L.synced),data body check L.active⟩

def Change.program (L : Layout α) : Change α → List (Effect ℕ)
  | .write r rotate => .write L.segId (frame check (body r))::
    if rotate then [.sync L.segId,.create (L.segId+1),.syncDir] else []
  | .checkpoint rs => .create (L.segId+1)::
    (rs.map (fun r => .write (L.segId+1) (frame check (body r)))++
      (.sync (L.segId+1)::.syncDir::
        ((range' L.base (L.sealed.length+1)).map .unlink++[.syncDir])))
  | .sync => [.sync L.segId]

structure Rests (d : Disk ℕ) (L : Layout α) (t : Bytes) : Prop where
  named : d.Named
  history : d.history=[under body check L.base L.sealed
    ⟨data body check (L.active.take L.synced)++t,data body check L.active++t⟩]
  synced_le : L.synced≤L.active.length
  settled : t=[] ∨ L.synced=L.active.length

variable {body check} {max : ℕ}

@[simp] theorem data_nil : data body check []=[] := rfl

@[simp] theorem data_append (xs ys : List α) : data body check (xs++ys)=data body check xs++data body check ys := by
  simp [data]

theorem data_singleton (r : α) : data body check [r]=frame check (body r) := by
  simp [data]

theorem data_cons (r : α) (rs : List α) :
    data body check (r::rs)=frame check (body r)++data body check rs := rfl

@[simp] theorem size_append (xs ys : List (List α)) :
    size body check (xs++ys)=size body check xs+size body check ys := by
  simp [size]

@[simp] theorem size_singleton (seg : List α) : size body check [seg]=(data body check seg).length := by
  simp [size]

theorem sealedFiles_append (xs ys : List (List α)) : sealedFiles body check base (xs++ys) =
    sealedFiles body check base xs++sealedFiles body check (base+xs.length) ys := by
  induction xs generalizing base with
  | nil => simp [sealedFiles]
  | cons x xs ih =>
    simp only [List.cons_append,sealedFiles,ih,List.length_cons]
    rw [Nat.add_right_comm,Nat.add_assoc]

section
variable (xs : List (List α))
include xs

theorem sealedFiles_snoc (x : List α) :
    sealedFiles body check base (xs++[x])=under body check base xs (settled (data body check x)) :=
  sealedFiles_append base xs [x]

theorem under_snoc (x : List α) (f : File) : under body check base xs
    (settled (data body check x))++[(base+xs.length+1,f)]=under body check base (xs++[x]) f := by
  rw [← sealedFiles_snoc,under,List.length_append,List.length_singleton,Nat.add_assoc]

theorem sealedFiles_drop (k : ℕ) :
    (sealedFiles body check base xs).drop k=sealedFiles body check (base+k) (xs.drop k) := by
  induction xs generalizing base k with
  | nil => simp [sealedFiles]
  | cons x xs ih =>
    cases k with
    | zero => rfl
    | succ k =>
      simp only [sealedFiles,List.drop_succ_cons,ih]
      rw [Nat.add_right_comm,Nat.add_assoc]

theorem sealedFiles_names : (sealedFiles body check base xs).map Prod.fst=range' base xs.length := by
  induction xs generalizing base with
  | nil => rfl
  | cons x xs ih => simp [sealedFiles,ih,List.range'_succ]

theorem sealedFiles_length : (sealedFiles body check base xs).length=xs.length := by
  have hnames:=congrArg List.length (@sealedFiles_names _ body check base xs)
  rwa [List.length_map,List.length_range'] at hnames

theorem under_names (f : File) : (under body check base xs f).map Prod.fst=range' base (xs.length+1) := by
  rw [under,map_append,sealedFiles_names,List.range'_concat,Nat.one_mul]
  rfl

end

variable {xs : List (List α)}

theorem sealedFiles_name_lt {base : ℕ} {x : ℕ × File}
    (h : x∈sealedFiles body check base xs) : x.1<base+xs.length := by
  have hmem : x.1∈(sealedFiles body check base xs).map Prod.fst := List.mem_map_of_mem h
  rw [sealedFiles_names,List.mem_range'_1] at hmem
  exact hmem.2

theorem under_name_le {base : ℕ} {f : File} {x : ℕ × File}
    (h : x∈under body check base xs f) : x.1≤base+xs.length := by
  have hmem : x.1∈(under body check base xs f).map Prod.fst := List.mem_map_of_mem h
  rw [under_names,List.mem_range'_1] at hmem
  omega

variable {g : File → File}

theorem touch_other {n : ℕ} {l : Listing ℕ} (h : ∀ x∈l, x.1≠n) : touch n g l=l := by
  unfold touch
  refine (List.map_congr_left ?_).trans (List.map_id l)
  intro x hx
  exact if_neg (h x hx)

theorem touch_snoc {n : ℕ} {l : Listing ℕ} {f : File} (h : ∀ x∈l, x.1≠n) : touch n g (l++[(n,f)])=l++[(n,g f)] := by
  have happ : touch n g (l++[(n,f)])=touch n g l++touch n g [(n,f)] := map_append ..
  rw [happ,touch_other h]
  simp [touch]

theorem touch_under {base : ℕ} {f : File} :
    touch (base+xs.length) g (under body check base xs f)=under body check base xs (g f) :=
  touch_snoc fun _ hx => (sealedFiles_name_lt hx).ne

theorem cut_append (c : ℕ → ℕ) (l l' : Listing ℕ) : (l++l' : Listing ℕ).cut c=l.cut c++l'.cut c :=
  map_append ..

theorem cut_sealedFiles (c : ℕ → ℕ) (base : ℕ) (xs : List (List α)) :
    (sealedFiles body check base xs).cut c=sealedFiles body check base xs := by
  induction xs generalizing base with
  | nil => rfl
  | cons x xs ih =>
    have hcut : (sealedFiles body check (base+1) xs).cut c=sealedFiles body check (base+1) xs := ih _
    simp only [Listing.cut] at hcut ⊢
    simp only [sealedFiles,map_cons,settled,File.keep_settled,hcut]

theorem cut_under (c : ℕ → ℕ) (base : ℕ) (xs : List (List α)) (f : File) : (under body check base xs f).cut c =
    under body check base xs (settled (f.keep (c (base+xs.length)))) := by
  rw [under,cut_append,cut_sealedFiles]
  rfl

def bytes (l : Listing ℕ) : ℕ := (l.map fun x => x.2.data.length).sum

theorem bytes_append (l l' : Listing ℕ) : bytes (l++l')=bytes l+bytes l' := by
  simp [bytes]

theorem bytes_drop_le (l : Listing ℕ) (k : ℕ) : bytes (l.drop k)≤bytes l := by
  have hsplit : bytes l=bytes (l.take k)+bytes (l.drop k) := by
    rw [← bytes_append,List.take_append_drop]
  omega

theorem bytes_sealedFiles (xs : List (List α)) : bytes (sealedFiles body check base xs)=size body check xs := by
  induction xs generalizing base with
  | nil => rfl
  | cons x xs ih =>
    have hrest:=ih (base+1)
    simp only [bytes,size] at hrest ⊢
    simp only [sealedFiles,map_cons,List.sum_cons,settled,hrest]

theorem bytes_under (xs : List (List α)) (f : File) :
    bytes (under body check base xs f)=size body check xs+f.data.length := by
  rw [under,bytes_append,bytes_sealedFiles]
  simp [bytes]

theorem keep_length_le (f : File) (c : ℕ) : (f.keep c).length≤f.data.length ∨ (f.keep c).length≤f.synced.length := by
  unfold File.keep
  split
  · exact .inl (List.length_take_le' ..)
  · exact .inr (List.length_take_le' ..)

theorem keep_grown (valid : ∀ a, Valid check max (body a)) (recs : List α) {m n : ℕ} (hm : m ≤ recs.length)
    (hn : (data body check (recs.take m)).length≤n) (c : ℕ) : ∃ j t, m≤j ∧ j ≤ recs.length ∧ Torn check max t ∧
    File.keep ⟨data body check (recs.take m),(data body check recs).take n⟩ c=data body check (recs.take j)++t := by
  have hlen : (data body check (recs.take m)).length≤(data body check recs).length := by
    have hmono:=@frames_take_mono check (recs.map body) _ _ hm
    rwa [← map_take,← map_take,List.take_length] at hmono
  have hle : (data body check (recs.take m)).length≤((data body check recs).take n).length := by
    rw [List.length_take]
    omega
  simp only [File.keep,if_pos hle,take_take]
  obtain ⟨j,t,hj,ht,heq,hmono⟩:=@take_frames check max (recs.map body)
    (fun b hb => by obtain ⟨a,-,rfl⟩ := List.mem_map.mp hb; exact valid a)
    (Nat.min (Nat.max c (data body check (recs.take m)).length) n)
  refine ⟨j,t,?_,by simpa using hj,ht,?_⟩
  · refine hmono m (by simpa using hm) ?_
    rw [← map_take]
    exact Nat.le_min.mpr ⟨Nat.le_max_right ..,hn⟩
  · rw [← map_take] at heq
    exact heq

theorem keep_behind (x t : Bytes) (k k' c : ℕ) : ∃ n, File.keep ⟨x++t.take k,x++t.take k'⟩ c=x++t.take n := by
  have htake : ∀ (p q : ℕ) (u : Bytes), (x++t.take p).take (Nat.max q (x++u).length) =
      x++t.take (Nat.min (Nat.max q (x++u).length-x.length) p) := by
    intro p q u
    rw [List.take_append,take_take,List.take_of_length_le]
    refine le_trans ?_ (Nat.le_max_right ..)
    rw [List.length_append]
    omega
  unfold File.keep
  dsimp only
  split
  · exact ⟨_,htake k' _ _⟩
  · exact ⟨_,htake k _ _⟩

theorem torn_take {t : Bytes} (ht : Torn check max t) (k : ℕ) : Torn check max (t.take k) := by
  rcases ht with rfl | ⟨b,n,hv,hn,rfl⟩
  · exact .inl List.take_nil
  · refine .inr ⟨b,Nat.min k n,hv,?_,take_take⟩
    exact (Nat.min_le_right ..).trans_lt hn

end files
end SegmentLog
