import Mathlib.Data.List.Perm.Basic
import Parrot.Lib.Text

/-! # Separated segments and the longest match

A text cut at a separator is a list of segments. A beginning that stops at a separator is a
beginning of the list, and among the beginnings of one text the longer text is the longer
list. A fold over rules with a length keeps the longest ones and intersects what they say.
Segments with gaps between them are found by taking each at its first place. -/

namespace Segments
open List (mem_cons forall_mem_append forall_mem_singleton)

section lists
variable {α : Type} [DecidableEq α] {c x : α} {p q t : List α}

omit [DecidableEq α] in
theorem intercalate_append {a : List α} {xs ys : List (List α)} (hxs : xs≠[]) (hys : ys≠[]) :
    a.intercalate (xs++ys)=a.intercalate xs++(a++a.intercalate ys) := by
  induction xs with
  | nil => exact absurd rfl hxs
  | cons s xs ih =>
    by_cases hempty : xs=[]
    · subst hempty
      rw [List.singleton_append,List.intercalate_cons_of_ne_nil hys,List.intercalate_singleton,List.append_assoc]
    · have hlong : xs++ys≠[] := fun h => hempty (List.append_eq_nil_iff.mp h).1
      rw [List.cons_append,List.intercalate_cons_of_ne_nil hlong,List.intercalate_cons_of_ne_nil hempty,ih hempty]
      simp only [List.append_assoc]

theorem splitOn_prefix_iff : p.splitOn c<+:t.splitOn c ↔ t=p ∨ ∃ rest, t=p++c::rest := by
  constructor
  · intro h
    obtain ⟨rest,hrest⟩:=h
    have ht : t=[c].intercalate (p.splitOn c++rest) := by rw [hrest,List.intercalate_splitOn]
    by_cases hempty : rest=[]
    · left
      rw [ht,hempty,List.append_nil,List.intercalate_splitOn]
    · right
      rw [intercalate_append (List.splitOn_ne_nil c p) hempty,List.intercalate_splitOn] at ht
      exact ⟨[c].intercalate rest,ht⟩
  · intro h
    rcases h with rfl | ⟨rest,rfl⟩
    · exact List.prefix_rfl
    · rw [List.splitOn_append_cons_self]
      exact List.prefix_append _ _

theorem prefix_of_splitOn (h : p.splitOn c<+:t.splitOn c) : p<+:t := by
  rcases splitOn_prefix_iff.mp h with rfl | ⟨rest,rfl⟩
  · exact List.prefix_rfl
  · exact List.prefix_append _ _

theorem mem_splitOn : (∃ s∈t.splitOn c, x∈s) ↔ x∈t ∧ x≠c := by
  induction t with
  | nil => simp [List.splitOn_nil]
  | cons y t ih =>
    rw [List.splitOn_cons_eq_if_modifyHead]
    by_cases hy : y=c
    · subst hy
      simp only [beq_self_eq_true,if_true,mem_cons,exists_eq_or_imp,List.not_mem_nil,false_or,ih]
      constructor
      · intro h
        exact ⟨.inr h.1,h.2⟩
      · intro h
        exact ⟨h.1.resolve_left h.2,h.2⟩
    · obtain ⟨s,rest,hsplit⟩:=List.exists_cons_of_ne_nil (List.splitOn_ne_nil c t)
      rw [hsplit] at ih
      have hbeq : (y==c)=false := beq_eq_false_iff_ne.mpr hy
      simp only [hbeq,Bool.false_eq_true,if_false,hsplit,List.modifyHead_cons,mem_cons,exists_eq_or_imp] at ih ⊢
      constructor
      · intro h
        rcases h with (rfl | h) | h
        · exact ⟨.inl rfl,hy⟩
        · exact ⟨.inr (ih.mp (.inl h)).1,(ih.mp (.inl h)).2⟩
        · exact ⟨.inr (ih.mp (.inr h)).1,(ih.mp (.inr h)).2⟩
      · intro h
        obtain ⟨rfl | h,hc⟩:=h
        · exact .inl (.inl rfl)
        · rcases ih.mpr ⟨h,hc⟩ with h | h
          · exact .inl (.inr h)
          · exact .inr h

theorem splitOn_length_lt (hp : p.splitOn c<+:t.splitOn c) (hq : q.splitOn c<+:t.splitOn c) :
    (p.splitOn c).length<(q.splitOn c).length ↔ p.length<q.length := by
  have hlonger {a b : List α} (ha : a.splitOn c<+:t.splitOn c) (hb : b.splitOn c<+:t.splitOn c)
      (hle : (a.splitOn c).length≤(b.splitOn c).length) : a<+:b :=
    prefix_of_splitOn (List.prefix_of_prefix_length_le ha hb hle)
  constructor
  · intro hlt
    have hpq:=hlonger hp hq (Nat.le_of_lt hlt)
    have hle:=hpq.length_le
    by_contra hge
    rw [hpq.eq_of_length (by omega)] at hlt
    omega
  · intro hlt
    by_contra hge
    have hle:=(hlonger hq hp (Nat.not_lt.mp hge)).length_le
    omega

end lists

section texts
variable {c : Char} {p q t : String}

theorem split_prefix_iff : Text.split c p<+:Text.split c t ↔ t=p ∨ ∃ rest, t=p++String.singleton c++rest := by
  have hinj : Function.Injective String.ofList := fun a b h => by simpa using congrArg String.toList h
  have hmap : Text.split c p<+:Text.split c t ↔ p.toList.splitOn c<+:t.toList.splitOn c :=
    List.prefix_map_iff_of_injective hinj
  rw [hmap,splitOn_prefix_iff,String.toList_inj]
  refine or_congr_right ?_
  constructor
  · intro h
    obtain ⟨rest,hrest⟩:=h
    refine ⟨String.ofList rest,?_⟩
    apply String.toList_injective
    simp [hrest]
  · intro h
    obtain ⟨rest,rfl⟩:=h
    exact ⟨rest.toList,by simp⟩

theorem size_lt_iff_of_initial (h : p.toList<+:q.toList) : p.utf8ByteSize<q.utf8ByteSize ↔ p.toList.length<q.toList.length := by
  obtain ⟨rest,hrest⟩:=h
  have hq : q=p++String.ofList rest := by
    apply String.toList_injective
    rw [String.toList_append,String.toList_ofList,hrest]
  rw [hq,String.utf8ByteSize_append,String.toList_append,String.toList_ofList,List.length_append]
  cases rest with
  | nil => simp
  | cons d rest =>
    have hpos:=d.utf8Size_pos
    simp
    omega

theorem split_length_lt (hp : Text.split c p<+:Text.split c t) (hq : Text.split c q<+:Text.split c t) :
    (Text.split c p).length<(Text.split c q).length ↔ p.utf8ByteSize<q.utf8ByteSize := by
  have hinj : Function.Injective String.ofList := fun a b h => by simpa using congrArg String.toList h
  have hp' : p.toList.splitOn c<+:t.toList.splitOn c := (List.prefix_map_iff_of_injective hinj).mp hp
  have hq' : q.toList.splitOn c<+:t.toList.splitOn c := (List.prefix_map_iff_of_injective hinj).mp hq
  have hlength : (Text.split c p).length<(Text.split c q).length ↔ p.toList.length<q.toList.length := by
    simp only [Text.split,List.length_map]
    exact splitOn_length_lt hp' hq'
  rw [hlength]
  rcases List.prefix_or_prefix_of_prefix (prefix_of_splitOn hp') (prefix_of_splitOn hq') with h | h
  · exact (size_lt_iff_of_initial h).symm
  · have hback:=size_lt_iff_of_initial h
    have hle:=h.length_le
    obtain ⟨rest,hrest⟩:=h
    have hsize : q.utf8ByteSize≤p.utf8ByteSize := by
      rw [← String.toList_inj.mp (by rw [String.toList_append,String.toList_ofList,hrest] :
        (q++String.ofList rest).toList=p.toList),String.utf8ByteSize_append]
      omega
    omega

end texts

section longest
variable {α : Type}

/-- What a loop over the rules remembers: the length of the longest ones so far, and whether all
of them permit. -/
def keepLongest (best : Option (ℕ × Bool)) (length : ℕ) (permits : Bool) : Option (ℕ × Bool) :=
  match best with
  | some (longest,allow) =>
    if longest=length then some (longest,allow&&permits)
    else if longest>length then some (longest,allow)
    else some (length,permits)
  | none => some (length,permits)

def Best (length : α → ℕ) (permits : α → Bool) (rules : List α) : Option (ℕ × Bool) → Prop
  | none => rules=[]
  | some (longest,allow) =>
    (∃ r∈rules, length r=longest) ∧ (∀ r∈rules, length r≤longest) ∧
      (allow=true ↔ ∀ r∈rules, length r=longest → permits r=true)

variable {length : α → ℕ} {permits : α → Bool} {rules : List α} {r : α} {best : Option (ℕ × Bool)}

theorem keepLongest_best (h : Best length permits rules best) :
    Best length permits (rules++[r]) (keepLongest best (length r) (permits r)) := by
  unfold keepLongest
  cases best with
  | none =>
    have hrules : rules=[] := h
    subst hrules
    simp [Best]
  | some b =>
    obtain ⟨longest,allow⟩:=b
    obtain ⟨⟨s,hs,hlen⟩,hle,hallow⟩:=h
    have hold : ∃ s∈rules++[r], length s=longest := ⟨s,List.mem_append_left _ hs,hlen⟩
    simp only
    split
    · rename_i heq
      refine ⟨hold,?_,?_⟩
      · rw [forall_mem_append,forall_mem_singleton]
        exact ⟨hle,Nat.le_of_eq heq.symm⟩
      · rw [forall_mem_append,forall_mem_singleton,Bool.and_eq_true,hallow]
        simp [heq]
    · rename_i hne
      split
      · rename_i hgt
        refine ⟨hold,?_,?_⟩
        · rw [forall_mem_append,forall_mem_singleton]
          exact ⟨hle,Nat.le_of_lt hgt⟩
        · rw [forall_mem_append,forall_mem_singleton,hallow]
          simp [Ne.symm hne]
      · rename_i hgt
        have hshort (x : α) (hx : x∈rules) : length x<length r := by
          have hx':=hle x hx
          omega
        refine ⟨⟨r,by simp,rfl⟩,?_,?_⟩
        · rw [forall_mem_append,forall_mem_singleton]
          exact ⟨fun x hx => Nat.le_of_lt (hshort x hx),Nat.le_refl _⟩
        · rw [forall_mem_append,forall_mem_singleton]
          constructor
          · intro hpermits
            exact ⟨fun x hx hlen => absurd hlen (Nat.ne_of_lt (hshort x hx)),fun _ => hpermits⟩
          · intro h
            exact h.2 rfl

end longest

section wildcards
variable {α : Type} [DecidableEq α] {seg l rest : List α} {segs : List (List α)} {anchored : Bool}

def findRest (seg : List α) : List α → Option (List α)
  | [] => if seg=[] then some [] else none
  | a::l => if seg.isPrefixOf (a::l) then some ((a::l).drop seg.length) else findRest seg l

/-- Segments one after the other, each at its first place; the last of an anchored pattern at the end. -/
def greedy (anchored : Bool) : List (List α) → List α → Bool
  | [], _ => true
  | seg::segs, l =>
    if segs=[] ∧ anchored=true then seg.isSuffixOf l
    else
      match findRest seg l with
      | none => false
      | some rest => greedy anchored segs rest

/-- The segments stand in `l` in order, with anything in front of each, and behind the last unless anchored. -/
def Fits (anchored : Bool) : List (List α) → List α → Prop
  | [], l => anchored=true → l=[]
  | seg::segs, l => ∃ gap rest, l=gap++seg++rest ∧ Fits anchored segs rest

omit [DecidableEq α] in
theorem Fits.gap (h : Fits anchored (seg::segs) l) (front : List α) : Fits anchored (seg::segs) (front++l) := by
  obtain ⟨gap,rest,rfl,hrest⟩:=h
  exact ⟨front++gap,rest,by simp,hrest⟩

theorem findRest_some (h : findRest seg l=some rest) : ∃ gap, l=gap++seg++rest := by
  induction l with
  | nil =>
    simp only [findRest] at h
    split at h
    · rename_i hseg
      cases h
      exact ⟨[],by simp [hseg]⟩
    · contradiction
  | cons a l ih =>
    simp only [findRest] at h
    split at h
    · rename_i hpre
      cases h
      obtain ⟨tail,htail⟩:=List.isPrefixOf_iff_prefix.mp hpre
      exact ⟨[],by rw [← htail]; simp⟩
    · obtain ⟨gap,rfl⟩:=ih h
      exact ⟨a::gap,rfl⟩

/-- The first place leaves the most behind it. -/
theorem findRest_first (gap rest : List α) : ∃ more, findRest seg (gap++seg++rest)=some (more++rest) := by
  induction gap with
  | nil =>
    refine ⟨[],?_⟩
    cases hl : seg++rest with
    | nil =>
      obtain ⟨rfl,rfl⟩:=List.append_eq_nil_iff.mp hl
      rfl
    | cons a l =>
      have hpre : seg.isPrefixOf (a::l)=true := List.isPrefixOf_iff_prefix.mpr ⟨rest,hl⟩
      rw [List.nil_append,hl,findRest,if_pos hpre,← hl,List.drop_left,List.nil_append]
  | cons a gap ih =>
    simp only [List.cons_append,findRest]
    split
    · rename_i hpre
      obtain ⟨tail,htail⟩:=List.isPrefixOf_iff_prefix.mp hpre
      obtain ⟨more,hmore⟩ : rest <:+ tail := by
        have hrest : rest <:+ a::(gap++seg++rest) := ⟨a::(gap++seg),by simp⟩
        have hlen:=congrArg List.length htail
        simp at hlen
        exact List.suffix_of_suffix_length_le hrest ⟨seg,htail⟩ (by omega)
      exact ⟨more,by rw [← htail,List.drop_left,hmore]⟩
    · exact ih

theorem greedy_iff (hsegs : segs≠[]) : greedy anchored segs l=true ↔ Fits anchored segs l := by
  induction segs generalizing l with
  | nil => contradiction
  | cons seg segs ih =>
    simp only [greedy]
    split
    · rename_i hlast
      obtain ⟨rfl,rfl⟩:=hlast
      rw [List.isSuffixOf_iff_suffix]
      constructor
      · rintro ⟨gap,rfl⟩
        exact ⟨gap,[],by simp,fun _ => rfl⟩
      · rintro ⟨gap,rest,rfl,hrest⟩
        cases hrest rfl
        exact ⟨gap,by simp⟩
    · rename_i hmore
      constructor
      · intro h
        split at h
        · contradiction
        · rename_i rest hfind
          obtain ⟨gap,rfl⟩:=findRest_some hfind
          refine ⟨gap,rest,rfl,?_⟩
          by_cases hempty : segs=[]
          · subst hempty
            exact fun hanchored => absurd ⟨rfl,hanchored⟩ hmore
          · exact (ih hempty).mp h
      · rintro ⟨gap,rest,rfl,hrest⟩
        obtain ⟨more,hfind⟩:=@findRest_first _ _ seg gap rest
        rw [hfind]
        cases segs with
        | nil => rfl
        | cons s segs => exact (ih (by simp)).mpr (hrest.gap more)

end wildcards

end Segments
