import Mathlib.Data.List.Basic

/-! # Text

The string functions of the Rust standard library that take names and numbers apart, on the
characters of a string, and the facts that make a decimal ending of a name readable. -/

namespace Text
open String (toList_injective toList_append toList_ofList ofList_toList toList singleton)
open Nat (toList_repr toDigits)

/-- `str::strip_prefix`. -/
def stripPrefix (pre s : String) : Option String :=
  if pre.toList.isPrefixOf s.toList then some (String.ofList (s.toList.drop pre.toList.length)) else none

/-- `str::strip_suffix`. -/
def stripSuffix (suf s : String) : Option String :=
  if suf.toList.isSuffixOf s.toList then some (String.ofList (s.toList.take (s.toList.length-suf.toList.length))) else none

/-- `str::split` at a character. -/
def split (c : Char) (s : String) : List String := (s.toList.splitOn c).map String.ofList

/-- `str::split_once` at a character. -/
def splitOnce (c : Char) (s : String) : Option (String × String) :=
  match s.toList.dropWhile (· ≠ c) with
  | [] => none
  | _::rest => some (String.ofList (s.toList.takeWhile (· ≠ c)),String.ofList rest)

def startsWith (pre s : String) : Bool := pre.toList.isPrefixOf s.toList

/-- `str::parse` of an unsigned number of at most `max`: one `+` may stand before the digits. -/
def parse (max : ℕ) (s : String) : Option ℕ :=
  let digits:=match s.toList with
    | '+'::rest => rest
    | l => l
  if digits≠[] ∧ digits.all Char.isDigit ∧ Nat.ofDigitChars 10 digits 0 ≤ max then
    some (Nat.ofDigitChars 10 digits 0)
  else none

/-- The number that a text is the decimal form of. -/
def canonical (max : ℕ) (s : String) : Option ℕ := (parse max s).filter fun n => toString n=s

theorem stripPrefix_eq_some {pre s t : String} : stripPrefix pre s=some t ↔ s=pre++t := by
  unfold stripPrefix
  simp only [Option.ite_none_right_eq_some,Option.some.injEq,List.isPrefixOf_iff_prefix]
  constructor
  · intro h
    obtain ⟨⟨rest,hrest⟩,rfl⟩:=h
    apply toList_injective
    rw [toList_append,toList_ofList,← hrest,List.drop_left]
  · intro h
    subst h
    rw [toList_append,List.drop_left,ofList_toList]
    exact ⟨List.prefix_append _ _,rfl⟩

theorem stripSuffix_eq_some {suf s t : String} : stripSuffix suf s=some t ↔ s=t++suf := by
  unfold stripSuffix
  simp only [Option.ite_none_right_eq_some,Option.some.injEq,List.isSuffixOf_iff_suffix]
  constructor
  · intro h
    obtain ⟨⟨rest,hrest⟩,rfl⟩:=h
    apply toList_injective
    rw [toList_append,toList_ofList,← hrest,List.length_append,Nat.add_sub_cancel,List.take_left]
  · intro h
    subst h
    rw [toList_append,List.length_append,Nat.add_sub_cancel,List.take_left,ofList_toList]
    exact ⟨List.suffix_append _ _,rfl⟩

theorem startsWith_iff {pre s : String} : startsWith pre s=true ↔ ∃ t, s=pre++t := by
  unfold startsWith
  rw [List.isPrefixOf_iff_prefix]
  constructor
  · intro h
    obtain ⟨rest,hrest⟩:=h
    refine ⟨String.ofList rest,?_⟩
    apply toList_injective
    rw [toList_append,toList_ofList,hrest]
  · intro h
    obtain ⟨t,rfl⟩:=h
    rw [toList_append]
    exact List.prefix_append _ _

variable {c : Char}

theorem split_of_not_mem {s : String} (h : c∉s.toList) : split c s=[s] := by
  unfold split
  have hsingle : s.toList.splitOn c=[s.toList] := by
    refine List.splitOnP_eq_singleton fun x hx => ?_
    have hne : x≠c := fun heq => h (heq ▸ hx)
    simpa using hne
  rw [hsingle,List.map_singleton,ofList_toList]

theorem append_left_inj {s t u : String} (h : s++t=s++u) : t=u := by
  apply toList_injective
  have hlist:=congrArg toList h
  rw [toList_append,toList_append] at hlist
  exact List.append_cancel_left hlist

theorem repr_digits (n : ℕ) : (toString n).toList.all Char.isDigit := by
  rw [List.all_eq_true]
  intro c hc
  exact Nat.isDigit_of_mem_toDigits (by omega) (by omega) (toList_repr ▸ hc)

theorem not_mem_repr (hc : c.isDigit=false) (n : ℕ) : c∉(toString n).toList := by
  intro hmem
  have hdigit:=List.all_eq_true.mp (repr_digits n) c hmem
  rw [hc] at hdigit
  contradiction

theorem repr_inj {m n : ℕ} (h : toString m=toString n) : m=n := by
  have hlist : toDigits 10 m=toDigits 10 n := by
    rw [← toList_repr,← toList_repr]
    exact congrArg toList h
  rw [← Nat.ofDigitChars_ten_toDigits (n := m),hlist,Nat.ofDigitChars_ten_toDigits]

theorem parse_repr {n max : ℕ} (h : n ≤ max) : parse max (toString n)=some n := by
  have hlist : (toString n).toList=toDigits 10 n := toList_repr
  have hdigits : (match (toString n).toList with
      | '+'::rest => rest
      | l => l)=toDigits 10 n := by
    split
    · rename_i rest hplus
      have hmem : '+'∈(toString n).toList := by
        rw [hplus]
        exact List.mem_cons_self ..
      exact absurd hmem (not_mem_repr rfl n)
    · exact hlist
  unfold parse
  simp only [hdigits,Nat.ofDigitChars_ten_toDigits]
  rw [if_pos ⟨Nat.toDigits_ne_nil,hlist ▸ repr_digits n,h⟩]

theorem head_toDigits {n : ℕ} (h : 0<n) : (toDigits 10 n).head? ≠ some '0' := by
  induction n using Nat.strongRecOn with
  | ind n ih =>
    by_cases hn : n<10
    · rw [Nat.toDigits_of_lt_base hn,List.head?_cons]
      have hsmall : ∀ m<10, 0 < m → some m.digitChar≠some '0' := by decide
      exact hsmall n hn h
    · rw [Nat.toDigits_of_base_le (by omega) (by omega),List.head?_append_of_ne_nil _ Nat.toDigits_ne_nil]
      exact ih (n/10) (by omega) (by omega)

theorem startsWith_zero_repr {n : ℕ} (h : 0<n) : startsWith "0" (toString n)=false := by
  have hhead:=head_toDigits h
  have hlist : (toString n).toList=toDigits 10 n := toList_repr
  unfold startsWith
  rw [hlist]
  cases hdigits : toDigits 10 n with
  | nil => exact absurd hdigits Nat.toDigits_ne_nil
  | cons c rest =>
    rw [hdigits,List.head?_cons] at hhead
    have hne : c ≠ '0' := fun heq => hhead (heq ▸ rfl)
    simp [List.isPrefixOf,Ne.symm hne]

theorem canonical_eq_some {max n : ℕ} {s : String} : canonical max s=some n ↔ n ≤ max ∧ s=toString n := by
  unfold canonical
  rw [Option.filter_eq_some_iff]
  constructor
  · intro h
    obtain ⟨hparse,hs⟩:=h
    refine ⟨?_,(of_decide_eq_true hs).symm⟩
    unfold parse at hparse
    simp only [Option.ite_none_right_eq_some,Option.some.injEq] at hparse
    obtain ⟨⟨-,-,hle⟩,rfl⟩:=hparse
    exact hle
  · intro h
    obtain ⟨hle,rfl⟩:=h
    exact ⟨parse_repr hle,decide_eq_true rfl⟩

theorem separator_inj {a b x y : List Char} (ha : c∉a) (hb : c∉b) (h : a++c::x=b++c::y) : a=b ∧ x=y := by
  have htake (z w : List Char) (hz : c∉z) : (z++c::w).takeWhile (· ≠ c)=z := by
    rw [List.takeWhile_append_of_pos]
    · simp
    · intro d hd
      have hne : d≠c := fun heq => hz (heq ▸ hd)
      simpa using hne
  have hab : a=b := by rw [← htake a x ha,← htake b y hb,h]
  rw [hab] at h
  exact ⟨hab,(List.cons.inj (List.append_cancel_left h)).2⟩

theorem splitOnce_append {a : String} (ha : c∉a.toList) (b : String) :
    splitOnce c (a++(singleton c++b))=some (a,b) := by
  have hall : ∀ d∈a.toList, (decide (d≠c))=true := by
    intro d hd
    have hne : d≠c := fun heq => ha (heq ▸ hd)
    simpa using hne
  have hlist : (a++(singleton c++b)).toList=a.toList++c::b.toList := by simp
  unfold splitOnce
  rw [hlist,List.dropWhile_append_of_pos hall,List.takeWhile_append_of_pos hall]
  simp

theorem splitOnce_some {s a b : String} (h : splitOnce c s=some (a,b)) : s=a++(singleton c++b) := by
  have hjoin:=List.takeWhile_append_dropWhile (p := fun d => decide (d≠c)) (l := s.toList)
  have hhead:=List.head?_dropWhile_not (fun d => decide (d≠c)) s.toList
  unfold splitOnce at h
  cases hdrop : s.toList.dropWhile (fun d => decide (d≠c)) with
  | nil =>
    rw [hdrop] at h
    contradiction
  | cons d rest =>
    rw [hdrop] at h hjoin hhead
    cases h
    have hd : d=c := by simpa using hhead
    apply toList_injective
    rw [hd] at hjoin
    simpa using hjoin.symm

theorem separator_text_inj {sep a b x y : String} (hsep : sep.toList=[c]) (ha : c∉a.toList)
    (hb : c∉b.toList) (h : a++sep++x=b++sep++y) : a=b ∧ x=y := by
  have hlist:=congrArg toList h
  simp only [toList_append,hsep,List.append_assoc,List.singleton_append] at hlist
  obtain ⟨hab,hxy⟩:=separator_inj ha hb hlist
  exact ⟨toList_injective hab,toList_injective hxy⟩

theorem dash_inj {a b x y : List Char} (hx : '-'∉x) (hy : '-'∉y) (h : a++ '-'::x=b++ '-'::y) : a=b ∧ x=y := by
  have hrev:=congrArg List.reverse h
  simp only [List.reverse_append,List.reverse_cons,List.append_assoc,List.singleton_append] at hrev
  obtain ⟨hxy,hab⟩:=separator_inj (by simpa using hx) (by simpa using hy) hrev
  exact ⟨List.reverse_injective hab,List.reverse_injective hxy⟩

theorem dash_repr_inj {a b : String} {i j : ℕ} (h : a++"-"++toString i=b++"-"++toString j) : a=b ∧ i=j := by
  have hlist:=congrArg toList h
  simp only [toList_append,List.append_assoc] at hlist
  obtain ⟨hab,hij⟩:=dash_inj (not_mem_repr rfl i) (not_mem_repr rfl j) hlist
  exact ⟨toList_injective hab,repr_inj (toList_injective hij)⟩

end Text
