import Parrot.Lib.Segments
import Parrot.Mirror.Policy

/-! # Qualified actor paths (`actor_path.rs`)

A path of this node goes over the wire with the name of the node in front. -/

namespace Parrot.ActorPath
open Text (stripPrefix stripPrefix_eq_some splitOnce startsWith startsWith_iff)
open Directory (validateNodeId)
open Mirror (canonical)

/- The slice starts at the second slash of the scheme. -/
def nativeActix (path : String) : Bool :=
  startsWith "actix://" path&&decide (path.utf8ByteSize>"actix://".utf8ByteSize) &&
    canonical (String.ofList (path.toList.drop "actix:/".toList.length))

def splitTail (node tail : String) : Option (String × String) :=
  match (stripPrefix "/" tail).filter nativeActix with
  | some native => some (node,native)
  | none => if tail != "/" && canonical tail then some (node,tail) else none

def split (path : String) : Option (String × String) :=
  if path.utf8ByteSize>4096 then none
  else do
    let rest ← stripPrefix "parrot://" path
    let (node,_) ← splitOnce '/' rest
    if (validateNodeId node).toOption.isNone then none
    else splitTail node (String.ofList (rest.toList.drop node.toList.length))

def qualified (node path : String) : String :=
  if nativeActix path then "parrot://"++node++"/"++path
  else if path != "/" && canonical path then "parrot://"++node++path
  else path

def qualify (node path : String) : Option String :=
  if path.utf8ByteSize>4096 then none
  else (split (qualified node path)).bind fun parts => if parts.1=node then some (qualified node path) else none

variable {node path q l : String}

theorem canonical_slash (h : canonical path=true) : ∃ t, path="/"++t := by
  simp only [canonical,Bool.and_eq_true] at h
  exact startsWith_iff.mp h.1.1.2

theorem nativeActix_scheme (h : nativeActix path=true) : ∃ t, path="actix://"++t := by
  simp only [nativeActix,Bool.and_eq_true] at h
  exact startsWith_iff.mp h.1.1

theorem heads_differ {a b x y : String} {c d : Char} (ha : a.toList.head? = some c) (hb : b.toList.head? = some d)
    (hcd : c≠d) : a++x≠b++y := by
  intro h
  have hlist:=congrArg (fun s => s.toList.head?) h
  simp only [String.toList_append,List.head?_append,ha,hb,Option.some_or] at hlist
  exact hcd (Option.some.inj hlist)

theorem canonical_not_native (h : canonical path=true) : nativeActix path=false := by
  by_contra hnative
  obtain ⟨t,ht⟩:=canonical_slash h
  obtain ⟨t',ht'⟩:=nativeActix_scheme (by simpa using hnative)
  exact heads_differ (a := "/") (b := "actix://") (x := t) (y := t') rfl rfl (by decide) (ht.symm.trans ht')

theorem qualified_scheme (h : path="parrot://"++l) : nativeActix path=false ∧ canonical path=false := by
  constructor
  · by_contra hnative
    obtain ⟨t,ht⟩:=nativeActix_scheme (by simpa using hnative)
    exact heads_differ (a := "parrot://") (b := "actix://") (x := l) (y := t) rfl rfl (by decide) (h.symm.trans ht)
  · by_contra hcanonical
    obtain ⟨t,ht⟩:=canonical_slash (by simpa using hcanonical)
    exact heads_differ (a := "parrot://") (b := "/") (x := l) (y := t) rfl rfl (by decide) (h.symm.trans ht)

theorem native_not_canonical (h : nativeActix path=true) : canonical ("/"++path)=false := by
  obtain ⟨t,rfl⟩:=nativeActix_scheme h
  have hempty : "" ∈ Text.split '/' (String.ofList (("/"++("actix://"++t)).toList.drop 1)) := by
    have hlist : (("/"++("actix://"++t)).toList.drop 1)="actix:".toList++ '/'::([]++ '/'::t.toList) := by
      simp [String.toList_append]
    unfold Text.split
    rw [String.toList_ofList,hlist,List.splitOn_append_cons_self,List.splitOn_append_cons_self]
    simp
  by_contra hcanonical
  simp only [canonical,Bool.and_eq_true,Bool.or_eq_true,List.all_eq_true,beq_iff_eq,Bool.not_eq_false] at hcanonical
  rcases hcanonical.2 with hroot | hsegments
  · have hlen:=congrArg String.length hroot
    simp [String.length_append] at hlen
  · have hname:=(hsegments "" hempty).1.1
    simp at hname

theorem splitTail_eq_some : splitTail node path=some (q,l) ↔
    q=node ∧ (nativeActix l=true ∧ path="/"++l ∨ path≠"/" ∧ canonical path=true ∧ l=path) := by
  unfold splitTail
  cases hnative : (stripPrefix "/" path).filter nativeActix with
  | some native =>
    obtain ⟨hstrip,hform⟩:=Option.filter_eq_some_iff.mp hnative
    have htail:=stripPrefix_eq_some.mp hstrip
    constructor
    · intro h
      cases h
      exact ⟨rfl,.inl ⟨hform,htail⟩⟩
    · rintro ⟨rfl,⟨-,hpath⟩ | ⟨-,hcanonical,-⟩⟩
      · rw [Text.append_left_inj (htail.symm.trans hpath)]
      · rw [htail,native_not_canonical hform] at hcanonical
        contradiction
  | none =>
    have hother : ∀ l, path="/"++l → nativeActix l=false := by
      intro l hpath
      rw [stripPrefix_eq_some.mpr hpath] at hnative
      simpa using hnative
    constructor
    · intro h
      obtain ⟨hform,heq⟩:=Option.ite_none_right_eq_some.mp h
      cases heq
      simp only [Bool.and_eq_true,bne_iff_ne] at hform
      exact ⟨rfl,.inr ⟨hform.1,hform.2,rfl⟩⟩
    · rintro ⟨rfl,⟨hform,hpath⟩ | ⟨hroot,hcanonical,rfl⟩⟩
      · rw [hother l hpath] at hform
        contradiction
      · simp [hroot,hcanonical]

def Tail (l tail : String) : Prop := nativeActix l=true ∧ tail="/"++l ∨ l≠"/" ∧ canonical l=true ∧ tail=l

theorem Tail.slash {tail : String} (h : Tail l tail) : ∃ t, tail="/"++t := by
  rcases h with ⟨-,rfl⟩ | ⟨-,hcanonical,rfl⟩
  · exact ⟨l,rfl⟩
  · exact canonical_slash hcanonical

theorem noSlash (h : validateNodeId node=.ok ()) : '/'∉node.toList := by
  intro hmem
  unfold validateNodeId at h
  rw [if_pos] at h
  · contradiction
  · simp only [Bool.or_eq_true,List.any_eq_true]
    exact .inr ⟨'/',hmem,by decide⟩

theorem split_eq_some : split q=some (node,l) ↔
    q.utf8ByteSize≤4096 ∧ validateNodeId node=.ok () ∧ ∃ tail, Tail l tail ∧ q="parrot://"++(node++tail) := by
  have hvalid (n : String) : (validateNodeId n).toOption.isNone=false ↔ validateNodeId n=.ok () := by
    cases hn : validateNodeId n <;> simp [Except.toOption]
  unfold split
  constructor
  · intro h
    obtain ⟨hsize,h⟩:=Option.ite_none_left_eq_some.mp h
    obtain ⟨rest,hrest,h⟩:=Option.bind_eq_some_iff.mp h
    obtain ⟨⟨n,after⟩,hsplit,h⟩:=Option.bind_eq_some_iff.mp h
    obtain ⟨hnode,h⟩:=Option.ite_none_left_eq_some.mp h
    obtain ⟨rfl,hforms⟩:=splitTail_eq_some.mp h
    have hjoin:=Text.splitOnce_some hsplit
    have htail : String.ofList (rest.toList.drop node.toList.length)="/"++after := by
      apply String.toList_injective
      rw [hjoin,String.toList_append,List.drop_left,String.ofList_toList]
      rfl
    rw [htail] at hforms
    refine ⟨Nat.not_lt.mp hsize,(hvalid node).mp (Bool.eq_false_iff.mpr hnode),"/"++after,?_,?_⟩
    · rcases hforms with ⟨hnative,heq⟩ | ⟨hroot,hcanonical,rfl⟩
      · exact .inl ⟨hnative,heq⟩
      · exact .inr ⟨hroot,hcanonical,rfl⟩
    · rw [stripPrefix_eq_some.mp hrest,hjoin]
      rfl
  · rintro ⟨hsize,hnode,tail,htail,rfl⟩
    obtain ⟨after,hafter⟩:=htail.slash
    have hsplit : splitOnce '/' (node++tail)=some (node,after) := by
      rw [hafter]
      exact Text.splitOnce_append (noSlash hnode) after
    have hdrop : String.ofList ((node++tail).toList.drop node.toList.length)=tail := by
      rw [String.toList_append,List.drop_left,String.ofList_toList]
    rw [if_neg (Nat.not_lt.mpr hsize),stripPrefix_eq_some.mpr rfl]
    simp only [Option.bind_eq_bind,Option.bind_some,hsplit,hdrop]
    rw [if_neg (by simp [(hvalid node).mpr hnode])]
    refine splitTail_eq_some.mpr ⟨rfl,?_⟩
    rcases htail with ⟨hnative,rfl⟩ | ⟨hroot,hcanonical,rfl⟩
    · exact .inl ⟨hnative,rfl⟩
    · exact .inr ⟨hroot,hcanonical,rfl⟩

theorem qualified_tail {tail : String} (h : Tail l tail) (node : String) :
    qualified node l="parrot://"++(node++tail) := by
  unfold qualified
  rcases h with ⟨hnative,rfl⟩ | ⟨hroot,hcanonical,rfl⟩
  · rw [if_pos hnative]
    simp only [String.append_assoc]
  · rw [if_neg (by simp [canonical_not_native hcanonical]),if_pos (by simp [hroot,hcanonical]),String.append_assoc]

theorem Tail.unqualified {tail : String} (h : Tail l tail) : startsWith "parrot://" l=false := by
  by_contra hstart
  obtain ⟨t,ht⟩:=startsWith_iff.mp (by simpa using hstart)
  have hforms:=qualified_scheme ht
  rcases h with ⟨hnative,-⟩ | ⟨-,hcanonical,-⟩
  · rw [hforms.1] at hnative
    contradiction
  · rw [hforms.2] at hcanonical
    contradiction

theorem qualify_eq_some : qualify node path=some q ↔
    path.utf8ByteSize≤4096 ∧ q=qualified node path ∧ ∃ l, split q=some (node,l) := by
  unfold qualify
  constructor
  · intro h
    obtain ⟨hsize,h⟩:=Option.ite_none_left_eq_some.mp h
    obtain ⟨⟨n,l⟩,hsplit,h⟩:=Option.bind_eq_some_iff.mp h
    obtain ⟨hnode,h⟩:=Option.ite_none_right_eq_some.mp h
    have hnode' : n=node := hnode
    subst hnode'
    cases h
    exact ⟨Nat.not_lt.mp hsize,rfl,l,hsplit⟩
  · rintro ⟨hsize,rfl,l,hsplit⟩
    rw [if_neg (Nat.not_lt.mpr hsize),hsplit]
    simp

theorem qualify_split (h : split q=some (node,l)) : qualify node l=some q := by
  obtain ⟨hsize,-,tail,htail,hq⟩:=split_eq_some.mp h
  refine qualify_eq_some.mpr ⟨?_,by rw [qualified_tail htail,hq],l,h⟩
  have hparts : q.utf8ByteSize="parrot://".utf8ByteSize+(node.utf8ByteSize+tail.utf8ByteSize) := by
    rw [hq,String.utf8ByteSize_append,String.utf8ByteSize_append]
  have htailSize : l.utf8ByteSize≤tail.utf8ByteSize := by
    rcases htail with ⟨-,rfl⟩ | ⟨-,-,rfl⟩
    · rw [String.utf8ByteSize_append]
      omega
    · omega
  omega

theorem qualify_local (h : qualify node path=some q) (hlocal : startsWith "parrot://" path=false) :
    split q=some (node,path) := by
  obtain ⟨-,hq,l,hsplit⟩:=qualify_eq_some.mp h
  obtain ⟨hsize,hnode,wire,-,hscheme⟩:=split_eq_some.mp hsplit
  have hforms : ∃ tail, Tail path tail := by
    unfold qualified at hq
    split at hq
    · rename_i hnative
      exact ⟨_,.inl ⟨hnative,rfl⟩⟩
    · split at hq
      · rename_i hcanonical
        simp only [Bool.and_eq_true,bne_iff_ne] at hcanonical
        exact ⟨_,.inr ⟨hcanonical.1,hcanonical.2,rfl⟩⟩
      · have hstart : startsWith "parrot://" path=true := startsWith_iff.mpr ⟨_,hq.symm.trans hscheme⟩
        rw [hstart] at hlocal
        contradiction
  obtain ⟨tail,htail⟩:=hforms
  exact split_eq_some.mpr ⟨hsize,hnode,tail,htail,hq.trans (qualified_tail htail node)⟩

theorem qualify_again (h : qualify node path=some q) : qualify node q=some q := by
  obtain ⟨-,-,l,hsplit⟩:=qualify_eq_some.mp h
  obtain ⟨hsize,-,tail,-,hq⟩:=split_eq_some.mp hsplit
  have hforms:=qualified_scheme hq
  refine qualify_eq_some.mpr ⟨hsize,?_,l,hsplit⟩
  unfold qualified
  rw [if_neg (by simp [hforms.1]),if_neg (by simp [hforms.2])]

/-- A qualified path gives back its node and its local path, which qualify to it again. No two
unqualified paths have one qualified form. -/
theorem qualification_lossless :
    (∀ node p q, qualify node p=some q → ∃ l, split q=some (node,l) ∧ startsWith "parrot://" l=false ∧
      qualify node l=some q ∧ qualify node q=some q ∧ (startsWith "parrot://" p=false → l=p)) ∧
    (∀ node node' p p' q, startsWith "parrot://" p=false → startsWith "parrot://" p'=false →
      qualify node p=some q → qualify node' p'=some q → node=node' ∧ p=p') ∧
    ∀ node q l, split q=some (node,l) → qualify node l=some q := by
  refine ⟨?_,?_,fun node q l => qualify_split⟩
  · intro node p q h
    obtain ⟨-,-,l,hsplit⟩:=qualify_eq_some.mp h
    obtain ⟨-,-,tail,htail,-⟩:=split_eq_some.mp hsplit
    refine ⟨l,hsplit,htail.unqualified,qualify_split hsplit,qualify_again h,fun hlocal => ?_⟩
    rw [qualify_local h hlocal] at hsplit
    exact (Prod.mk.inj (Option.some.inj hsplit)).2.symm
  · intro node node' p p' q hp hp' h h'
    have hsplit:=(qualify_local h hp).symm.trans (qualify_local h' hp')
    exact Prod.mk.inj (Option.some.inj hsplit)

end Parrot.ActorPath
