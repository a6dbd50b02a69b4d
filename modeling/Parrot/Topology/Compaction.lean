import Parrot.Topology.Routes

/-! # Compaction keeps the routes

Buckets are installed shorter prefixes first, so a bucket that is left out is covered by
what was installed before it, and everything installed after it answers only for paths
that do not start with a longer prefix. -/

namespace Parrot.Topology
open List (map_append mem_cons_self mem_cons_of_mem mem_append reverseRecOn foldl_append foldl_nil)
open SupernetAggregator

theorem mem_boundaries {s target : String} : s∈boundaries target ↔ s.toList<+:target.toList := by
  rw [boundaries,List.mem_map]
  constructor
  · intro h
    obtain ⟨l,hl,rfl⟩:=h
    rw [List.mem_reverse,List.mem_inits] at hl
    rwa [String.toList_ofList]
  · intro h
    exact ⟨s.toList,List.mem_reverse.mpr ((List.mem_inits _ _).mpr h),String.ofList_toList⟩

theorem size_append (s t : String) : (s++t).utf8ByteSize=s.utf8ByteSize+t.utf8ByteSize :=
  String.utf8ByteSize_append

theorem exists_append {s target : String} (h : s.toList<+:target.toList) : ∃ rest, target=s++rest := by
  obtain ⟨l,hl⟩:=h
  refine ⟨String.ofList l,String.toList_injective ?_⟩
  rw [String.toList_append,String.toList_ofList,hl]

theorem eq_of_size {s s' target : String} (h : s.toList<+:target.toList) (h' : s'.toList<+:target.toList)
    (hsize : s.utf8ByteSize=s'.utf8ByteSize) : s=s' := by
  rcases List.prefix_or_prefix_of_prefix h h' with hsub | hsub
  · obtain ⟨rest,hrest⟩:=exists_append hsub
    have hempty : rest = "" := by
      rw [hrest,size_append] at hsize
      exact String.utf8ByteSize_eq_zero_iff.mp (by omega)
    rw [hrest,hempty,String.append_empty]
  · obtain ⟨rest,hrest⟩:=exists_append hsub
    have hempty : rest = "" := by
      rw [hrest,size_append] at hsize
      exact String.utf8ByteSize_eq_zero_iff.mp (by omega)
    rw [hrest,hempty,String.append_empty]

theorem boundaries_append (s rest : String) : ∃ longer, boundaries (s++rest)=longer++boundaries s ∧
    ∀ x∈longer, s.utf8ByteSize<x.utf8ByteSize := by
  refine ⟨((rest.toList.inits.tail.map fun l => s.toList++l).reverse).map String.ofList,?_,?_⟩
  · rw [boundaries,String.toList_append,List.inits_append,List.reverse_append,map_append]
    rfl
  · intro x hx
    obtain ⟨l,hl,rfl⟩:=List.mem_map.mp hx
    obtain ⟨l',hl',rfl⟩:=List.mem_map.mp (List.mem_reverse.mp hl)
    have hne : l'≠[] := by
      cases hrest : rest.toList with
      | nil =>
        rw [hrest] at hl'
        contradiction
      | cons c cs =>
        rw [hrest] at hl'
        obtain ⟨t,-,rfl⟩:=List.mem_map.mp hl'
        exact List.cons_ne_nil c t
    have hpos : (String.ofList l').utf8ByteSize≠0 := by
      intro hzero
      have hempty:=congrArg String.toList (String.utf8ByteSize_eq_zero_iff.mp hzero)
      rw [String.toList_ofList] at hempty
      exact hne hempty
    rw [String.ofList_append,String.ofList_toList,size_append]
    omega

theorem inits_last (l : List Char) : ∃ shorter, l.inits=shorter++[l] := by
  induction l with
  | nil => exact ⟨[],rfl⟩
  | cons c l ih =>
    obtain ⟨shorter,hshorter⟩:=ih
    refine ⟨[]::shorter.map (c::·),?_⟩
    rw [List.inits,hshorter,map_append]
    rfl

theorem boundaries_head (s : String) : ∃ shorter, boundaries s=s::shorter := by
  obtain ⟨shorter,hshorter⟩:=inits_last s.toList
  refine ⟨shorter.reverse.map String.ofList,?_⟩
  rw [boundaries,hshorter,List.reverse_append,map_append,List.reverse_singleton,List.map_singleton,
    String.ofList_toList]
  rfl

theorem inits_pairwise (l : List Char) : l.inits.Pairwise (· <+: ·) := by
  induction l with
  | nil => exact List.pairwise_singleton _ _
  | cons c l ih =>
    refine List.pairwise_cons.mpr ⟨fun x _ => List.nil_prefix,List.pairwise_map.mpr (ih.imp ?_)⟩
    intro a b hab
    exact (List.prefix_cons_inj c).mpr hab

theorem boundaries_pairwise (s : String) : (boundaries s).Pairwise fun a b => b.utf8ByteSize≤a.utf8ByteSize := by
  refine List.pairwise_map.mpr (List.pairwise_reverse.mpr ((inits_pairwise s.toList).imp ?_))
  intro a b hab
  obtain ⟨rest,rfl⟩:=hab
  rw [String.ofList_append,size_append]
  exact Nat.le_add_right ..

variable {m : Buckets} {p path : String} {c : List RouteEntry} {e : RouteEntry}

def UpTo (n : ℕ) (m : Buckets) : Prop := ∀ s∈m, s.utf8ByteSize≤n

theorem UpTo.insert {n : ℕ} (h : UpTo n m) (hp : p.utf8ByteSize≤n) : UpTo n (m.insert p c) := by
  intro s hs
  rcases Finmap.mem_insert.mp hs with rfl | hs
  · exact hp
  · exact h s hs

theorem resolveEntries_of_upTo (h : UpTo p.utf8ByteSize m) (hserves : p.toList<+:path.toList) :
    resolveEntries m path=resolveEntries m p := by
  obtain ⟨rest,rfl⟩:=exists_append hserves
  obtain ⟨longer,heq,hlonger⟩:=boundaries_append p rest
  have hnone : longer.findSome? (fun s => (m.lookup s).bind select)=none := by
    rw [List.findSome?_eq_none_iff]
    intro s hs
    have hnot : s∉m := fun hmem => absurd (h s hmem) (not_le.mpr (hlonger s hs))
    rw [Finmap.lookup_eq_none.mpr hnot]
    rfl
  rw [resolveEntries,heq,List.findSome?_append,hnone,Option.none_or]
  rfl

theorem resolveEntries_insert_of_upTo (h : UpTo p.utf8ByteSize m) (hserves : p.toList<+:path.toList)
    (hselect : select c=some e) : resolveEntries (m.insert p c) path=some e := by
  rw [resolveEntries_of_upTo (h.insert le_rfl) hserves]
  obtain ⟨shorter,hhead⟩:=boundaries_head p
  rw [resolveEntries,hhead,List.findSome?_cons,Finmap.lookup_insert]
  simp only [Option.bind_some,hselect]

theorem resolveEntries_insert_of_not (h : ¬ p.toList<+:path.toList) :
    resolveEntries (m.insert p c) path=resolveEntries m path := by
  have hall : ∀ l : List String, (∀ s∈l, s≠p) → l.findSome? (fun s => ((m.insert p c).lookup s).bind select) =
      l.findSome? fun s => (m.lookup s).bind select := by
    intro l hl
    induction l with
    | nil => rfl
    | cons s l ih =>
      rw [List.findSome?_cons,List.findSome?_cons,Finmap.lookup_insert_of_ne _ (hl s (mem_cons_self ..)),
        ih fun x hx => hl x (mem_cons_of_mem _ hx)]
  apply hall
  intro s hs heq
  rw [heq] at hs
  exact h (mem_boundaries.mp hs)

theorem resolveEntries_eq_none : resolveEntries m path=none ↔
    ∀ s, s.toList<+:path.toList → (m.lookup s).bind select=none := by
  rw [resolveEntries,List.findSome?_eq_none_iff]
  exact ⟨fun h s hs => h s (mem_boundaries.mpr hs),fun h s hs => h s (mem_boundaries.mp hs)⟩

theorem resolveEntries_some (h : resolveEntries m path=some e) : ∃ s : String, s.toList<+:path.toList ∧
    (m.lookup s).bind select=some e ∧
    ∀ s' : String, s'.toList<+:path.toList → (m.lookup s').bind select≠none → s'.utf8ByteSize ≤ s.utf8ByteSize := by
  obtain ⟨l,s,l',heq,hs,hbefore⟩:=List.findSome?_eq_some_iff.mp h
  have hsorted:=boundaries_pairwise path
  rw [heq] at hsorted
  have hafter:=(List.pairwise_cons.mp (List.pairwise_append.mp hsorted).2.1).1
  refine ⟨s,mem_boundaries.mp (by rw [heq]; simp),hs,?_⟩
  intro s' hs' hfound
  have hmem:=mem_boundaries.mpr hs'
  rw [heq,mem_append,List.mem_cons] at hmem
  rcases hmem with hmem | rfl | hmem
  · exact absurd (hbefore s' hmem) hfound
  · exact le_rfl
  · exact hafter s' hmem

def group (entries : List RouteEntry) (p : String) : List RouteEntry := entries.filter fun e => e.targetPrefix=p

theorem buckets_lookup (entries : List RouteEntry) (p : String) :
    (buckets entries).lookup p=if group entries p=[] then none else some (group entries p) := by
  induction entries using reverseRecOn with
  | nil => exact Finmap.lookup_empty p
  | append_singleton entries e ih =>
    have hfill : buckets (entries++[e])=fill (buckets entries) e := foldl_append
    have hgroup : group (entries++[e]) p=group entries p++group [e] p := List.filter_append ..
    rw [hfill,fill,hgroup]
    by_cases hp : p=e.targetPrefix
    · subst hp
      have hone : group [e] e.targetPrefix=[e] := by simp [group]
      have hold : ((buckets entries).lookup e.targetPrefix).getD []=group entries e.targetPrefix := by
        rw [ih]
        split
        · rename_i hnil
          exact hnil.symm
        · rfl
      rw [Finmap.lookup_insert,hold,hone,if_neg (by simp)]
    · have hone : group [e] p=[] := by
        simp only [group,List.filter_cons,List.filter_nil]
        rw [if_neg (by simpa using fun h => hp h.symm)]
      rw [Finmap.lookup_insert_of_ne _ hp,ih,hone,List.append_nil]

theorem select_eq_none {c : List RouteEntry} : select c=none ↔ c=[] := List.argmin_eq_none

theorem buckets_select (entries : List RouteEntry) (p : String) :
    ((buckets entries).lookup p).bind select=select (group entries p) := by
  rw [buckets_lookup]
  split
  · rename_i hnil
    rw [hnil]
    rfl
  · rfl

variable {entries : List RouteEntry}

theorem buckets_nonempty (h : (buckets entries).lookup p=some c) : select c≠none := by
  rw [buckets_lookup] at h
  split at h
  · contradiction
  · rename_i hne
    cases h
    exact fun hnone => hne (select_eq_none.mp hnone)

theorem mem_group : e∈group entries p ↔ e∈entries ∧ e.targetPrefix=p := by
  rw [group,List.mem_filter,decide_eq_true_iff]

theorem resolve_buckets_none :
    resolveEntries (buckets entries) path=none ↔ ∀ e∈entries, ¬ e.targetPrefix.toList<+:path.toList := by
  rw [resolveEntries_eq_none]
  constructor
  · intro h e he hserves
    have hnone:=h e.targetPrefix hserves
    rw [buckets_select,select_eq_none] at hnone
    have hmem:=mem_group.mpr ⟨he,rfl⟩
    rw [hnone] at hmem
    contradiction
  · intro h s hs
    rw [buckets_select,select_eq_none]
    cases hgroup : group entries s with
    | nil => rfl
    | cons e l =>
      obtain ⟨he,heq⟩:=mem_group.mp (hgroup ▸ mem_cons_self .. : e∈group entries s)
      rw [← heq] at hs
      exact absurd hs (h e he)

def SameRoutes (m m' : Buckets) : Prop :=
  ∀ path, (resolveEntries m path).map RouteEntry.route=(resolveEntries m' path).map RouteEntry.route

def install (m : Buckets) (b : Bucket) : Buckets := m.insert b.1 b.2

theorem install_eq {m out : Buckets} {b : Bucket} (h : SameRoutes out m) (hout : UpTo b.1.utf8ByteSize out)
    (hm : UpTo b.1.utf8ByteSize m) (hselect : select b.2=some e) : SameRoutes (out.insert b.1 b.2) (install m b) := by
  intro path
  by_cases hserves : b.1.toList<+:path.toList
  · rw [install,resolveEntries_insert_of_upTo hout hserves hselect,
      resolveEntries_insert_of_upTo hm hserves hselect]
  · rw [install,resolveEntries_insert_of_not hserves,resolveEntries_insert_of_not hserves]
    exact h path

theorem admitBucket_same {m out : Buckets} {b : Bucket} (h : SameRoutes out m) (hout : UpTo b.1.utf8ByteSize out)
    (hm : UpTo b.1.utf8ByteSize m) (hselect : select b.2=some e) : SameRoutes (admitBucket out b) (install m b) := by
  unfold admitBucket
  rw [hselect]
  cases hcover : resolveEntries out b.1 with
  | none => exact install_eq h hout hm hselect
  | some covering =>
    dsimp only
    split
    · rename_i hroute
      -- What covers the prefix answers for every path that starts with it.
      intro path
      by_cases hserves : b.1.toList<+:path.toList
      · rw [install,resolveEntries_of_upTo hout hserves,hcover,resolveEntries_insert_of_upTo hm hserves hselect]
        exact congrArg some hroute
      · rw [install,resolveEntries_insert_of_not hserves]
        exact h path
    · exact install_eq h hout hm hselect

theorem admitBucket_upTo {out : Buckets} {b : Bucket} {n : ℕ} (h : UpTo n out) (hb : b.1.utf8ByteSize≤n) :
    UpTo n (admitBucket out b) := by
  unfold admitBucket
  split
  · split
    · exact h
    · exact h.insert hb
  · exact h.insert hb

theorem foldl_same {bs : List Bucket} (hsorted : bs.Pairwise fun a b => a.1.utf8ByteSize≤b.1.utf8ByteSize)
    (hbuckets : ∀ b∈bs, select b.2≠none) {m out : Buckets} (h : SameRoutes out m)
    (hout : ∀ b∈bs, UpTo b.1.utf8ByteSize out) (hm : ∀ b∈bs, UpTo b.1.utf8ByteSize m) :
    SameRoutes (bs.foldl admitBucket out) (bs.foldl install m) := by
  induction bs generalizing m out with
  | nil => exact h
  | cons b bs ih =>
    obtain ⟨hle,hsorted⟩:=List.pairwise_cons.mp hsorted
    have hfirst:=mem_cons_self (a := b) (l := bs)
    obtain ⟨e,hselect⟩:=Option.ne_none_iff_exists'.mp (hbuckets b hfirst)
    refine ih hsorted (fun x hx => hbuckets x (mem_cons_of_mem _ hx))
      (admitBucket_same h (hout b hfirst) (hm b hfirst) hselect) ?_ ?_
    · intro x hx
      exact admitBucket_upTo (hout x (mem_cons_of_mem _ hx)) (hle x hx)
    · intro x hx
      exact (hm x (mem_cons_of_mem _ hx)).insert (hle x hx)

theorem lookup_install {bs : List Bucket} (hkeys : bs.NodupKeys) (p : String) (c : List RouteEntry) :
    (bs.foldl install ∅).lookup p=some c ↔ ⟨p,c⟩∈bs := by
  induction bs using reverseRecOn with
  | nil =>
    rw [foldl_nil,Finmap.lookup_empty]
    simp
  | append_singleton bs b ih =>
    have hperm : (b::bs).NodupKeys := (List.perm_nodupKeys (List.perm_append_singleton b bs)).mp hkeys
    obtain ⟨hnew,hold⟩:=List.nodupKeys_cons.mp hperm
    rw [foldl_append,List.foldl_cons,foldl_nil,install,mem_append,List.mem_singleton]
    by_cases hp : p=b.1
    · subst hp
      rw [Finmap.lookup_insert]
      have hnot : ⟨b.1,c⟩∉bs := fun hmem => hnew (List.mem_keys.mpr ⟨c,hmem⟩)
      constructor
      · intro heq
        cases heq
        exact .inr rfl
      · intro hmem
        rcases hmem with hmem | hmem
        · exact absurd hmem hnot
        · exact congrArg some (congrArg Sigma.snd hmem).symm
    · rw [Finmap.lookup_insert_of_ne _ hp,ih hold]
      constructor
      · exact .inl
      · intro hmem
        rcases hmem with hmem | hmem
        · exact hmem
        · exact absurd (congrArg Sigma.fst hmem) hp

theorem compact_same {iterated : List Bucket} (hiter : (iterated : Multiset Bucket)=(buckets entries).entries) :
    SameRoutes (compact iterated entries).aggregated (buckets entries) := by
  unfold compact
  split
  · exact fun _ => rfl
  · have hperm : (ordered iterated).Perm iterated := List.mergeSort_perm ..
    have hkeys : (ordered iterated).NodupKeys := by
      rw [List.perm_nodupKeys hperm,← Multiset.coe_nodupKeys,hiter]
      exact (buckets entries).nodupKeys
    have hmem : ∀ b : Bucket, b∈ordered iterated ↔ (buckets entries).lookup b.1=some b.2 := by
      intro b
      rw [hperm.mem_iff,← Multiset.mem_coe,hiter,Finmap.lookup_eq_some_iff]
    have hall : (ordered iterated).foldl install ∅ = buckets entries := by
      apply Finmap.ext_lookup
      intro p
      ext c
      rw [lookup_install hkeys,hmem]
    have hsorted : (ordered iterated).Pairwise fun a b => a.1.utf8ByteSize≤b.1.utf8ByteSize := by
      refine (@List.pairwise_mergeSort _ (fun a b : Bucket => decide (a.1.utf8ByteSize≤b.1.utf8ByteSize)) ?_ ?_
        iterated).imp of_decide_eq_true
      · intro a b c hab hbc
        exact decide_eq_true ((of_decide_eq_true hab).trans (of_decide_eq_true hbc))
      · intro a b
        rcases Nat.le_total a.1.utf8ByteSize b.1.utf8ByteSize with hle | hle
        · simp [hle]
        · simp [hle]
    have hempty : ∀ n, UpTo n ∅ := fun n s hs => absurd hs Finmap.notMem_empty
    have hsame:=foldl_same hsorted (fun b hb => buckets_nonempty ((hmem b).mp hb)) (fun _ => rfl)
      (fun b _ => hempty b.1.utf8ByteSize) (fun b _ => hempty b.1.utf8ByteSize)
    rw [hall] at hsame
    exact hsame

theorem lookup_merge (h : (entries.map RouteEntry.targetPrefix).Nodup) (p : String)
    (e : RouteEntry) : (RouteTable.new.merge entries).1.entries.lookup p=some e ↔ e∈entries ∧ e.targetPrefix=p := by
  induction entries using reverseRecOn generalizing p e with
  | nil =>
    have hnone : (RouteTable.new.merge []).1.entries.lookup p=none := Finmap.lookup_empty p
    rw [hnone]
    simp
  | append_singleton entries x ih =>
    rw [map_append,List.nodup_append] at h
    obtain ⟨hold,-,hnew⟩:=h
    have hfresh : ∀ y∈entries, y.targetPrefix≠x.targetPrefix := fun y hy =>
      hnew _ (List.mem_map_of_mem hy) _ (List.mem_singleton_self _)
    have hnone : (RouteTable.new.merge entries).1.entries.lookup x.targetPrefix=none := by
      cases hlook : (RouteTable.new.merge entries).1.entries.lookup x.targetPrefix with
      | none => rfl
      | some y =>
        obtain ⟨hy,heq⟩:=(ih hold _ _).mp hlook
        exact absurd heq (hfresh y hy)
    have hmerge : (RouteTable.new.merge (entries++[x])).1.entries =
        (RouteTable.new.merge entries).1.entries.insert x.targetPrefix x := by
      unfold RouteTable.merge at hnone ⊢
      rw [foldl_append,List.foldl_cons,foldl_nil,RouteTable.mergeOne,hnone]
      rfl
    rw [hmerge,mem_append,List.mem_singleton]
    by_cases hp : p=x.targetPrefix
    · subst hp
      rw [Finmap.lookup_insert]
      constructor
      · intro heq
        cases heq
        exact ⟨.inr rfl,rfl⟩
      · intro hmem
        rcases hmem.1 with hmem' | rfl
        · exact absurd hmem.2 (hfresh e hmem')
        · rfl
    · rw [Finmap.lookup_insert_of_ne _ hp,ih hold]
      constructor
      · exact fun hmem => ⟨.inl hmem.1,hmem.2⟩
      · intro hmem
        rcases hmem.1 with hmem' | rfl
        · exact ⟨hmem',hmem.2⟩
        · exact absurd hmem.2.symm hp

theorem mem_values {t : Routes} {values : List RouteEntry} (h : t.Values values) :
    e∈values ↔ ∃ p, t.lookup p=some e := by
  rw [← Multiset.mem_coe,h,Multiset.mem_map]
  constructor
  · intro hmem
    obtain ⟨⟨p,x⟩,hx,rfl⟩:=hmem
    exact ⟨p,Finmap.lookup_eq_some_iff.mpr hx⟩
  · intro hmem
    obtain ⟨p,hp⟩:=hmem
    exact ⟨⟨p,e⟩,Finmap.lookup_eq_some_iff.mp hp,rfl⟩

theorem serves_iff : e.serves path=true ↔ e.targetPrefix.toList<+:path.toList := List.isPrefixOf_iff_prefix

theorem resolve_buckets_eq {entries values : List RouteEntry} (h : (entries.map RouteEntry.targetPrefix).Nodup)
    (hvalues : (RouteTable.new.merge entries).1.entries.Values values) (path : String) :
    resolveEntries (buckets entries) path=RouteTable.resolve values path := by
  have hmem : ∀ e, e∈values.filter (·.serves path) ↔ e∈entries ∧ e.targetPrefix.toList<+:path.toList := by
    intro e
    rw [List.mem_filter,mem_values hvalues,serves_iff]
    refine and_congr_left fun _ => ⟨?_,fun he => ⟨e.targetPrefix,(lookup_merge h _ _).mpr ⟨he,rfl⟩⟩⟩
    intro hex
    obtain ⟨p,hp⟩:=hex
    exact ((lookup_merge h p e).mp hp).1
  cases hres : resolveEntries (buckets entries) path with
  | none =>
    have hnone:=resolve_buckets_none.mp hres
    have hempty : values.filter (·.serves path)=[] := by
      rw [List.eq_nil_iff_forall_not_mem]
      intro e he
      obtain ⟨hmem',hserves⟩:=(hmem e).mp he
      exact hnone e hmem' hserves
    rw [RouteTable.resolve,hempty]
    rfl
  | some e =>
    obtain ⟨s,hs,hselect,hlongest⟩:=resolveEntries_some hres
    rw [buckets_select] at hselect
    obtain ⟨he,heq⟩:=mem_group.mp (List.argmin_mem hselect)
    subst heq
    cases hother : RouteTable.resolve values path with
    | none =>
      have hin:=(hmem e).mpr ⟨he,hs⟩
      rw [List.argmin_eq_none.mp hother] at hin
      contradiction
    | some e' =>
      obtain ⟨he',hs'⟩:=(hmem e').mp (List.argmin_mem hother)
      have hle : RouteTable.selection e'≤RouteTable.selection e :=
        List.le_of_mem_argmin ((hmem e).mpr ⟨he,hs⟩) hother
      have hsize : e.targetPrefix.utf8ByteSize≤e'.targetPrefix.utf8ByteSize :=
        OrderDual.toDual_le_toDual.mp (Prod.Lex.monotone_fst _ _ hle)
      have hsize':=hlongest e'.targetPrefix hs' (by
        rw [buckets_select]
        intro hnil
        have hgroup:=mem_group.mpr ⟨he',rfl⟩
        rw [select_eq_none.mp hnil] at hgroup
        contradiction)
      have hprefixes:=eq_of_size hs hs' (le_antisymm hsize hsize')
      exact congrArg some (List.inj_on_of_nodup_map h he he' hprefixes)

/-- Whatever compaction leaves out, every path keeps its next hop, cost and version. -/
theorem compaction_preserves_routes (entries : List RouteEntry) (iterated : List Bucket)
    (hiter : (iterated : Multiset Bucket)=(buckets entries).entries) (path : String) :
    ((compact iterated entries).resolve path).map RouteEntry.route =
    (resolveEntries (buckets entries) path).map RouteEntry.route ∧
    ((compact iterated entries).resolve path=none ↔ ∀ e∈entries, ¬ e.targetPrefix.toList<+:path.toList) ∧
    ((entries.map RouteEntry.targetPrefix).Nodup → ∀ values, (RouteTable.new.merge entries).1.entries.Values values →
    ((compact iterated entries).resolve path).map RouteEntry.route =
    (RouteTable.resolve values path).map RouteEntry.route) := by
  have hsame:=compact_same hiter path
  refine ⟨hsame,?_,?_⟩
  · rw [← resolve_buckets_none]
    constructor
    · intro hnone
      rw [resolve] at hnone
      rw [hnone] at hsame
      exact Option.map_eq_none_iff.mp hsame.symm
    · intro hnone
      rw [hnone] at hsame
      exact Option.map_eq_none_iff.mp hsame
  · intro hdistinct values hvalues
    rw [← resolve_buckets_eq hdistinct hvalues path]
    exact hsame

def nestedRoutes : List RouteEntry := [⟨"a","hub",1,1⟩,⟨"ab","hub",1,1⟩]

def nestedBuckets : List Bucket := [⟨"ab",[⟨"ab","hub",1,1⟩]⟩,⟨"a",[⟨"a","hub",1,1⟩]⟩]

theorem nestedBuckets_entries : (nestedBuckets : Multiset Bucket)=(buckets nestedRoutes).entries := by
  decide +kernel

theorem nestedRoutes_values : (RouteTable.new.merge nestedRoutes).1.entries.Values nestedRoutes := by
  unfold Routes.Values
  decide +kernel

theorem compaction_preserves_routes_nested :
    ((compact nestedBuckets nestedRoutes).resolve "abc").map RouteEntry.route =
      (resolveEntries (buckets nestedRoutes) "abc").map RouteEntry.route ∧
    ((compact nestedBuckets nestedRoutes).resolve "b" = none ↔
      ∀ e∈nestedRoutes, ¬ e.targetPrefix.toList <+: "b".toList) ∧
    ((compact nestedBuckets nestedRoutes).resolve "abc").map RouteEntry.route =
      (RouteTable.resolve nestedRoutes "abc").map RouteEntry.route ∧
    (RouteTable.resolve nestedRoutes "abc").map RouteEntry.route=some ("hub",1,1) :=
  ⟨(compaction_preserves_routes nestedRoutes nestedBuckets nestedBuckets_entries "abc").1,
    (compaction_preserves_routes nestedRoutes nestedBuckets nestedBuckets_entries "b").2.1,
    (compaction_preserves_routes nestedRoutes nestedBuckets nestedBuckets_entries "abc").2.2 (by decide) nestedRoutes
      nestedRoutes_values,by decide +kernel⟩

end Parrot.Topology
