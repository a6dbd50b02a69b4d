import Parrot.App.Validate

/-! # Whose path is it (`manifest.rs:358-395`, `supervisor.rs:607-625`)

The instances of a pool or of shards stand under the component's name with a dash and an index.
-/

namespace Parrot.App
open Machine Text

def ownedRoot (host : Host) (comp path : String) : Bool :=
  match stripPrefix "/user/" path with
  | none => false
  | some root =>
    if validPathSegment host comp=false then false
    else if root=comp then true
    else ((stripPrefix comp root).bind (stripPrefix "-")).any fun s =>
      !s.isEmpty&&(s == "0" || !startsWith "0" s)&&s.toList.all Char.isDigit&&(parse (2^32-1) s).isSome

def InstancePolicy.indexed : InstancePolicy → Bool
  | .singleton | .ephemeral => false
  | .sharded _ | .pool _ => true

def ComponentSpec.HasRoot (c : ComponentSpec) (root : String) : Prop :=
  if c.instances.indexed then ∃ i<c.instances.instanceCount, root=c.name++"-"++toString i else root=c.name

/-- One member of `c` has the path of `d`. -/
def Clash (c d : ComponentSpec) : Prop :=
  c.instances.indexed=true ∧ d.instances.indexed=false ∧
    ∃ i<c.instances.instanceCount, d.name=c.name++"-"++toString i

variable {host : Host} {limits : ApplicationLimits} {m : AppManifest} {c d : ComponentSpec} {path root : String}

theorem mem_instancePaths : path∈c.instancePaths ↔ ∃ root, path="/user/"++root ∧ c.HasRoot root := by
  unfold ComponentSpec.instancePaths ComponentSpec.HasRoot
  cases c.instances with
  | singleton | ephemeral => simp [InstancePolicy.indexed]
  | sharded n | pool n =>
    simp only [List.mem_map,List.mem_range,InstancePolicy.indexed,if_true,InstancePolicy.instanceCount]
    constructor
    · intro h
      obtain ⟨i,hi,rfl⟩:=h
      exact ⟨c.name++"-"++toString i,by simp [String.append_assoc],i,hi,rfl⟩
    · intro h
      obtain ⟨_,rfl,i,hi,rfl⟩:=h
      exact ⟨i,hi,by simp [String.append_assoc]⟩

theorem memberIndex_eq_some {name : String} {i : ℕ} :
    memberIndex name root=some i ↔ i≤u64Max ∧ root=name++"-"++toString i := by
  unfold memberIndex
  simp only [bind,Option.bind_eq_some_iff,stripPrefix_eq_some,canonical_eq_some]
  constructor
  · intro h
    obtain ⟨_,rfl,_,rfl,hi,rfl⟩:=h
    exact ⟨hi,by simp [String.append_assoc]⟩
  · intro h
    obtain ⟨hi,rfl⟩:=h
    exact ⟨"-"++toString i,by simp [String.append_assoc],toString i,rfl,hi,rfl⟩

theorem ownsWirePath_iff (hc : c.instances.instanceCount≤u64Max+1) :
    c.ownsWirePath path ↔ ∃ root, wireRoot path=some root ∧ c.HasRoot root := by
  unfold ComponentSpec.ownsWirePath ComponentSpec.HasRoot
  cases wireRoot path with
  | none => simp
  | some root =>
    cases hi : c.instances with
    | singleton | ephemeral => simp [InstancePolicy.indexed]
    | sharded n | pool n =>
      rw [hi] at hc
      simp only [InstancePolicy.instanceCount] at hc
      simp only [Option.any_eq_true,memberIndex_eq_some,decide_eq_true_eq,Option.some.injEq,exists_eq_left',
        InstancePolicy.indexed,if_true,InstancePolicy.instanceCount]
      constructor
      · intro h
        obtain ⟨i,⟨-,hroot⟩,hlt⟩:=h
        exact ⟨i,hlt,hroot⟩
      · intro h
        obtain ⟨i,hlt,hroot⟩:=h
        exact ⟨i,⟨by omega,hroot⟩,hlt⟩

theorem segment_no_slash (h : validPathSegment host root=true) : '/'∉root.toList := by
  intro hmem
  unfold validPathSegment at h
  simp only [Bool.and_eq_true,List.all_eq_true] at h
  have hslash:=h.2 '/' hmem
  rw [host.isAlphanumeric_ascii '/' (by decide)] at hslash
  revert hslash
  decide

theorem wireRoot_segment (h : validPathSegment host root=true) : wireRoot ("/user/"++root)=some root := by
  unfold wireRoot
  rw [stripPrefix_eq_some.mpr rfl,Option.map_some,split_of_not_mem (segment_no_slash h),List.headD_cons]

theorem hasRoot_name (hcd : ¬Clash c d) (hdc : ¬Clash d c) (hc : c.HasRoot root) (hd : d.HasRoot root) :
    c.name=d.name := by
  unfold ComponentSpec.HasRoot at hc hd
  by_cases hic : c.instances.indexed
  · rw [if_pos hic] at hc
    obtain ⟨i,hi,hroot⟩:=hc
    by_cases hid : d.instances.indexed
    · rw [if_pos hid] at hd
      obtain ⟨j,-,hroot'⟩:=hd
      exact (dash_repr_inj (hroot.symm.trans hroot')).1
    · rw [if_neg hid] at hd
      exact absurd ⟨hic,by simpa using hid,i,hi,hd ▸ hroot⟩ hcd
  · rw [if_neg hic] at hc
    by_cases hid : d.instances.indexed
    · rw [if_pos hid] at hd
      obtain ⟨j,hj,hroot'⟩:=hd
      exact absurd ⟨hid,by simpa using hic,j,hj,hc ▸ hroot'⟩ hdc
    · rw [if_neg hid] at hd
      exact hc.symm.trans hd

theorem eq_of_name (h : m.names.Nodup) (hc : c∈m.components) (hd : d∈m.components) (hname : c.name=d.name) : c=d :=
  List.inj_on_of_nodup_map h hc hd hname

theorem instancePaths_nodup (c : ComponentSpec) : c.instancePaths.Nodup := by
  unfold ComponentSpec.instancePaths
  cases c.instances with
  | singleton | ephemeral => exact List.nodup_singleton _
  | sharded n | pool n =>
    refine List.Nodup.map ?_ List.nodup_range
    intro i j hij
    have hdash : ("/user/"++c.name)++"-"++toString i=("/user/"++c.name)++"-"++toString j := hij
    exact (dash_repr_inj hdash).2

theorem instancePaths_disjoint (hcd : ¬Clash c d) (hdc : ¬Clash d c) (hname : c.name≠d.name) :
    c.instancePaths.Disjoint d.instancePaths := by
  intro p hp hq
  obtain ⟨r,rfl,hc⟩:=mem_instancePaths.mp hp
  obtain ⟨r',hr,hd⟩:=mem_instancePaths.mp hq
  rw [append_left_inj hr] at hc
  exact hname (hasRoot_name hcd hdc hc hd)

theorem mapM_ok {α β ε : Type} {f : α → Except ε β} {g : α → β} (hfg : ∀ a b, f a=.ok b → b=g a) {l : List α} {l' : List β}
    (h : l.mapM f=.ok l') : l'=l.map g := by
  induction l generalizing l' with
  | nil => exact (Except.ok.inj h).symm
  | cons a l ih =>
    rw [List.mapM_cons] at h
    cases hf : f a with
    | error e => simp [hf,bind,Except.bind] at h
    | ok b =>
      cases hrest : l.mapM f with
      | error e => simp [hf,hrest,bind,Except.bind] at h
      | ok bs =>
        simp only [hf,hrest,bind,Except.bind,pure,Except.pure,Except.ok.injEq] at h
        rw [← h,List.map_cons,hfg a b hf,ih hrest]

theorem instancePathsWithLimits_ok {paths : List String} (h : c.instancePathsWithLimits host limits=.ok paths) :
    paths=c.instancePaths := by
  unfold ComponentSpec.instancePathsWithLimits at h
  cases hcheck : limits.checkComponent host c with
  | error e => simp [hcheck,bind,Except.bind] at h
  | ok _ =>
    simp only [hcheck,bind,Except.bind,pure,Except.pure,Except.ok.injEq] at h
    exact h.symm

theorem allPaths_nodup (hnames : m.names.Nodup) (hclash : ∀ c∈m.components, ∀ d∈m.components, ¬Clash c d) :
    (m.components.map ComponentSpec.instancePaths).flatten.Nodup := by
  rw [List.nodup_flatten]
  refine ⟨?_,?_⟩
  · intro l hl
    obtain ⟨c,-,rfl⟩:=List.mem_map.mp hl
    exact instancePaths_nodup c
  · rw [List.pairwise_map]
    have hpair : m.components.Pairwise fun c d => c.name≠d.name := List.pairwise_map.mp hnames
    refine List.Pairwise.imp_of_mem ?_ hpair
    intro c d hc hd hname
    exact instancePaths_disjoint (hclash c hc d hd) (hclash d hd c hc) hname

theorem clash_owned (hd : WellNamed host d) (hc : WellNamed host c) (h : Clash c d) :
    c.ownsWirePath ("/user/"++d.name) ∧ d.ownsWirePath ("/user/"++d.name) := by
  obtain ⟨hic,hid,i,hi,hname⟩:=h
  have hsmall : 2^32-1≤u64Max+1 := by decide
  have hroot : wireRoot ("/user/"++d.name)=some d.name := wireRoot_segment hd.segment
  refine ⟨(ownsWirePath_iff (hc.bounded.trans hsmall)).mpr ⟨d.name,hroot,?_⟩,
    (ownsWirePath_iff (hd.bounded.trans hsmall)).mpr ⟨d.name,hroot,?_⟩⟩
  · unfold ComponentSpec.HasRoot
    rw [if_pos hic]
    exact ⟨i,hi,hname⟩
  · unfold ComponentSpec.HasRoot
    rw [if_neg (by simp [hid])]

/-- The components of an accepted manifest have their paths to themselves exactly when none
is named like a member of another. -/
theorem paths_unshared (host : Host) (limits : ApplicationLimits) (m : AppManifest)
    (h : validateWithLimits host limits m=.ok ()) :
    ((∀ paths, m.components.mapM (fun c => c.instancePathsWithLimits host limits)=.ok paths → paths.flatten.Nodup) ∧
    (∀ path, ∀ c∈m.components, ∀ d∈m.components, c.ownsWirePath path → d.ownsWirePath path → c=d) ∧ ∀ path,
    ∀ c∈m.components, ∀ d∈m.components, ownedRoot host c.name path ∧ path∈c.instancePaths →
    ownedRoot host d.name path ∧ path∈d.instancePaths → c=d) ↔ ∀ c∈m.components, ∀ d∈m.components, ¬Clash c d := by
  have hok:=validate_accepted h
  have hcount (c : ComponentSpec) (hc : c∈m.components) : c.instances.instanceCount≤u64Max+1 :=
    (hok.named c hc).bounded.trans (by decide)
  constructor
  · intro hall c hc d hd hclash
    obtain ⟨hown,hown'⟩:=clash_owned (hok.named d hd) (hok.named c hc) hclash
    have heq:=hall.2.1 _ c hc d hd hown hown'
    rw [heq] at hclash
    exact nomatch hclash.1.symm.trans hclash.2.1
  · intro hclash
    refine ⟨?_,?_,?_⟩
    · intro paths hpaths
      rw [mapM_ok (fun c ps hps => instancePathsWithLimits_ok hps) hpaths]
      exact allPaths_nodup hok.distinct hclash
    · intro path c hc d hd hown hown'
      obtain ⟨r,hr,hcr⟩:=(ownsWirePath_iff (hcount c hc)).mp hown
      obtain ⟨r',hr',hdr⟩:=(ownsWirePath_iff (hcount d hd)).mp hown'
      obtain rfl:=Option.some.inj (hr.symm.trans hr')
      exact eq_of_name hok.distinct hc hd (hasRoot_name (hclash c hc d hd) (hclash d hd c hc) hcr hdr)
    · intro path c hc d hd hown hown'
      by_contra hne
      have hname : c.name≠d.name := fun heq => hne (eq_of_name hok.distinct hc hd heq)
      exact instancePaths_disjoint (hclash c hc d hd) (hclash d hd c hc) hname hown.2 hown'.2

/-- A host for ASCII names, on a 64-bit target, that writes the samples below in one piece. -/
def asciiHost : Host where
  isAlphanumeric := Char.isAlphanum
  isAlphanumeric_ascii _ _ := rfl
  stringSize := 24
  errorSize := 72
  manifestJson _ := ⟨[403],none⟩
  componentJson _ := ⟨[173],none⟩
  cloudProxy _ := .error "cloud proxy config required"
  quote s := "\""++s++"\""

def sampleComponent (name : String) (instances : InstancePolicy) (deps : List String) : ComponentSpec :=
  {name := name,engine := .parrot,artifact := .props ("app."++name),instances := instances,deps := deps}

def sampleManifest (components : List ComponentSpec) : AppManifest :=
  {name := "demo",version := "1.0.0",components := components}

def plainManifest : AppManifest := sampleManifest [sampleComponent "a" (.pool 2) [],sampleComponent "b" .singleton ["a"]]

theorem validate_ok_of_toOption {m : AppManifest} (h : (validateWithLimits host limits m).toOption=some ()) :
    validateWithLimits host limits m=.ok () := by
  cases hv : validateWithLimits host limits m with
  | error e => simp [hv,Except.toOption] at h
  | ok u => rfl

theorem plainManifest_valid : validateWithLimits asciiHost {} plainManifest=.ok () :=
  validate_ok_of_toOption (by decide +kernel)

instance clashDecidable (c d : ComponentSpec) : Decidable (Clash c d) :=
  inferInstanceAs (Decidable (_ ∧ _ ∧ ∃ i<c.instances.instanceCount, d.name=c.name++"-"++toString i))

theorem paths_unshared_pool : validateWithLimits asciiHost {} plainManifest=.ok () ∧ ∀ path,
    ∀ c∈plainManifest.components, ∀ d∈plainManifest.components, c.ownsWirePath path → d.ownsWirePath path → c=d :=
  ⟨plainManifest_valid,((paths_unshared asciiHost {} plainManifest plainManifest_valid).mpr (by decide +kernel)).2.1⟩

/-- The only member of pool `a` has the path of component `a-0`. -/
def clashingManifest : AppManifest := sampleManifest [sampleComponent "a" (.pool 1) [],sampleComponent "a-0" .singleton []]

theorem clashing_shares_path : validateWithLimits asciiHost {} clashingManifest=.ok () ∧
    ¬((∀ paths, clashingManifest.components.mapM (fun c => ComponentSpec.instancePathsWithLimits asciiHost {} c)=.ok paths →
        paths.flatten.Nodup) ∧
      (∀ path, ∀ c∈clashingManifest.components, ∀ d∈clashingManifest.components,
        c.ownsWirePath path → d.ownsWirePath path → c=d) ∧
      ∀ path, ∀ c∈clashingManifest.components, ∀ d∈clashingManifest.components,
        ownedRoot asciiHost c.name path ∧ path∈c.instancePaths →
        ownedRoot asciiHost d.name path ∧ path∈d.instancePaths → c=d) := by
  refine ⟨validate_ok_of_toOption (by decide +kernel),fun h => ?_⟩
  have hpaths : (clashingManifest.components.mapM fun c => ComponentSpec.instancePathsWithLimits asciiHost {} c).toOption =
      some [["/user/a-0"],["/user/a-0"]] := by decide +kernel
  cases hm : clashingManifest.components.mapM fun c => ComponentSpec.instancePathsWithLimits asciiHost {} c with
  | error e => simp [hm,Except.toOption] at hpaths
  | ok paths =>
    simp only [hm,Except.toOption,Option.some.injEq] at hpaths
    have hnodup:=h.1 paths hm
    rw [hpaths] at hnodup
    revert hnodup
    decide

end Parrot.App
