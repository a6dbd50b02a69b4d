import Parrot.App.Reconcile

/-! # Reconciliation converges

Rounds of reconciling and executing what it asks for: in each round every unhealthy component
with healthy dependencies is deployed, and a healthy one is left alone. -/

namespace Parrot.App
open Bool (false_eq_true and_eq_true not_eq_true)
open Machine Text

/-- A stopped component has an empty report from the node it was on, a deployed one runs at its
paths. -/
def ReconcileAction.execute (m : AppManifest) (o : ObservedState) : ReconcileAction → ObservedState
  | .deploy comp node =>
    match m.component comp with
    | none => o
    | some spec => {o with
        components := o.components.insert comp (spec.instancePaths.map fun path => ⟨path,"running",m.version⟩)
        componentNodes := o.componentNodes.insert comp node}
  | .stop comp => {o with components:=o.components.insert comp []}
  | .drain _ | .wait _ _ => o

def executeAll (m : AppManifest) (o : ObservedState) (actions : List ReconcileAction) : ObservedState :=
  actions.foldl (ReconcileAction.execute m) o

def AppSupervisor.rounds (host : Host) (s : AppSupervisor) (latest : Except String (Option DesiredStateRecord)) :
    ℕ → ObservedState → ObservedState
  | 0, o => o
  | n+1, o => executeAll s.state.manifest (s.rounds host latest n o) (s.reconcileOnce host latest (s.rounds host latest n o)).actions

structure SameNodes (o o' : ObservedState) : Prop where
  liveNodes : o'.liveNodes=o.liveNodes
  linksKnown : o'.linksKnown=o.linksKnown
  nodeMetadata : o'.nodeMetadata=o.nodeMetadata

structure Agree (comp : String) (o o' : ObservedState) : Prop where
  components : o'.components.get comp=o.components.get comp
  componentNodes : o'.componentNodes.get comp=o.componentNodes.get comp

variable {host : Host} {m : AppManifest} {state : DesiredStateRecord} {o o' : ObservedState} {spec c : ComponentSpec}
  {comp node version : String} {a : ReconcileAction} {actions : List ReconcileAction}

theorem SameNodes.refl (o : ObservedState) : SameNodes o o := ⟨rfl,rfl,rfl⟩

theorem execute_nodes (m : AppManifest) (o : ObservedState) (a : ReconcileAction) : SameNodes o (a.execute m o) := by
  cases a with
  | deploy comp node =>
    simp only [ReconcileAction.execute]
    split <;> exact ⟨rfl,rfl,rfl⟩
  | stop | drain | wait => exact ⟨rfl,rfl,rfl⟩

theorem executeAll_nodes (m : AppManifest) (o : ObservedState) (actions : List ReconcileAction) :
    SameNodes o (executeAll m o actions) := by
  unfold executeAll
  induction actions generalizing o with
  | nil => exact .refl o
  | cons a actions ih =>
    have hstep:=execute_nodes m o a
    have hrest:=ih (a.execute m o)
    exact ⟨hrest.liveNodes.trans hstep.liveNodes,hrest.linksKnown.trans hstep.linksKnown,
      hrest.nodeMetadata.trans hstep.nodeMetadata⟩

theorem execute_other (m : AppManifest) (o : ObservedState) (h : a.comp≠comp) : Agree comp o (a.execute m o) := by
  cases a with
  | deploy x node =>
    simp only [ReconcileAction.execute]
    split
    · exact ⟨rfl,rfl⟩
    · exact ⟨OrderedMap.get_insert_of_ne (Ne.symm h),OrderedMap.get_insert_of_ne (Ne.symm h)⟩
  | stop x => exact ⟨OrderedMap.get_insert_of_ne (Ne.symm h),rfl⟩
  | drain | wait => exact ⟨rfl,rfl⟩

theorem execute_own (m : AppManifest) (h : Agree comp o o') (ha : a.comp=comp) :
    Agree comp (a.execute m o) (a.execute m o') := by
  subst ha
  cases a with
  | deploy x node =>
    simp only [ReconcileAction.execute,ReconcileAction.comp] at h ⊢
    split
    · exact h
    · exact ⟨by simp,by simp⟩
  | stop x => exact ⟨by simp [ReconcileAction.execute,ReconcileAction.comp],h.componentNodes⟩
  | drain | wait => exact h

theorem executeAll_own (m : AppManifest) (h : Agree comp o o') (actions : List ReconcileAction) :
    Agree comp (executeAll m o (actions.filter fun a => a.comp=comp)) (executeAll m o' actions) := by
  unfold executeAll
  induction actions generalizing o o' with
  | nil => exact h
  | cons a actions ih =>
    by_cases ha : a.comp=comp
    · simp only [List.filter_cons,ha,decide_true,if_true,List.foldl_cons]
      exact ih (execute_own m h ha)
    · simp only [List.filter_cons,ha,decide_false,false_eq_true,if_false,List.foldl_cons]
      have hother:=execute_other m o' ha
      exact ih ⟨hother.components.trans h.components,hother.componentNodes.trans h.componentNodes⟩

theorem filter_componentActions (h : comp≠spec.name) :
    (componentActions host state o spec).filter (fun a => a.comp=comp)=[] := by
  refine List.filter_eq_nil_iff.mpr fun a ha => ?_
  rw [componentActions_comp ha]
  simpa using Ne.symm h

theorem filter_removalActions {x : String} {reports : List ComponentStateReport}
    (h : comp≠x ∨ (state.manifest.component comp).isSome) :
    (removalActions host state o x reports).filter (fun a => a.comp=comp)=[] := by
  refine List.filter_eq_nil_iff.mpr fun a ha => ?_
  obtain ⟨hname,hgone⟩:=removalActions_comp ha
  rw [hname]
  rcases h with h | h
  · simpa using Ne.symm h
  · simp only [decide_eq_true_eq]
    rintro rfl
    simp [hgone] at h

theorem component_isSome (hc : c∈m.components) : (m.component c.name).isSome :=
  List.find?_isSome.mpr ⟨c,hc,by simp⟩

theorem filter_allActions (hnames : state.manifest.names.Nodup) (hc : c∈state.manifest.components) :
    (allActions host state o).filter (fun a => a.comp=c.name)=componentActions host state o c := by
  have hself : (componentActions host state o c).filter (fun a => a.comp=c.name)=componentActions host state o c :=
    List.filter_eq_self.mpr fun a ha => by simp [componentActions_comp ha]
  have hremoved : (o.components.entries.flatMap fun e => (removalActions host state o e.1 e.2).filter fun a => a.comp=c.name)=[] :=
    List.flatMap_eq_nil_iff.mpr fun e _ => filter_removalActions (.inr (component_isSome hc))
  unfold allActions
  rw [List.filter_append,List.filter_flatMap,List.filter_flatMap,hremoved,List.append_nil]
  refine (flatMap_single (f := fun d => (componentActions host state o d).filter fun a => a.comp=c.name) ComponentSpec.name hnames hc ?_).trans hself
  exact fun d _ hne => filter_componentActions (Ne.symm hne)

theorem filter_allActions_removed (hgone : state.manifest.component comp=none) {reports : List ComponentStateReport}
    (hget : o.components.get comp=some reports) :
    (allActions host state o).filter (fun a => a.comp=comp)=removalActions host state o comp reports := by
  have hself : (removalActions host state o comp reports).filter (fun a => a.comp=comp) =
      removalActions host state o comp reports := List.filter_eq_self.mpr fun a ha => by simp [(removalActions_comp ha).1]
  have hdeclared : (state.manifest.components.flatMap fun d =>
      (componentActions host state o d).filter fun a => a.comp=comp)=[] := by
    refine List.flatMap_eq_nil_iff.mpr fun d hd => filter_componentActions ?_
    rintro rfl
    have:=component_isSome hd
    simp [hgone] at this
  unfold allActions
  rw [List.filter_append,List.filter_flatMap,List.filter_flatMap,hdeclared,List.nil_append]
  refine (flatMap_single (f := fun e => (removalActions host state o e.1 e.2).filter fun a => a.comp=comp) Prod.fst
    (OrderedMap.keys_nodup o.components) (OrderedMap.get_eq_some.mp hget) ?_).trans hself
  exact fun e _ hne => filter_removalActions (.inl (Ne.symm hne))

theorem eligibleNode_same (h : SameNodes o o') : eligibleNode spec node o'=eligibleNode spec node o := by
  simp only [eligibleNode,h.liveNodes,h.nodeMetadata]

theorem nodeFor_same (h : SameNodes o o') : nodeFor spec o'=nodeFor spec o := by
  have heligible : (fun node => eligibleNode spec node o')=fun node => eligibleNode spec node o :=
    funext fun node => eligibleNode_same h
  simp only [nodeFor,h.liveNodes,h.linksKnown,heligible]

theorem healthyObservation_same (h : SameNodes o o') (hagree : Agree spec.name o o') :
    healthyObservation host spec version o'=healthyObservation host spec version o := by
  have heligible : (fun node => eligibleNode spec node o')=fun node => eligibleNode spec node o :=
    funext fun node => eligibleNode_same h
  simp only [healthyObservation,ObservedState.reports,h.linksKnown,hagree.components,hagree.componentNodes,heligible]

/-- Reports that are the components' own, from live eligible nodes, of instances that are
neither starting nor stopping. -/
structure Reported (host : Host) (m : AppManifest) (o : ObservedState) : Prop where
  placed : ∀ c∈m.components, (o.liveNodes.any fun node => eligibleNode c node o)=true ∧
    ¬(c.placement.antiAffinity=true ∧ c.instances.instanceCount>1)
  owned : ∀ e∈o.components.entries, (∀ r∈e.2, ownedRoot host e.1 r.path=true ∧ settledState r.state=true) ∧
    (e.2.map ComponentStateReport.path).Nodup
  sources : o.linksKnown=true → ∀ c∈m.components, o.components.contains c.name=true ∧
    ((o.componentNodes.get c.name).any fun node => eligibleNode c node o)=true
  removed : o.linksKnown=true → ∀ e∈o.components.entries, m.component e.1=none →
    ((o.componentNodes.get e.1).any fun node => o.liveNodes.contains node)=true

/-- An empty report comes from the node the component would be deployed to. -/
structure Watched (host : Host) (m : AppManifest) (o : ObservedState) : Prop extends Reported host m o where
  absent : o.linksKnown=true → ∀ c∈m.components, o.reports c.name=[] → o.componentNodes.get c.name=nodeFor c o

theorem Reported.rows (h : Reported host m o) (comp : String) : (∀ r∈o.reports comp, ownedRoot host comp r.path=true ∧
    settledState r.state=true) ∧ ((o.reports comp).map ComponentStateReport.path).Nodup := by
  unfold ObservedState.reports
  cases hget : o.components.get comp with
  | none => simp
  | some reports => exact h.owned (comp,reports) (OrderedMap.get_eq_some.mp hget)

theorem Reported.clear (h : Reported host m o) (comp : String) : ambiguous host comp (o.reports comp) []=false := by
  obtain ⟨hrows,hnodup⟩:=h.rows comp
  exact ambiguous_iff.mpr ⟨fun r hr => ⟨(hrows r hr).1,by simp⟩,hnodup⟩

theorem Reported.target (h : Reported host m o) (hc : c∈m.components) :
    ∃ node, nodeFor c o=some node ∧ eligibleNode c node o=true := by
  obtain ⟨hany,hspread⟩:=h.placed c hc
  obtain ⟨live,-,hlive⟩:=List.any_eq_true.mp hany
  exact nodeFor_eligible hspread hlive

def AllReady (host : Host) (state : DesiredStateRecord) (o : ObservedState) (c : ComponentSpec) : Prop :=
  ∀ name∈c.deps, dependencyReady host state o name=true

instance allReadyDecidable (host : Host) (state : DesiredStateRecord) (o : ObservedState) (c : ComponentSpec) :
    Decidable (AllReady host state o c) := inferInstanceAs (Decidable (∀ name∈c.deps, dependencyReady host state o name=true))

section
variable (hpending : state.pending.entries=[]) (hwatched : Watched host state.manifest o) (hc : c∈state.manifest.components)
include hpending

theorem not_pending (name : String) : state.pending.contains name=false := by
  simp [OrderedMap.contains,OrderedMap.get,hpending]

include hwatched hc

theorem obstacle_ready (hready : AllReady host state o c) {node : String} (hnode : nodeFor c o=some node) :
    obstacle host state o c=.ok node := by
  have hdeps : (c.deps.any fun name => !dependencyReady host state o name)=false := by simpa [AllReady] using hready
  have habsent : (o.linksKnown&&(o.reports c.name).isEmpty &&
      (!o.components.contains c.name||o.componentNodes.get c.name != some node))=false := by
    by_cases hlinks : o.linksKnown=true
    · by_cases hempty : o.reports c.name=[]
      · have hnodes:=hwatched.absent hlinks c hc hempty
        simp [(hwatched.sources hlinks c hc).1,hnodes,hnode]
      · simp [hempty]
    · simp [hlinks]
  have hsource : (o.linksKnown&&!(o.reports c.name).isEmpty &&
      !((o.componentNodes.get c.name).any fun node => eligibleNode c node o))=false := by
    by_cases hlinks : o.linksKnown=true
    · simp [(hwatched.sources hlinks c hc).2]
    · simp [hlinks]
  simp only [obstacle,not_pending hpending,false_eq_true,if_false,hdeps,hwatched.clear c.name,hnode,habsent,hsource]

theorem componentActions_cases :
    (¬AllReady host state o c ∧ componentActions host state o c=[.wait c.name "dependencies not ready"]) ∨
    (AllReady host state o c ∧ healthyObservation host c state.manifest.version o=true ∧ componentActions host state o c=[]) ∨
    (AllReady host state o c ∧ healthyObservation host c state.manifest.version o=false ∧ ∃ node, eligibleNode c node o=true ∧
      componentActions host state o c =
        (if (o.reports c.name).isEmpty then [] else [.drain c.name,.stop c.name])++[.deploy c.name node]) := by
  by_cases hready : AllReady host state o c
  · obtain ⟨node,hnode,hlive⟩:=hwatched.target hc
    have hobstacle:=obstacle_ready hpending hwatched hc hready hnode
    cases hhealthy : healthyObservation host c state.manifest.version o with
    | true => exact .inr (.inl ⟨hready,rfl,by simp [componentActions,hobstacle,hhealthy]⟩)
    | false =>
      have hsettled : ((o.reports c.name).any fun r => !settledState r.state)=false := by
        simpa using fun r hr => ((hwatched.rows c.name).1 r hr).2
      refine .inr (.inr ⟨hready,rfl,node,hlive,?_⟩)
      simp only [componentActions,hobstacle,hhealthy,false_eq_true,if_false,hsettled]
  · have hdeps : (c.deps.any fun name => !dependencyReady host state o name)=true := by
      simpa [AllReady] using hready
    refine .inl ⟨hready,?_⟩
    simp [componentActions,obstacle,not_pending hpending,hdeps]

end

def deployed (m : AppManifest) (c : ComponentSpec) : List ComponentStateReport :=
  c.instancePaths.map fun path => ⟨path,"running",m.version⟩

structure Advanced (host : Host) (state : DesiredStateRecord) (o o' : ObservedState) : Prop where
  nodes : SameNodes o o'
  kept : ∀ c∈state.manifest.components,
    ¬AllReady host state o c ∨ healthyObservation host c state.manifest.version o=true → Agree c.name o o'
  replaced : ∀ c∈state.manifest.components, AllReady host state o c →
    healthyObservation host c state.manifest.version o=false → ∃ node, eligibleNode c node o=true ∧
      o'.components.get c.name=some (deployed state.manifest c) ∧ o'.componentNodes.get c.name=some node
  removed : ∀ comp, state.manifest.component comp=none → o'.componentNodes.get comp=o.componentNodes.get comp ∧
    ((o.components.get comp=none ∧ o'.components.get comp=none) ∨
      (o.components.get comp).isSome ∧ o'.components.get comp=some [])

theorem component_self (hnames : m.names.Nodup) (hc : c∈m.components) : m.component c.name=some c := by
  obtain ⟨d,hd⟩:=Option.isSome_iff_exists.mp (component_isSome hc)
  have hname : d.name=c.name := by simpa using List.find?_some hd
  rw [hd,eq_of_name hnames (List.mem_of_find?_eq_some hd) hc hname]

theorem round_advanced (hpending : state.pending.entries=[]) (hnames : state.manifest.names.Nodup)
    (hwatched : Watched host state.manifest o) :
    Advanced host state o (executeAll state.manifest o (allActions host state o)) := by
  have hself (comp : String) : Agree comp o o := ⟨rfl,rfl⟩
  refine ⟨executeAll_nodes _ _ _,?_,?_,?_⟩
  · intro c hc hstays
    have hown:=executeAll_own state.manifest (hself c.name) (allActions host state o)
    rw [filter_allActions hnames hc] at hown
    rcases componentActions_cases hpending hwatched hc with ⟨-,hactions⟩ | ⟨-,-,hactions⟩ | ⟨hready,hsick,-⟩
    · rw [hactions] at hown
      exact hown
    · rw [hactions] at hown
      exact hown
    · rcases hstays with hstays | hstays
      · exact absurd hready hstays
      · simp [hsick] at hstays
  · intro c hc hready hsick
    have hown:=executeAll_own state.manifest (hself c.name) (allActions host state o)
    rw [filter_allActions hnames hc] at hown
    rcases componentActions_cases hpending hwatched hc with ⟨hnot,-⟩ | ⟨-,hwell,-⟩ | ⟨-,-,node,hlive,hactions⟩
    · exact absurd hready hnot
    · simp [hsick] at hwell
    · refine ⟨node,hlive,?_⟩
      have hcomponent:=component_self hnames hc
      rw [hactions] at hown
      have hcomponents:=hown.components
      have hnodes:=hown.componentNodes
      simp only [executeAll,List.foldl_append,List.foldl_cons,List.foldl_nil,ReconcileAction.execute,hcomponent,
        OrderedMap.get_insert_self] at hcomponents hnodes
      exact ⟨hcomponents,hnodes⟩
  · intro comp hgone
    have hown:=executeAll_own state.manifest (hself comp) (allActions host state o)
    cases hget : o.components.get comp with
    | none =>
      have hnil : (allActions host state o).filter (fun a => a.comp=comp)=[] := by
        refine List.filter_eq_nil_iff.mpr fun a ha => ?_
        simp only [decide_eq_true_eq]
        rintro rfl
        rcases List.mem_append.mp ha with ha | ha
        · obtain ⟨d,hd,ha⟩:=List.mem_flatMap.mp ha
          have:=component_isSome hd
          rw [← componentActions_comp ha,hgone] at this
          contradiction
        · obtain ⟨e,he,ha⟩:=List.mem_flatMap.mp ha
          have hmem:=OrderedMap.get_eq_some.mpr he
          rw [← (removalActions_comp ha).1,hget] at hmem
          contradiction
      rw [hnil] at hown
      exact ⟨hown.componentNodes,.inl ⟨rfl,hown.components.trans hget⟩⟩
    | some reports =>
      rw [filter_allActions_removed hgone hget] at hown
      by_cases hempty : reports=[]
      · subst hempty
        have hnil : removalActions host state o comp []=[] := by simp [removalActions]
        rw [hnil] at hown
        exact ⟨hown.componentNodes,.inr ⟨rfl,hown.components.trans hget⟩⟩
      · have hmem:=OrderedMap.get_eq_some.mp hget
        have hforeign : (reports.any fun r => !ownedRoot host comp r.path)=false := by
          simpa using fun r hr => ((hwatched.owned _ hmem).1 r hr).1
        have hsource : (o.linksKnown&&!((o.componentNodes.get comp).any fun node => o.liveNodes.contains node))=false := by
          by_cases hlinks : o.linksKnown=true
          · have:=hwatched.removed hlinks _ hmem hgone
            simp only at this
            rw [this]
            simp
          · simp [hlinks]
        have hactions : removalActions host state o comp reports=[.drain comp,.stop comp] := by
          simp only [removalActions,hgone,Option.isSome_none,Bool.false_or,List.isEmpty_iff,hempty,if_false,hforeign,hsource,
            Bool.or_self,false_eq_true]
        rw [hactions] at hown
        refine ⟨hown.componentNodes,.inr ⟨rfl,hown.components.trans ?_⟩⟩
        simp [executeAll,ReconcileAction.execute]

theorem segment_member (h : validPathSegment host comp=true) (i : ℕ) :
    validPathSegment host (comp++"-"++toString i)=true := by
  have hchars : ∀ ch∈(comp++"-"++toString i).toList, (host.isAlphanumeric ch||ch == '-'||ch == '_'||ch == '.')=true := by
    intro ch hch
    simp only [String.toList_append,List.mem_append] at hch
    rcases hch with (hch | hch) | hch
    · simp only [validPathSegment,and_eq_true,List.all_eq_true] at h
      exact h.2 ch hch
    · have hdash : ch = '-' := by simpa using hch
      subst hdash
      simp
    · have hdigit:=List.all_eq_true.mp (repr_digits i) ch hch
      have hval : ch.val<128 := by
        simp only [Char.isDigit,and_eq_true,decide_eq_true_eq] at hdigit
        exact UInt32.lt_of_le_of_lt hdigit.2 (by decide)
      simp [host.isAlphanumeric_ascii ch hval,Char.isAlphanum,hdigit]
  have hdash : '-'∈(comp++"-"++toString i).toList := by simp [String.toList_append]
  have hlist {t : String} (ht : '-'∉t.toList) : comp++"-"++toString i≠t := fun heq => ht (heq ▸ hdash)
  have hempty : (comp++"-"++toString i).isEmpty=false := by
    rw [← not_eq_true,String.isEmpty_iff]
    exact hlist (by decide)
  have hdot:=hlist (t := ".") (by decide)
  have hdots:=hlist (t := "..") (by decide)
  simp only [validPathSegment,hempty,Bool.not_false,Bool.true_and,bne_iff_ne,ne_eq,and_eq_true,List.all_eq_true]
  exact ⟨⟨by simpa using hdot,by simpa using hdots⟩,hchars⟩

theorem hasRoot_segment (hnamed : WellNamed host c) {root : String} (h : c.HasRoot root) :
    validPathSegment host root=true ∧ ownedRoot host c.name ("/user/"++root)=true := by
  unfold ComponentSpec.HasRoot at h
  split at h
  · obtain ⟨i,hi,rfl⟩:=h
    have hbound:=hnamed.bounded
    refine ⟨segment_member hnamed.segment i,?_⟩
    have:=ownedRoot_member hnamed.segment (i := i) (by omega)
    simpa [String.append_assoc] using this
  · subst h
    exact ⟨hnamed.segment,ownedRoot_name hnamed.segment⟩

theorem instancePaths_length (c : ComponentSpec) : c.instancePaths.length=c.instances.instanceCount := by
  unfold ComponentSpec.instancePaths
  cases c.instances <;> simp [InstancePolicy.instanceCount]

theorem deployed_healthy (hnamed : WellNamed host c) : healthy host c m.version (deployed m c)=true := by
  have hrows : healthyRows host c m.version (deployed m c) []=true := by
    refine healthyRows_iff.mpr ⟨?_,?_⟩
    · intro r hr
      obtain ⟨path,hpath,rfl⟩:=List.mem_map.mp hr
      obtain ⟨root,rfl,hroot⟩:=mem_instancePaths.mp hpath
      obtain ⟨hsegment,howned⟩:=hasRoot_segment hnamed hroot
      have hdrop : ("/user/"++root).toList.drop 6=root.toList := by
        rw [String.toList_append]
        exact List.drop_left' (by decide)
      refine ⟨rfl,rfl,howned,?_,?_,by simp⟩
      · simp only [hdrop]
        exact segment_no_slash hsegment
      · have hbound : c.instances.instanceCount≤u64Max+1 := hnamed.bounded.trans (by decide)
        exact (ownsWirePath_iff hbound).mpr ⟨root,wireRoot_segment hsegment,hroot⟩
    · have hpaths : (deployed m c).map ComponentStateReport.path=c.instancePaths := by
        simp [deployed,Function.comp_def]
      rw [hpaths]
      exact instancePaths_nodup c
  have hlen : (deployed m c).length=c.instances.instanceCount := by simp [deployed,instancePaths_length]
  simp [healthy,hrows,hlen]

theorem deployed_rows (hnamed : WellNamed host c) : (∀ r∈deployed m c, ownedRoot host c.name r.path=true ∧
    settledState r.state=true) ∧ ((deployed m c).map ComponentStateReport.path).Nodup := by
  have hrows:=deployed_healthy (m := m) hnamed
  simp only [healthy,and_eq_true] at hrows
  obtain ⟨hall,hnodup⟩:=healthyRows_iff.mp hrows.2
  refine ⟨fun r hr => ⟨(hall r hr).2.2.1,?_⟩,hnodup⟩
  rw [(hall r hr).1]
  decide

theorem deployed_ne_nil (hnamed : WellNamed host c) : deployed m c≠[] := by
  intro hnil
  have hlen:=congrArg List.length hnil
  simp only [deployed,List.length_map,instancePaths_length,List.length_nil] at hlen
  have:=hnamed.positive
  omega

section
variable (haccepted : Accepted host state.manifest) (hwatched : Watched host state.manifest o) (h : Advanced host state o o')
include haccepted hwatched h

omit haccepted hwatched in
theorem Advanced.declared {c : ComponentSpec} (hc : c∈state.manifest.components) :
    (AllReady host state o c ∧ healthyObservation host c state.manifest.version o=false ∧
      ∃ node, eligibleNode c node o=true ∧ o'.components.get c.name=some (deployed state.manifest c) ∧
        o'.componentNodes.get c.name=some node) ∨
      (Agree c.name o o' ∧ (¬AllReady host state o c ∨ healthyObservation host c state.manifest.version o=true)) := by
  by_cases hready : AllReady host state o c
  · cases hhealthy : healthyObservation host c state.manifest.version o with
    | true => exact .inr ⟨h.kept c hc (.inr hhealthy),.inr rfl⟩
    | false => exact .inl ⟨hready,rfl,h.replaced c hc hready hhealthy⟩
  · exact .inr ⟨h.kept c hc (.inl hready),.inl hready⟩

theorem Advanced.deployed_observation {c : ComponentSpec} (hc : c∈state.manifest.components)
    (hready : AllReady host state o c) (hsick : healthyObservation host c state.manifest.version o=false) :
    healthyObservation host c state.manifest.version o'=true := by
  obtain ⟨node,hlive,hcomponents,hnodes⟩:=h.replaced c hc hready hsick
  have hspread:=(hwatched.placed c hc).2
  have hreports : o'.reports c.name=deployed state.manifest c := by simp [ObservedState.reports,hcomponents]
  unfold healthyObservation
  rw [if_neg]
  · simp [hreports,deployed_healthy (haccepted.named c hc),hnodes,eligibleNode_same h.nodes,hlive]
  · simp only [and_eq_true,decide_eq_true_eq,and_assoc,not_and]
    intro _ hanti hcount
    exact hspread ⟨hanti,hcount⟩

omit haccepted hwatched in
theorem Advanced.healthy_stays {c : ComponentSpec} (hc : c∈state.manifest.components)
    (hhealthy : healthyObservation host c state.manifest.version o=true) :
    healthyObservation host c state.manifest.version o'=true := by
  rw [healthyObservation_same h.nodes (h.kept c hc (.inr hhealthy))]
  exact hhealthy

theorem Advanced.watched : Watched host state.manifest o' := by
  have hentry (comp : String) (reports : List ComponentStateReport) (hget : o'.components.get comp=some reports) :
      (∀ r∈reports, ownedRoot host comp r.path=true ∧ settledState r.state=true) ∧
        (reports.map ComponentStateReport.path).Nodup := by
    cases hdecl : state.manifest.component comp with
    | none =>
      rcases (h.removed comp hdecl).2 with ⟨-,hnone⟩ | ⟨-,hempty⟩
      · rw [hnone] at hget
        contradiction
      · obtain rfl:=Option.some.inj (hempty.symm.trans hget)
        simp
    | some c =>
      have hc:=List.mem_of_find?_eq_some hdecl
      have hname : c.name=comp := by simpa using List.find?_some hdecl
      subst hname
      rcases h.declared hc with ⟨-,-,node,-,hcomponents,-⟩ | ⟨hagree,-⟩
      · obtain rfl:=Option.some.inj (hcomponents.symm.trans hget)
        exact deployed_rows (haccepted.named c hc)
      · rw [hagree.components] at hget
        exact hwatched.owned _ (OrderedMap.get_eq_some.mp hget)
  refine ⟨⟨?_,?_,?_,?_⟩,?_⟩
  · intro c hc
    rw [h.nodes.liveNodes]
    simp only [eligibleNode_same h.nodes]
    exact hwatched.placed c hc
  · intro e he
    exact hentry e.1 e.2 (OrderedMap.get_eq_some.mpr he)
  · intro hlinks c hc
    rw [h.nodes.linksKnown] at hlinks
    simp only [eligibleNode_same h.nodes]
    rcases h.declared hc with ⟨-,-,node,hlive,hcomponents,hnodes⟩ | ⟨hagree,-⟩
    · simp only [OrderedMap.contains,hcomponents,hnodes,Option.isSome_some,Option.any_some,hlive,and_self]
    · simp only [OrderedMap.contains,hagree.components,hagree.componentNodes]
      exact hwatched.sources hlinks c hc
  · intro hlinks e he hgone
    rw [h.nodes.linksKnown] at hlinks
    have hget:=OrderedMap.get_eq_some.mpr he
    obtain ⟨hnodes,hcases⟩:=h.removed e.1 hgone
    rw [hnodes,h.nodes.liveNodes]
    rcases hcases with ⟨-,hnone⟩ | ⟨hsome,-⟩
    · rw [hnone] at hget
      contradiction
    · obtain ⟨reports,hreports⟩:=Option.isSome_iff_exists.mp hsome
      exact hwatched.removed hlinks (e.1,reports) (OrderedMap.get_eq_some.mp hreports) hgone
  · intro hlinks c hc hempty
    rw [h.nodes.linksKnown] at hlinks
    rw [nodeFor_same h.nodes]
    rcases h.declared hc with ⟨-,-,node,-,hcomponents,-⟩ | ⟨hagree,-⟩
    · rw [ObservedState.reports,hcomponents] at hempty
      exact absurd hempty (deployed_ne_nil (haccepted.named c hc))
    · rw [hagree.componentNodes]
      refine hwatched.absent hlinks c hc ?_
      rwa [ObservedState.reports,hagree.components] at hempty

end

theorem accepted_rank (h : Accepted host m) : ∃ rank : String → ℕ, ∀ c∈m.components, ∀ d∈c.deps, rank d<rank c.name := by
  obtain ⟨rank,hrank⟩:=Dfs.findCycle_none h.acyclic
  have hkeys (name : String) (hname : name∈m.names) : name∈m.keys := by
    simpa [AppManifest.keys,List.mem_insertionSort] using hname
  refine ⟨rank,fun c hc d hd => hrank c.name (hkeys _ (List.mem_map_of_mem hc)) d ?_ (hkeys d (h.deps c hc d hd))⟩
  have hfind : m.components.reverse.find? (fun e => e.name=c.name)=some c := by
    obtain ⟨e,he⟩:=Option.isSome_iff_exists.mp (List.find?_isSome.mpr ⟨c,List.mem_reverse.mpr hc,by simp⟩ :
      (m.components.reverse.find? fun e => e.name=c.name).isSome)
    have hname : e.name=c.name := by simpa using List.find?_some he
    rw [he,eq_of_name h.distinct (List.mem_reverse.mp (List.mem_of_find?_eq_some he)) hc hname]
  simp only [AppManifest.depsOf,hfind,Option.map_some,Option.getD_some]
  exact hd

theorem exists_ready (haccepted : Accepted host state.manifest) (hpending : state.pending.entries=[])
    (hc : c∈state.manifest.components) (hsick : healthyObservation host c state.manifest.version o=false) :
    ∃ d∈state.manifest.components, healthyObservation host d state.manifest.version o=false ∧ AllReady host state o d := by
  obtain ⟨rank,hrank⟩:=accepted_rank haccepted
  induction hn : rank c.name using Nat.strongRecOn generalizing c with
  | ind n ih =>
    by_cases hready : AllReady host state o c
    · exact ⟨c,hc,hsick,hready⟩
    · simp only [AllReady,not_forall,not_eq_true] at hready
      obtain ⟨name,hname,hnot⟩:=hready
      obtain ⟨d,hd,rfl⟩:=List.mem_map.mp (haccepted.deps c hc name hname)
      have hself:=component_self haccepted.distinct hd
      have hsick' : healthyObservation host d state.manifest.version o=false := by
        simpa [dependencyReady,not_pending hpending,hself] using hnot
      exact ih (rank d.name) (hn ▸ hrank c hc d.name hname) hd hsick' rfl

theorem countP_lt {α : Type} {p q : α → Bool} {l : List α} (hmono : ∀ a∈l, q a=true → p a=true) {a : α} (ha : a∈l)
    (hp : p a=true) (hq : q a=false) : l.countP q<l.countP p := by
  induction l with
  | nil => simp at ha
  | cons b l ih =>
    have hle : l.countP q≤l.countP p := List.countP_mono_left fun x hx => hmono x (by simp [hx])
    rw [List.countP_cons,List.countP_cons]
    rcases List.mem_cons.mp ha with rfl | hmem
    · simp only [hp,hq,if_true,false_eq_true,if_false]
      omega
    · have hlt:=ih (fun x hx => hmono x (by simp [hx])) hmem
      have hb:=hmono b (by simp)
      split
      · rw [if_pos (hb ‹_›)]
        omega
      · omega

def sickCount (host : Host) (state : DesiredStateRecord) (o : ObservedState) : ℕ :=
  state.manifest.components.countP fun c => !healthyObservation host c state.manifest.version o

theorem Advanced.sickCount_lt (haccepted : Accepted host state.manifest) (hpending : state.pending.entries=[])
    (hwatched : Watched host state.manifest o) (h : Advanced host state o o') :
    sickCount host state o'<sickCount host state o ∨ sickCount host state o'=0 := by
  have hmono : ∀ c∈state.manifest.components, (!healthyObservation host c state.manifest.version o')=true →
      (!healthyObservation host c state.manifest.version o)=true := by
    intro c hc hsick
    by_contra hwell
    rw [not_eq_true,Bool.not_eq_false'] at hwell
    rw [h.healthy_stays hc hwell] at hsick
    contradiction
  by_cases hsome : ∃ c∈state.manifest.components, healthyObservation host c state.manifest.version o=false
  · obtain ⟨c,hc,hsick⟩:=hsome
    obtain ⟨d,hd,hsick',hready⟩:=exists_ready haccepted hpending hc hsick
    have hwell:=h.deployed_observation haccepted hwatched hd hready hsick'
    exact .inl (countP_lt hmono hd (by simp [hsick']) (by simp [hwell]))
  · refine .inr (List.countP_eq_zero.mpr fun c hc hsick => hsome ⟨c,hc,?_⟩)
    simpa using hmono c hc hsick

theorem allActions_nil (haccepted : Accepted host state.manifest) (hpending : state.pending.entries=[])
    (hwatched : Watched host state.manifest o) (hwell : sickCount host state o=0)
    (hgone : ∀ e∈o.components.entries, state.manifest.component e.1=none → e.2=[]) : allActions host state o=[] := by
  have hhealthy (c : ComponentSpec) (hc : c∈state.manifest.components) :
      healthyObservation host c state.manifest.version o=true := by
    simpa using List.countP_eq_zero.mp hwell c hc
  have hready (c : ComponentSpec) (hc : c∈state.manifest.components) : AllReady host state o c := by
    intro name hname
    obtain ⟨d,hd,rfl⟩:=List.mem_map.mp (haccepted.deps c hc name hname)
    simp [dependencyReady,not_pending hpending,component_self haccepted.distinct hd,hhealthy d hd]
  unfold allActions
  rw [List.append_eq_nil_iff]
  constructor
  · refine List.flatMap_eq_nil_iff.mpr fun c hc => ?_
    rcases componentActions_cases hpending hwatched hc with ⟨hnot,-⟩ | ⟨-,-,hactions⟩ | ⟨-,hsick,-⟩
    · exact absurd (hready c hc) hnot
    · exact hactions
    · simp [hhealthy c hc] at hsick
  · refine List.flatMap_eq_nil_iff.mpr fun e he => ?_
    unfold removalActions
    rw [if_pos]
    cases hdecl : state.manifest.component e.1 with
    | none => simp [hgone e he hdecl]
    | some c => simp

end Parrot.App
