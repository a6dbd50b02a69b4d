import Parrot.Mirror.Fencing

/-! # Mirror sessions over whole runs

A run keeps three records that no step reads: the numbers that were issued, the applies that
returned a new revision, and the entries that each session installed. -/

namespace Parrot.Mirror
open Machine Threads

structure Applied where
  session : ℕ
  revision : ℕ
  policies : List MirrorPolicySpec
  reply : MirrorControlReply

structure Traced where
  node : Node
  created : List ℕ
  applied : List Applied
  installed : List (ℕ × ℕ)

namespace Traced

def start (incarnation : BitVec 128) (node : Option String) : Traced := ⟨.new incarnation node,[],[],[]⟩

/-- The apply that a call was, where it returned a revision that its session did not have. -/
def newApply (t : Traced) : MirrorControl → Outcome → Option Applied
  | .apply session revision policies, .replied (.ok reply) =>
    if (t.node.sessions.get session.sequence).map Session.revision=some revision then none
    else some ⟨session.sequence,revision,policies,reply⟩
  | _, _ => none

def record (t : Traced) (command : MirrorControl) (n : Node) (outcome : Outcome) : Traced where
  node := n
  created := if n.issued=t.node.issued then t.created else t.created++[n.issued]
  applied := t.applied++(t.newApply command outcome).toList
  installed := t.installed++(t.newApply command outcome).toList.flatMap fun a =>
    (((n.sessions.get a.session).bind Session.group).getD []).map fun handle => (a.session,handle.2)

def appliesOf (t : Traced) (k : ℕ) : List Applied := t.applied.filter fun a => a.session=k

def enter : Event → Traced → Option (Traced × Option Call)
  | .call command during, t =>
    let (n,outcome):=t.node.execute during command
    some (t.record command n outcome,some (outcome.call command))
  | event, t => (Mirror.enter event t.node).map fun (n,call) => ({t with node:=n},call)

def step (move : Move) (t : Traced) (call : Call) : Option (Traced × Call) :=
  (Mirror.step move t.node call).map fun (n,call) => ({t with node:=n},call)

def program : Threads.Program Traced Call Event Move := ⟨enter,step⟩

end Traced

structure SessionInv (t : Traced) (k : ℕ) (s : Session) : Prop where
  revisions : (t.appliesOf k).map Applied.revision=List.range' 1 s.revision
  policies : s.policies=((t.appliesOf k).getLast?.map Applied.policies).getD []
  groups : ∀ g∈s.groups, ∀ handle∈g, handle.2<t.node.registry.fresh
  empty : s.group=none → s.revision=0
  current : ∀ g a, s.group=some g → (t.appliesOf k).getLast? = some a → t.node.registry.isCurrent g=true →
    a.reply=.session ⟨t.node.incarnation,k⟩ s.owner s.revision .active s.policies

structure Fenced (t : Traced) : Prop where
  dated : t.node.registry.Dated
  bounded : ∀ k∈t.node.sessions.keys, 0<k ∧ k≤t.node.issued
  created : t.created=List.range' 1 t.node.issued
  sessions : ∀ k s, t.node.sessions.get k=some s → SessionInv t k s
  applied : ∀ a∈t.applied, a.session≤t.node.issued ∧
    (MirrorControl.apply ⟨t.node.incarnation,a.session⟩ a.revision a.policies).validate=.ok ()
  installed : ∀ e∈t.installed, e.1≤t.node.issued ∧ e.2<t.node.registry.fresh
  registered : ∀ source entry k, t.node.registry.entries.get source=some entry → (k,entry)∈t.installed →
    ∃ s g, t.node.sessions.get k=some s ∧ s.closing=false ∧ s.group=some g ∧ (source,entry)∈g

variable {t : Traced} {n : Node} {k : ℕ} {s : Session} {r : Registry} {during : List RegistryEvent}
  {command : MirrorControl} {outcome : Outcome}

theorem appliesOf_congr {t' : Traced} (h : t'.applied=t.applied) (k : ℕ) : t'.appliesOf k=t.appliesOf k := by
  unfold Traced.appliesOf
  rw [h]

theorem SessionInv.later {t' : Traced} (h : SessionInv t k s) (hof : t'.appliesOf k=t.appliesOf k)
    (hinc : t'.node.incarnation=t.node.incarnation) (hlater : t.node.registry.Later t'.node.registry) : SessionInv t' k s := by
  refine ⟨hof ▸ h.revisions,hof ▸ h.policies,?_,h.empty,?_⟩
  · exact fun g hg handle hh => lt_of_lt_of_le (h.groups g hg handle hh) hlater.fresh
  · intro g a hg ha hcurrent
    rw [hinc]
    refine h.current g a hg (hof ▸ ha) (isCurrent_before hlater ?_ hcurrent)
    exact fun handle hh => h.groups g (by simp [Session.groups,hg]) handle hh

theorem Fenced.registry (h : Fenced t) (hlater : t.node.registry.Later r) (hdated : r.Dated) :
    Fenced {t with node := {t.node with registry:=r}} := by
  refine ⟨hdated,h.bounded,h.created,?_,h.applied,?_,?_⟩
  · exact fun k s hs => (h.sessions k s hs).later rfl rfl hlater
  · exact fun e he => ⟨(h.installed e he).1,lt_of_lt_of_le (h.installed e he).2 hlater.fresh⟩
  · intro source entry k hget hmem
    exact h.registered source entry k (hlater.entries _ _ (h.installed _ hmem).2 hget) hmem

theorem record_same (command : MirrorControl) (hissued : n.issued=t.node.issued)
    (hnew : t.newApply command outcome=none) : t.record command n outcome={t with node:=n} := by
  simp [Traced.record,hissued,hnew]

theorem Session.Trims.inv {s' : Session} (htrim : s.Trims s') (h : SessionInv t k s) : SessionInv t k s' := by
  refine ⟨by rw [htrim.revision]; exact h.revisions,by rw [htrim.policies]; exact h.policies,?_,?_,?_⟩
  · intro g hg
    refine h.groups g ?_
    unfold Session.groups at hg ⊢
    rw [htrim.group] at hg
    rcases List.mem_append.mp hg with hg | hg
    · exact List.mem_append_left _ hg
    · exact List.mem_append_right _ (htrim.retiring g hg)
  · rw [htrim.group,htrim.revision]
    exact h.empty
  · rw [htrim.group,htrim.owner,htrim.revision,htrim.policies]
    exact h.current

theorem Fenced.trim (h : Fenced t) {sessions : OrderedMap ℕ Session} (htrim : Trimmed t.node.sessions sessions) :
    Fenced {t with node := {t.node with sessions:=sessions}} := by
  have hback (k : ℕ) (s' : Session) (hs' : sessions.get k=some s') :
      ∃ s, t.node.sessions.get k=some s ∧ s.Trims s' := by
    have hrel:=htrim k
    rw [hs'] at hrel
    generalize hget : t.node.sessions.get k=o at hrel
    cases hrel with
    | some htrims => exact ⟨_,rfl,htrims⟩
  have hforth (k : ℕ) (s : Session) (hs : t.node.sessions.get k=some s) :
      ∃ s', sessions.get k=some s' ∧ s.Trims s' := by
    have hrel:=htrim k
    rw [hs] at hrel
    generalize hget : sessions.get k=o at hrel
    cases hrel with
    | some htrims => exact ⟨_,rfl,htrims⟩
  refine ⟨h.dated,?_,h.created,?_,h.applied,h.installed,?_⟩
  · intro k hk
    obtain ⟨s',hs'⟩:=OrderedMap.mem_keys.mp hk
    obtain ⟨s,hs,-⟩:=hback k s' hs'
    exact h.bounded k (OrderedMap.mem_keys.mpr ⟨s,hs⟩)
  · intro k s' hs'
    obtain ⟨s,hs,htrims⟩:=hback k s' hs'
    exact (htrims.inv (h.sessions k s hs)).later rfl rfl (.refl _)
  · intro source entry k hget hmem
    obtain ⟨s,g,hs,hclosing,hg,hin⟩:=h.registered source entry k hget hmem
    obtain ⟨s',hs',htrims⟩:=hforth k s hs
    exact ⟨s',g,hs',htrims.closing.trans hclosing,htrims.group.trans hg,hin⟩

theorem newApply_none (hcommand : ∀ session revision policies, command ≠ .apply session revision policies) :
    t.newApply command outcome=none := by
  cases command with
  | apply session revision policies => exact absurd rfl (hcommand session revision policies)
  | _ => rfl

theorem range'_succ_end (m : ℕ) : List.range' 1 (m+1)=List.range' 1 m++[m+1] := by
  rw [List.range'_concat]
  simp [Nat.add_comm]

theorem created_fenced (h : Fenced t) (owner : String) (hcommand : ∀ session revision policies, command ≠ .apply session revision policies) :
    Fenced (t.record command {t.node with
      sessions := t.node.sessions.insert (t.node.issued+1) (Session.new owner),issued := t.node.issued+1} outcome) := by
  have hnew : t.newApply command outcome=none := newApply_none hcommand
  have happlied : (t.record command {t.node with
      sessions := t.node.sessions.insert (t.node.issued+1) (Session.new owner),issued := t.node.issued+1} outcome).applied =
      t.applied := by simp [Traced.record,hnew]
  have hinstalled : (t.record command {t.node with
      sessions := t.node.sessions.insert (t.node.issued+1) (Session.new owner),issued := t.node.issued+1} outcome).installed =
      t.installed := by simp [Traced.record,hnew]
  refine ⟨h.dated,?_,?_,?_,?_,?_,?_⟩
  · intro k hk
    rcases OrderedMap.mem_keys_insert.mp hk with rfl | hk
    · exact ⟨by omega,le_rfl⟩
    · have:=h.bounded k hk
      exact ⟨this.1,by
        simp only [Traced.record]
        omega⟩
  · simp [Traced.record,h.created,range'_succ_end]
  · intro k s hs
    change (t.node.sessions.insert (t.node.issued+1) (Session.new owner)).get k=some s at hs
    rw [OrderedMap.get_insert] at hs
    split at hs
    · rename_i hk
      cases hs
      subst hk
      have hof : t.appliesOf (t.node.issued+1)=[] := by
        refine List.filter_eq_nil_iff.mpr fun a ha => ?_
        have:=(h.applied a ha).1
        simp only [decide_eq_true_eq]
        omega
      have hof' : (t.record command {t.node with
          sessions := t.node.sessions.insert (t.node.issued+1) (Session.new owner),issued := t.node.issued+1}
            outcome).appliesOf (t.node.issued+1)=[] := by
        unfold Traced.appliesOf at hof ⊢
        rw [happlied]
        exact hof
      refine ⟨by rw [hof']; rfl,by rw [hof']; rfl,by simp [Session.groups,Session.new],fun _ => rfl,?_⟩
      intro g a hg
      contradiction
    · exact (h.sessions k s hs).later (appliesOf_congr happlied k) rfl (.refl _)
  · intro a ha
    rw [happlied] at ha
    obtain ⟨hle,hvalid⟩:=h.applied a ha
    exact ⟨by
      simp only [Traced.record]
      omega,hvalid⟩
  · intro e he
    rw [hinstalled] at he
    obtain ⟨hle,hlt⟩:=h.installed e he
    exact ⟨by
      simp only [Traced.record]
      omega,hlt⟩
  · intro source entry k hget hmem
    rw [hinstalled] at hmem
    obtain ⟨s,g,hs,hrest⟩:=h.registered source entry k hget hmem
    refine ⟨s,g,?_,hrest⟩
    change (t.node.sessions.insert (t.node.issued+1) (Session.new owner)).get k=some s
    have hk:=(h.bounded k (OrderedMap.mem_keys.mpr ⟨s,hs⟩)).2
    rw [OrderedMap.get_insert_of_ne (by omega),hs]

theorem fenced_fenced (h : Fenced t) (hs : t.node.sessions.get k=some s) :
    Fenced {t with node := {t.node with
      sessions := t.node.sessions.insert k {s with closing:=true},registry := cancelAll t.node.registry s.groups}} := by
  obtain ⟨hlater,hdated⟩:=later_cancelAll t.node.registry s.groups
  have hbase:=h.registry hlater (hdated h.dated)
  refine ⟨hbase.dated,?_,h.created,?_,h.applied,hbase.installed,?_⟩
  · intro x hx
    rcases OrderedMap.mem_keys_insert.mp hx with rfl | hx
    · exact h.bounded x (OrderedMap.mem_keys.mpr ⟨s,hs⟩)
    · exact h.bounded x hx
  · intro x s' hs'
    change (t.node.sessions.insert k {s with closing:=true}).get x=some s' at hs'
    rw [OrderedMap.get_insert] at hs'
    split at hs'
    · rename_i hx
      cases hs'
      subst hx
      have hinv:=hbase.sessions x s hs
      exact ⟨hinv.revisions,hinv.policies,hinv.groups,hinv.empty,hinv.current⟩
    · have hinv:=hbase.sessions x s' hs'
      exact ⟨hinv.revisions,hinv.policies,hinv.groups,hinv.empty,hinv.current⟩
  · intro source entry x hget hmem
    obtain ⟨hold,hnot⟩:=get_cancelAll.mp hget
    obtain ⟨s',g,hs',hclosing,hg,hin⟩:=h.registered source entry x hold hmem
    by_cases hx : x=k
    · subst hx
      obtain rfl:=Option.some.inj (hs.symm.trans hs')
      exact absurd hin (hnot g (by simp [Session.groups,hg]))
    · refine ⟨s',g,?_,hclosing,hg,hin⟩
      change (t.node.sessions.insert k {s with closing:=true}).get x=some s'
      rw [OrderedMap.get_insert_of_ne hx,hs']

theorem close_fenced (h : Fenced t) : Fenced {t with node:=t.node.close} := by
  obtain ⟨hlater,hdated⟩:=later_cancelAll t.node.registry (t.node.sessions.entries.flatMap fun e => e.2.groups)
  have hbase:=h.registry hlater (hdated h.dated)
  have hget (x : ℕ) : t.node.close.sessions.get x=(t.node.sessions.get x).map fun s => {s with closing:=true} := by
    simp [Node.close]
  refine ⟨hbase.dated,?_,h.created,?_,h.applied,hbase.installed,?_⟩
  · intro x hx
    obtain ⟨s',hs'⟩:=OrderedMap.mem_keys.mp hx
    change t.node.close.sessions.get x=some s' at hs'
    rw [hget] at hs'
    obtain ⟨s,hs,-⟩:=Option.map_eq_some_iff.mp hs'
    exact h.bounded x (OrderedMap.mem_keys.mpr ⟨s,hs⟩)
  · intro x s' hs'
    change t.node.close.sessions.get x=some s' at hs'
    rw [hget] at hs'
    obtain ⟨s,hs,rfl⟩:=Option.map_eq_some_iff.mp hs'
    have hinv:=hbase.sessions x s hs
    exact ⟨hinv.revisions,hinv.policies,hinv.groups,hinv.empty,hinv.current⟩
  · intro source entry x hreg hmem
    obtain ⟨hold,hnot⟩:=get_cancelAll.mp hreg
    obtain ⟨s,g,hs,-,hg,hin⟩:=h.registered source entry x hold hmem
    refine absurd hin (hnot g (List.mem_flatMap.mpr ⟨(x,s),OrderedMap.get_eq_some.mp hs,?_⟩))
    simp [Session.groups,hg]

variable {session : MirrorSessionId}

theorem finish_fenced (h : Fenced t) {groups : List Group}
    (hclosing : ∀ s, t.node.sessions.get session.sequence=some s → s.closing=true)
    (hfinish : t.node.finish session groups=some n) :
    Fenced {t with node:=n} ∧ n.sessions=t.node.sessions.remove session.sequence ∧ n.issued=t.node.issued ∧
      n.incarnation=t.node.incarnation := by
  unfold Node.finish at hfinish
  simp only [Option.ite_none_right_eq_some,Option.some.injEq] at hfinish
  obtain ⟨-,rfl⟩:=hfinish
  obtain ⟨hlater,hdated⟩:=later_cancelAll t.node.registry groups
  obtain ⟨hlater',hdated'⟩:=later_cancelAll (cancelAll t.node.registry groups)
    (((t.node.sessions.get session.sequence).map Session.groups).getD [])
  have hbase:=h.registry (hlater.trans hlater') (hdated' (hdated h.dated))
  have hback {x : ℕ} {s : Session} (hs : (t.node.sessions.remove session.sequence).get x=some s) :
      x≠session.sequence ∧ t.node.sessions.get x=some s := by
    rw [OrderedMap.get_remove] at hs
    split at hs
    · contradiction
    · rename_i hx
      exact ⟨hx,hs⟩
  refine ⟨⟨hbase.dated,?_,h.created,?_,h.applied,hbase.installed,?_⟩,rfl,rfl,rfl⟩
  · intro x hx
    obtain ⟨s,hs⟩:=OrderedMap.mem_keys.mp hx
    exact h.bounded x (OrderedMap.mem_keys.mpr ⟨s,(hback hs).2⟩)
  · intro x s hs
    have hinv:=hbase.sessions x s (hback hs).2
    exact ⟨hinv.revisions,hinv.policies,hinv.groups,hinv.empty,hinv.current⟩
  · intro source entry x hget hmem
    obtain ⟨s,g,hs,hopen,hg,hin⟩:=hbase.registered source entry x hget hmem
    refine ⟨s,g,?_,hopen,hg,hin⟩
    have hx : x≠session.sequence := by
      intro heq
      have hs' : t.node.sessions.get session.sequence=some s := heq ▸ hs
      rw [hclosing s hs'] at hopen
      contradiction
    change (t.node.sessions.remove session.sequence).get x=some s
    rw [OrderedMap.get_remove_of_ne hx]
    exact hs

theorem install_registered (h : Fenced t) {registry : Registry} {group : Group}
    {expanded : List (WireMirrorPolicy × WireMirrorOptions)} (hs : t.node.sessions.get session.sequence=some s)
    (hreplace : t.node.registry.replaceGroup s.group expanded=.ok (registry,group)) {source : String} {entry : ℕ}
    (hget : registry.entries.get source=some entry) : ((∃ handle∈group, handle.2=entry) → (source,entry)∈group) ∧
    (entry<t.node.registry.fresh → (session.sequence,entry)∉t.installed) := by
  obtain ⟨-,-,-,-,hresult⟩:=Registry.replaceGroup_ok hreplace
  set dropped:=t.node.registry.dropSources ((s.group.getD []).map Prod.fst) with hdropped
  obtain ⟨hregistry,hgroup⟩:=Prod.mk.inj hresult
  obtain ⟨-,hids⟩:=Registry.spawnAll_group dropped (expanded.map fun p => p.1.sourcePath)
  rw [hregistry] at hget
  rw [← hgroup] at hids
  have hfresh : dropped.fresh=t.node.registry.fresh := rfl
  rcases Registry.get_spawnAll dropped _ hget with ⟨-,hold⟩ | hmem
  · rw [hdropped,Registry.get_dropSources] at hold
    split at hold
    · contradiction
    · rename_i hnot
      have hdate:=h.dated source entry hold
      refine ⟨?_,?_⟩
      · intro hfound
        obtain ⟨handle,hmem,rfl⟩:=hfound
        have:=(hids handle hmem).1
        omega
      · intro _ hmem
        obtain ⟨s',g,hs',-,hg,hin⟩:=h.registered source entry session.sequence hold hmem
        obtain rfl:=Option.some.inj (hs.symm.trans hs')
        rw [hg] at hnot
        exact hnot (List.mem_map_of_mem hin)
  · rw [← hgroup] at hmem
    refine ⟨fun _ => hmem,fun hlt => ?_⟩
    have:=(hids _ hmem).1
    simp only at this
    omega

theorem installed_fenced (h : Fenced t) {policies : List MirrorPolicySpec} {keep : List Group}
    {expanded : List (WireMirrorPolicy × WireMirrorOptions)} {registry : Registry} {group : Group} {s' : Session}
    (hvalid : (MirrorControl.apply session (s.revision+1) policies).validate=.ok ())
    (hid : session.incarnation=t.node.incarnation) (hs : t.node.sessions.get session.sequence=some s)
    (hkeep : ∀ g∈keep, g∈s.retiring) (hreplace : t.node.registry.replaceGroup s.group expanded=.ok (registry,group))
    (hs' : s'=⟨s.owner,s.revision+1,policies,some group,keep++s.group.toList,false⟩)
    (hn : n={t.node with
      sessions := t.node.sessions.insert session.sequence s',registry := during.foldl RegistryEvent.apply registry}) :
    Fenced (t.record (.apply session (s.revision+1) policies) n (.replied (.ok (n.snapshot session.sequence s')))) := by
  set a : Applied := ⟨session.sequence,s.revision+1,policies,n.snapshot session.sequence s'⟩ with ha
  have hnew : t.newApply (.apply session (s.revision+1) policies) (.replied (.ok (n.snapshot session.sequence s')))=some a := by
    simp [Traced.newApply,hs,ha]
  have hnget : n.sessions.get session.sequence=some s' := by
    rw [hn]
    exact OrderedMap.get_insert_self
  have hissued : n.issued=t.node.issued := by rw [hn]
  have hinc : n.incarnation=t.node.incarnation := by rw [hn]
  have hrecord : t.record (.apply session (s.revision+1) policies) n (.replied (.ok (n.snapshot session.sequence s'))) =
      ⟨n,t.created,t.applied++[a],t.installed++group.map fun handle => (session.sequence,handle.2)⟩ := by
    have hgroup : ((n.sessions.get a.session).bind Session.group).getD []=group := by
      rw [show a.session=session.sequence from rfl,hnget,hs']
      rfl
    simp only [Traced.record,hnew,hissued,if_true,Option.toList_some,List.flatMap_cons,List.flatMap_nil,List.append_nil,hgroup]
    rfl
  rw [hrecord]
  obtain ⟨hlater₁,hdated₁⟩:=Registry.later_replaceGroup hreplace
  obtain ⟨hlater₂,hdated₂⟩:=later_events registry during
  have hreg : n.registry=during.foldl RegistryEvent.apply registry := by rw [hn]
  rw [← hreg] at hlater₂ hdated₂
  have hlater:=hlater₁.trans hlater₂
  have hfresh (handle : String × ℕ) (hmem : handle∈group) :
      t.node.registry.fresh≤handle.2 ∧ handle.2 < registry.fresh := by
    obtain ⟨hregistry,hgroup⟩:=Prod.mk.inj (Registry.replaceGroup_ok hreplace).result
    have hids:=(Registry.spawnAll_group (t.node.registry.dropSources ((s.group.getD []).map Prod.fst))
      (expanded.map fun p => p.1.sourcePath)).2 handle (hgroup ▸ hmem)
    have hend:=(Registry.spawnAll_fields (t.node.registry.dropSources ((s.group.getD []).map Prod.fst))
      (expanded.map fun p => p.1.sourcePath)).1
    rw [← hregistry] at hend
    have hsame : (t.node.registry.dropSources ((s.group.getD []).map Prod.fst)).fresh=t.node.registry.fresh := rfl
    omega
  have hother (x : ℕ) (hx : x≠session.sequence) : n.sessions.get x=t.node.sessions.get x := by
    rw [hn]
    exact OrderedMap.get_insert_of_ne hx
  have hold:=h.sessions session.sequence s hs
  refine ⟨hdated₂ (hdated₁ h.dated),?_,?_,?_,?_,?_,?_⟩
  · intro x hx
    simp only [hissued]
    obtain ⟨sx,hsx⟩:=OrderedMap.mem_keys.mp hx
    by_cases hxs : x=session.sequence
    · rw [hxs]
      exact h.bounded _ (OrderedMap.mem_keys.mpr ⟨s,hs⟩)
    · exact h.bounded x (OrderedMap.mem_keys.mpr ⟨sx,(hother x hxs).symm.trans hsx⟩)
  · simp only [hissued]
    exact h.created
  · intro x sx hsx
    simp only at hsx
    by_cases hxs : x=session.sequence
    · subst hxs
      obtain rfl:=Option.some.inj (hnget.symm.trans hsx)
      have hof : Traced.appliesOf ⟨n,t.created,t.applied++[a],t.installed++group.map fun handle => (session.sequence,handle.2)⟩
          session.sequence=t.appliesOf session.sequence++[a] := by
        simp [Traced.appliesOf,ha]
      refine ⟨?_,?_,?_,?_,?_⟩
      · rw [hof,List.map_append,hold.revisions,hs',range'_succ_end]
        rfl
      · rw [hof,List.getLast?_append,hs']
        rfl
      · intro g hg handle hh
        simp only [hs',Session.groups,Option.toList_some,List.singleton_append,List.mem_cons,List.mem_append] at hg
        rcases hg with rfl | hg | hg
        · exact lt_of_lt_of_le (hfresh handle hh).2 hlater₂.fresh
        · exact lt_of_lt_of_le (hold.groups g (List.mem_append_right _ (hkeep g hg)) handle hh) hlater.fresh
        · exact lt_of_lt_of_le (hold.groups g (List.mem_append_left _ hg) handle hh) hlater.fresh
      · rw [hs']
        intro hnone
        contradiction
      · intro g b hg hb hcurrent
        rw [hof,List.getLast?_append] at hb
        cases hb
        rw [hs'] at hg
        cases hg
        have hphase : phase n.registry s'=.active := by
          simp only at hcurrent
          simp [phase,hs',hcurrent]
        change n.snapshot session.sequence s'=_
        rw [Node.snapshot,hphase]
    · refine (h.sessions x sx ((hother x hxs).symm.trans hsx)).later ?_ hinc hlater
      simp [Traced.appliesOf,ha,Ne.symm hxs]
  · intro b hb
    simp only [hissued,hinc]
    rcases List.mem_append.mp hb with hb | hb
    · exact h.applied b hb
    · rw [List.mem_singleton.mp hb]
      refine ⟨(h.bounded _ (OrderedMap.mem_keys.mpr ⟨s,hs⟩)).2,?_⟩
      rw [← hid]
      exact hvalid
  · intro e he
    simp only [hissued]
    rcases List.mem_append.mp he with he | he
    · exact ⟨(h.installed e he).1,lt_of_lt_of_le (h.installed e he).2 hlater.fresh⟩
    · obtain ⟨handle,hmem,rfl⟩:=List.mem_map.mp he
      exact ⟨(h.bounded _ (OrderedMap.mem_keys.mpr ⟨s,hs⟩)).2,lt_of_lt_of_le (hfresh handle hmem).2 hlater₂.fresh⟩
  · intro source entry x hget hmem
    simp only at hget
    rcases List.mem_append.mp hmem with hmem | hmem
    · have hlt:=(h.installed _ hmem).2
      simp only at hlt
      have hmid:=hlater₂.entries source entry (lt_of_lt_of_le hlt hlater₁.fresh) hget
      have hx : x≠session.sequence := by
        intro heq
        exact (install_registered h hs hreplace hmid).2 hlt (heq ▸ hmem)
      obtain ⟨sx,g,hsx,hrest⟩:=h.registered source entry x (hlater.entries source entry hlt hget) hmem
      exact ⟨sx,g,(hother x hx).trans hsx,hrest⟩
    · obtain ⟨handle,hhandle,heq⟩:=List.mem_map.mp hmem
      cases heq
      have hmid:=hlater₂.entries source handle.2 (hfresh handle hhandle).2 hget
      refine ⟨s',group,hnget,by rw [hs'],by rw [hs'],?_⟩
      exact (install_registered h hs hreplace hmid).1 ⟨handle,hhandle,rfl⟩

/-- What every step of a node keeps: a number is not used again, a closing session stays
closing, and a revision stays or is followed by the next. -/
structure Onward (n n' : Node) : Prop where
  incarnation : n'.incarnation=n.incarnation
  issued : n.issued≤n'.issued
  retired : ∀ k≤n.issued, n.sessions.get k=none → n'.sessions.get k=none
  closing : ∀ k≤n.issued, (∀ s, n.sessions.get k=some s → s.closing=true) →
    ∀ s, n'.sessions.get k=some s → s.closing=true
  revision : ∀ k s s', n.sessions.get k=some s → n'.sessions.get k=some s' →
    s'.revision=s.revision ∧ s'.policies=s.policies ∨ s'.revision=s.revision+1

theorem onward_refl (n : Node) : Onward n n := by
  refine ⟨rfl,le_rfl,fun _ _ h => h,fun _ _ h => h,?_⟩
  intro k s s' hs hs'
  obtain rfl:=Option.some.inj (hs.symm.trans hs')
  exact .inl ⟨rfl,rfl⟩

theorem onward_registry (n : Node) (r : Registry) : Onward n {n with registry:=r} := by
  have h:=onward_refl n
  exact ⟨rfl,le_rfl,h.retired,h.closing,h.revision⟩

theorem onward_insert {n : Node} (r : Registry) {s' : Session} (hs : n.sessions.get k=some s)
    (hclosing : s.closing=true → s'.closing=true)
    (hrevision : s'.revision=s.revision ∧ s'.policies=s.policies ∨ s'.revision=s.revision+1) :
    Onward n {n with sessions:=n.sessions.insert k s',registry:=r} := by
  refine ⟨rfl,le_rfl,?_,?_,?_⟩
  · intro x _ hnone
    change (n.sessions.insert k s').get x=none
    rw [OrderedMap.get_insert_of_ne]
    · exact hnone
    · intro hx
      rw [hx,hs] at hnone
      contradiction
  · intro x _ hall sx hsx
    change (n.sessions.insert k s').get x=some sx at hsx
    rw [OrderedMap.get_insert] at hsx
    split at hsx
    · rename_i hx
      cases hsx
      exact hclosing (hall s (hx ▸ hs))
    · exact hall sx hsx
  · intro x sx sx' hsx hsx'
    change (n.sessions.insert k s').get x=some sx' at hsx'
    rw [OrderedMap.get_insert] at hsx'
    split at hsx'
    · rename_i hx
      cases hsx'
      obtain rfl:=Option.some.inj (hs.symm.trans (hx ▸ hsx))
      exact hrevision
    · obtain rfl:=Option.some.inj (hsx.symm.trans hsx')
      exact .inl ⟨rfl,rfl⟩

theorem onward_trim {n : Node} {sessions : OrderedMap ℕ Session} (htrim : Trimmed n.sessions sessions) :
    Onward n {n with sessions:=sessions} := by
  refine ⟨rfl,le_rfl,?_,?_,?_⟩
  · intro x _ hnone
    have hrel:=htrim x
    rw [hnone] at hrel
    change sessions.get x=none
    generalize sessions.get x=o at hrel
    cases hrel with
    | none => rfl
  · intro x _ hall sx hsx
    have hrel:=htrim x
    change sessions.get x=some sx at hsx
    rw [hsx] at hrel
    generalize hget : n.sessions.get x=o at hrel
    cases hrel with
    | some htrims => exact htrims.closing.trans (hall _ hget)
  · intro x sx sx' hsx hsx'
    have hrel:=htrim x
    change sessions.get x=some sx' at hsx'
    rw [hsx,hsx'] at hrel
    cases hrel with
    | some htrims => exact .inl ⟨htrims.revision,htrims.policies⟩

theorem onward_create {n : Node} (s : Session) (habsent : n.sessions.get (n.issued+1)=none) :
    Onward n {n with sessions:=n.sessions.insert (n.issued+1) s,issued:=n.issued+1} := by
  have hold (x : ℕ) (hx : x≤n.issued) : (n.sessions.insert (n.issued+1) s).get x=n.sessions.get x :=
    OrderedMap.get_insert_of_ne (by omega)
  refine ⟨rfl,by simp,?_,?_,?_⟩
  · exact fun x hx hnone => (hold x hx).trans hnone
  · exact fun x hx hall sx hsx => hall sx ((hold x hx).symm.trans hsx)
  · intro x sx sx' hsx hsx'
    change (n.sessions.insert (n.issued+1) s).get x=some sx' at hsx'
    rw [OrderedMap.get_insert] at hsx'
    split at hsx'
    · rename_i hx
      rw [hx,habsent] at hsx
      contradiction
    · obtain rfl:=Option.some.inj (hsx.symm.trans hsx')
      exact .inl ⟨rfl,rfl⟩

theorem onward_close (n : Node) : Onward n n.close := by
  have hget (x : ℕ) : n.close.sessions.get x=(n.sessions.get x).map fun s => {s with closing:=true} := by
    simp [Node.close]
  refine ⟨rfl,le_rfl,?_,?_,?_⟩
  · intro x _ hnone
    rw [hget,hnone]
    rfl
  · intro x _ _ sx hsx
    rw [hget] at hsx
    obtain ⟨s,-,rfl⟩:=Option.map_eq_some_iff.mp hsx
    rfl
  · intro x sx sx' hsx hsx'
    rw [hget,hsx] at hsx'
    cases hsx'
    exact .inl ⟨rfl,rfl⟩

theorem onward_remove {n n' : Node} {k : ℕ} (hsessions : n'.sessions=n.sessions.remove k) (hissued : n'.issued=n.issued)
    (hinc : n'.incarnation=n.incarnation) : Onward n n' := by
  have hback (x : ℕ) (s : Session) (hs : n'.sessions.get x=some s) : n.sessions.get x=some s := by
    rw [hsessions,OrderedMap.get_remove] at hs
    split at hs
    · contradiction
    · exact hs
  refine ⟨hinc,hissued.ge,?_,fun x _ hall s hs => hall s (hback x s hs),?_⟩
  · intro x _ hnone
    cases hget : n'.sessions.get x with
    | none => rfl
    | some s => exact absurd (hback x s hget) (by simp [hnone])
  · intro x s s' hs hs'
    obtain rfl:=Option.some.inj (hs.symm.trans (hback x s' hs'))
    exact .inl ⟨rfl,rfl⟩

def CallInv (n : Node) : Call → Prop
  | .replied (.close id) (.ok reply) => reply=.retired id ∧ id.incarnation=n.incarnation ∧ 0 < id.sequence ∧
      id.sequence≤n.issued ∧ n.sessions.get id.sequence=none
  | .retiring id _ => id.incarnation=n.incarnation ∧ 0 < id.sequence ∧ id.sequence≤n.issued ∧
      ∀ s, n.sessions.get id.sequence=some s → s.closing=true
  | _ => True

theorem CallInv.onward {n n' : Node} {call : Call} (h : CallInv n call) (hon : Onward n n') : CallInv n' call := by
  cases call with
  | abandoned => trivial
  | retiring id groups =>
    obtain ⟨hid,hpos,hle,hall⟩:=h
    exact ⟨hid.trans hon.incarnation.symm,hpos,hle.trans hon.issued,hon.closing _ hle hall⟩
  | replied command result =>
    cases command with
    | close id =>
      cases result with
      | error e => trivial
      | ok reply =>
        obtain ⟨hreply,hid,hpos,hle,hnone⟩:=h
        exact ⟨hreply,hid.trans hon.incarnation.symm,hpos,hle.trans hon.issued,hon.retired _ hle hnone⟩
    | _ => trivial

theorem answered_close {n : Node} {reply : MirrorControlReply} {during : List RegistryEvent} {id : MirrorSessionId}
    (hexec : n.execute during (.close id)=(n,.replied (.ok reply))) : CallInv n (.replied (.close id) (.ok reply)) := by
  unfold Node.execute at hexec
  simp only [MirrorControl.validate] at hexec
  split at hexec
  · simp at hexec
  · unfold Node.fence at hexec
    rcases check_cases n id with ⟨e,he⟩ | ⟨hok,hid,hpos,hle⟩
    · simp [he] at hexec
    · rw [hok] at hexec
      cases hget : n.sessions.get id.sequence with
      | some s => simp [hget] at hexec
      | none =>
        simp only [hget,Prod.mk.injEq,Outcome.replied.injEq,Except.ok.injEq,true_and] at hexec
        exact ⟨hexec.symm,hid,hpos,hle,hget⟩

theorem execute_inv (h : Fenced t) (during : List RegistryEvent) (command : MirrorControl) :
    Fenced (t.record command (t.node.execute during command).1 (t.node.execute during command).2) ∧
      Onward t.node (t.node.execute during command).1 ∧
      CallInv (t.node.execute during command).1 ((t.node.execute during command).2.call command) := by
  have hexec:=execute_executed t.node during command fun k hk => (h.bounded k hk).2
  generalize hresult : t.node.execute during command=result at hexec
  obtain ⟨n,outcome⟩:=result
  simp only at hexec ⊢
  cases hexec with
  | refused command e sessions htrim =>
    have hnone : t.newApply command (.replied (.error e))=none := by cases command <;> rfl
    rw [record_same (n := {t.node with sessions:=sessions}) command rfl hnone]
    refine ⟨h.trim htrim,onward_trim htrim,?_⟩
    cases command <;> trivial
  | answered command reply hreports hcommand =>
    rw [record_same command rfl (newApply_none hcommand)]
    refine ⟨h,onward_refl _,?_⟩
    cases command with
    | close id => exact answered_close hresult
    | _ => trivial
  | repeated session s hid hs =>
    obtain ⟨hlater,hdated⟩:=later_events t.node.registry during
    have hnone : t.newApply (.apply session s.revision s.policies)
        (.replied (.ok ((t.node.meanwhile during).snapshot session.sequence s)))=none := by
      simp [Traced.newApply,hs]
    rw [record_same (n := t.node.meanwhile during) _ rfl hnone]
    exact ⟨h.registry hlater (hdated h.dated),onward_registry _ _,trivial⟩
  | created command owner hnew habsent hcommand =>
    refine ⟨created_fenced h owner hcommand,onward_create _ habsent,?_⟩
    cases command with
    | close id =>
      -- `close` never creates a session.
      exfalso
      unfold Node.execute at hresult
      simp only [MirrorControl.validate] at hresult
      split at hresult
      · simp at hresult
      · unfold Node.fence at hresult
        split at hresult
        · simp at hresult
        · split at hresult
          · have hissued:=congrArg (fun p : Node × Outcome => p.1.issued) hresult
            simp at hissued
          · simp at hresult
    | _ => trivial
  | installed session policies s keep expanded registry group hvalid hid hs hclosing hkeep hreplace s' n hs' hn =>
    refine ⟨installed_fenced h hvalid hid hs hkeep hreplace hs' hn,?_,trivial⟩
    rw [hn]
    exact onward_insert _ hs (by simp [hclosing]) (.inr (by rw [hs']))
  | fenced session s hid hseq hs =>
    rw [record_same (n := {t.node with
      sessions := t.node.sessions.insert session.sequence {s with closing:=true}
      registry := cancelAll t.node.registry s.groups}) _ rfl (newApply_none (by simp))]
    refine ⟨fenced_fenced h hs,onward_insert _ hs (by simp) (.inl ⟨rfl,rfl⟩),hid,hseq.1,hseq.2,?_⟩
    intro s' hs'
    change (t.node.sessions.insert session.sequence {s with closing:=true}).get session.sequence=some s' at hs'
    rw [OrderedMap.get_insert_self] at hs'
    cases hs'
    rfl

end Parrot.Mirror
