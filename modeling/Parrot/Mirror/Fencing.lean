import Mathlib.Data.List.Range
import Parrot.Mirror.Control

/-! # Generations of mirror sessions

What one call of `execute` can do, and what follows for every order of calls: numbers are not
reused, revisions advance by one, and a retired session has no policy left. -/

namespace Parrot.Mirror
open Machine Threads

namespace Registry

structure Later (r r' : Registry) : Prop where
  fresh : r.fresh ≤ r'.fresh
  opened : r'.opened=true → r.opened=true
  entries : ∀ source entry, entry < r.fresh → r'.entries.get source=some entry → r.entries.get source=some entry
  workers : ∀ entry, entry < r.fresh → entry∈r'.workers → entry∈r.workers

def Dated (r : Registry) : Prop := ∀ source entry, r.entries.get source=some entry → entry < r.fresh

variable {r r' r'' : Registry}

theorem Later.refl (r : Registry) : Later r r := ⟨le_rfl,fun h => h,fun _ _ _ h => h,fun _ _ h => h⟩

theorem Later.trans (h : Later r r') (h' : Later r' r'') : Later r r'' := by
  refine ⟨h.fresh.trans h'.fresh,fun ho => h.opened (h'.opened ho),?_,?_⟩
  · exact fun s e he hget => h.entries s e he (h'.entries s e (lt_of_lt_of_le he h.fresh) hget)
  · exact fun e he hw => h.workers e he (h'.workers e (lt_of_lt_of_le he h.fresh) hw)

theorem later_shrink (hfresh : r'.fresh=r.fresh) (hopened : r'.opened=true → r.opened=true)
    (hentries : ∀ source entry, r'.entries.get source=some entry → r.entries.get source=some entry)
    (hworkers : ∀ entry∈r'.workers, entry∈r.workers) : Later r r' ∧ (Dated r → Dated r') := by
  refine ⟨⟨hfresh.ge,hopened,fun s e _ => hentries s e,fun e _ => hworkers e⟩,?_⟩
  intro hdated s e hget
  rw [hfresh]
  exact hdated s e (hentries s e hget)

theorem later_spawnAll (r : Registry) (sources : List String) :
    Later r (r.spawnAll sources).1 ∧ (Dated r → Dated (r.spawnAll sources).1) := by
  obtain ⟨hfresh,hopened,-,-,hworkers⟩:=spawnAll_fields r sources
  obtain ⟨-,hids⟩:=spawnAll_group r sources
  refine ⟨⟨by omega,fun h => hopened ▸ h,?_,?_⟩,?_⟩
  · intro s e he hget
    rcases get_spawnAll r sources hget with ⟨-,hget⟩ | hmem
    · exact hget
    · have:=(hids _ hmem).1
      simp only at this
      omega
  · intro e he hw
    induction sources generalizing r with
    | nil => exact hw
    | cons s sources ih =>
      simp only [spawnAll] at hw
      obtain ⟨hfresh,hopened,-,-,hworkers⟩:=spawnAll_fields (r.spawn s) sources
      have:=ih (r.spawn s) hfresh hopened hworkers (spawnAll_group (r.spawn s) sources).2
        (by rw [spawn_fresh]; omega) hw
      rcases List.mem_cons.mp this with rfl | hmem
      · omega
      · exact hmem
  · intro hdated s e hget
    rcases get_spawnAll r sources hget with ⟨-,hget⟩ | hmem
    · have:=hdated s e hget
      omega
    · have:=(hids _ hmem).2
      simp only at this
      omega

theorem later_dropSources (r : Registry) (sources : List String) :
    Later r (r.dropSources sources) ∧ (Dated r → Dated (r.dropSources sources)) := by
  refine later_shrink rfl (fun h => h) ?_ fun e he => he
  intro s e hget
  rw [get_dropSources] at hget
  split at hget
  · contradiction
  · exact hget

theorem later_replaceGroup {previous : Option Group} {policies : List (WireMirrorPolicy × WireMirrorOptions)} {group : Group}
    (h : r.replaceGroup previous policies=.ok (r',group)) : Later r r' ∧ (Dated r → Dated r') := by
  have hres:=(replaceGroup_ok h).result
  obtain ⟨hdrop,hdated⟩:=later_dropSources r ((previous.getD []).map Prod.fst)
  obtain ⟨hspawn,hdated'⟩:=later_spawnAll (r.dropSources ((previous.getD []).map Prod.fst))
    (policies.map fun p => p.1.sourcePath)
  rw [← hres] at hspawn hdated'
  exact ⟨hdrop.trans hspawn,fun hd => hdated' (hdated hd)⟩

theorem later_cancel (r : Registry) (group : Group) : Later r (r.cancel group) ∧ (Dated r → Dated (r.cancel group)) := by
  obtain ⟨hfresh,hopened,hworkers,-⟩:=cancel_fields (r := r) group
  refine later_shrink hfresh (fun h => hopened ▸ h) (fun s e hget => ((get_cancel group).mp hget).1) ?_
  intro e he
  rwa [hworkers] at he

theorem later_register {policy : WireMirrorPolicy} {options : WireMirrorOptions} {entry : ℕ}
    (h : r.register policy options=.ok (r',entry)) : Later r r' ∧ (Dated r → Dated r') := by
  obtain ⟨rfl,-⟩:=register_ok h
  exact later_spawnAll r [policy.sourcePath]

end Registry

theorem RegistryEvent.later (r : Registry) (event : RegistryEvent) :
    Registry.Later r (event.apply r) ∧ (Registry.Dated r → Registry.Dated (event.apply r)) := by
  cases event with
  | retire entry => exact Registry.later_shrink rfl (fun h => h) (fun _ _ h => h) fun e he => List.mem_of_mem_erase he
  | register policy options =>
    simp only [apply]
    cases h : r.register policy options with
    | error e => exact ⟨.refl r,fun h => h⟩
    | ok p => exact Registry.later_register h
  | registerGroup policies =>
    simp only [apply]
    cases h : r.registerGroup policies with
    | error e => exact ⟨.refl r,fun h => h⟩
    | ok p => exact Registry.later_replaceGroup h
  | cancel group => exact Registry.later_cancel r group
  | remove source =>
    refine Registry.later_shrink rfl (fun h => h) ?_ fun e he => he
    intro s e hget
    simp only [apply,Registry.remove,OrderedMap.get_remove] at hget
    split at hget
    · contradiction
    · exact hget
  | close =>
    refine Registry.later_shrink rfl (fun h => by contradiction) ?_ fun e he => he
    intro s e hget
    simp [apply,Registry.close] at hget

theorem later_events (r : Registry) (during : List RegistryEvent) :
    Registry.Later r (during.foldl RegistryEvent.apply r) ∧
      (Registry.Dated r → Registry.Dated (during.foldl RegistryEvent.apply r)) := by
  induction during generalizing r with
  | nil => exact ⟨.refl r,fun h => h⟩
  | cons event during ih =>
    obtain ⟨hlater,hdated⟩:=event.later r
    obtain ⟨hrest,hrestDated⟩:=ih (event.apply r)
    exact ⟨hlater.trans hrest,fun hd => hrestDated (hdated hd)⟩

theorem later_cancelAll (r : Registry) (groups : List Group) :
    Registry.Later r (cancelAll r groups) ∧ (Registry.Dated r → Registry.Dated (cancelAll r groups)) := by
  unfold cancelAll
  induction groups generalizing r with
  | nil => exact ⟨.refl r,fun h => h⟩
  | cons group groups ih =>
    obtain ⟨hlater,hdated⟩:=Registry.later_cancel r group
    obtain ⟨hrest,hrestDated⟩:=ih (r.cancel group)
    exact ⟨hlater.trans hrest,fun hd => hrestDated (hdated hd)⟩

theorem get_cancelAll {r : Registry} {groups : List Group} {source : String} {entry : ℕ} :
    (cancelAll r groups).entries.get source=some entry ↔
      r.entries.get source=some entry ∧ ∀ group∈groups, (source,entry)∉group := by
  unfold cancelAll
  induction groups generalizing r with
  | nil => simp
  | cons group groups ih =>
    rw [List.foldl_cons,ih,Registry.get_cancel]
    simp only [List.mem_cons,forall_eq_or_imp]
    tauto

theorem isCurrent_before {r r' : Registry} (h : Registry.Later r r') {group : Group} (hold : ∀ handle∈group, handle.2 < r.fresh)
    (hcurrent : r'.isCurrent group=true) : r.isCurrent group=true := by
  simp only [Registry.isCurrent,Bool.and_eq_true,List.all_eq_true,Bool.not_eq_true',Registry.isClosed,
    Registry.registered,decide_eq_false_iff_not,decide_eq_true_eq,not_not] at hcurrent ⊢
  refine ⟨h.opened hcurrent.1,fun handle hmem => ?_⟩
  obtain ⟨hworker,hreg⟩:=hcurrent.2 handle hmem
  exact ⟨h.workers _ (hold handle hmem) hworker,h.entries _ _ (hold handle hmem) hreg⟩

structure Session.Trims (s s' : Session) : Prop where
  owner : s'.owner=s.owner
  revision : s'.revision=s.revision
  policies : s'.policies=s.policies
  group : s'.group=s.group
  closing : s'.closing=s.closing
  retiring : ∀ g∈s'.retiring, g∈s.retiring

theorem Session.Trims.refl (s : Session) : s.Trims s := ⟨rfl,rfl,rfl,rfl,rfl,fun _ h => h⟩

def Trimmed (sessions sessions' : OrderedMap ℕ Session) : Prop := ∀ k, Option.Rel Session.Trims (sessions.get k) (sessions'.get k)

theorem Trimmed.refl (sessions : OrderedMap ℕ Session) : Trimmed sessions sessions := by
  intro k
  cases sessions.get k with
  | none => exact .none
  | some s => exact .some (.refl s)

def Reports (n : Node) : MirrorControlReply → Prop
  | .session id owner revision phase policies => ∃ s, n.sessions.get id.sequence=some s ∧
      .session id owner revision phase policies=n.snapshot id.sequence s
  | .retired id => id.incarnation=n.incarnation ∧ 0 < id.sequence ∧ id.sequence≤n.issued ∧
      n.sessions.get id.sequence=none
  | .candidate _ => True

inductive Executed (n : Node) (during : List RegistryEvent) : MirrorControl → Node → Outcome → Prop
  | refused (command : MirrorControl) (e : String) (sessions : OrderedMap ℕ Session) (h : Trimmed n.sessions sessions) :
      Executed n during command {n with sessions:=sessions} (.replied (.error e))
  | answered (command : MirrorControl) (reply : MirrorControlReply) (h : Reports n reply)
      (hcommand : ∀ session revision policies, command ≠ .apply session revision policies) :
      Executed n during command n (.replied (.ok reply))
  | repeated (session : MirrorSessionId) (s : Session) (hid : session.incarnation=n.incarnation)
      (hs : n.sessions.get session.sequence=some s) :
      Executed n during (.apply session s.revision s.policies) (n.meanwhile during)
        (.replied (.ok ((n.meanwhile during).snapshot session.sequence s)))
  | created (command : MirrorControl) (owner : String) (hnew : n.issued+1≤u64Max)
      (habsent : n.sessions.get (n.issued+1)=none)
      (hcommand : ∀ session revision policies, command ≠ .apply session revision policies) :
      Executed n during command {n with sessions:=n.sessions.insert (n.issued+1) (Session.new owner),issued:=n.issued+1}
        (.replied (.ok (n.snapshot (n.issued+1) (Session.new owner))))
  | installed (session : MirrorSessionId) (policies : List MirrorPolicySpec) (s : Session) (keep : List Group)
      (expanded : List (WireMirrorPolicy × WireMirrorOptions)) (registry : Registry) (group : Group)
      (hvalid : (MirrorControl.apply session (s.revision+1) policies).validate=.ok ())
      (hid : session.incarnation=n.incarnation) (hs : n.sessions.get session.sequence=some s)
      (hclosing : s.closing=false) (hkeep : ∀ g∈keep, g∈s.retiring)
      (hreplace : n.registry.replaceGroup s.group expanded=.ok (registry,group)) (s' : Session) (n' : Node)
      (hs' : s'=⟨s.owner,s.revision+1,policies,some group,keep++s.group.toList,false⟩)
      (hn' : n'={n with
        sessions := n.sessions.insert session.sequence s'
        registry := during.foldl RegistryEvent.apply registry}) :
      Executed n during (.apply session (s.revision+1) policies) n' (.replied (.ok (n'.snapshot session.sequence s')))
  | fenced (session : MirrorSessionId) (s : Session) (hid : session.incarnation=n.incarnation)
      (hseq : 0<session.sequence ∧ session.sequence≤n.issued) (hs : n.sessions.get session.sequence=some s) :
      Executed n during (.close session) {n with
        sessions := n.sessions.insert session.sequence {s with closing:=true}
        registry := cancelAll n.registry s.groups} (.retiring session s.groups)

variable {n n' : Node} {during : List RegistryEvent} {command : MirrorControl} {outcome : Outcome}

theorem check_cases (n : Node) (session : MirrorSessionId) : (∃ e, n.check session=.error e) ∨
    n.check session=.ok () ∧ session.incarnation=n.incarnation ∧ 0<session.sequence ∧ session.sequence≤n.issued := by
  unfold Node.check
  split
  · exact .inl ⟨_,rfl⟩
  · rename_i h
    simp only [not_or,ne_eq,not_not] at h
    exact .inr ⟨rfl,h.1,by omega,by omega⟩

theorem refused_same (n : Node) (during : List RegistryEvent) (command : MirrorControl) (e : String) :
    Executed n during command n (.replied (.error e)) := Executed.refused command e n.sessions (.refl _)

theorem insert_insert {κ α : Type} [LinearOrder κ] (m : OrderedMap κ α) (k : κ) (a b : α) :
    (m.insert k a).insert k b=m.insert k b := by
  apply OrderedMap.ext
  intro x
  simp only [OrderedMap.get_insert]
  split <;> rfl

theorem trimmed_insert {sessions : OrderedMap ℕ Session} {k : ℕ} {s : Session} {keep : List Group}
    (hs : sessions.get k=some s) (hkeep : ∀ g∈keep, g∈s.retiring) :
    Trimmed sessions (sessions.insert k {s with retiring:=keep}) := by
  intro x
  rw [OrderedMap.get_insert]
  split
  · rename_i hx
    rw [hx,hs]
    exact .some ⟨rfl,rfl,rfl,rfl,rfl,hkeep⟩
  · exact Trimmed.refl sessions x

theorem create_executed (owner : String) {sequence : ℕ} (hseq : checkedAdd n.issued 1=some sequence)
    (habsent : n.sessions.get sequence=none)
    (hcommand : ∀ session revision policies, command ≠ .apply session revision policies) :
    Executed n during command (n.create owner sequence).1 (n.create owner sequence).2 := by
  obtain ⟨rfl,hle⟩:=checkedAdd_eq_some.mp hseq
  exact Executed.created command owner hle habsent hcommand

theorem allocate_executed (owner : String) (session : MirrorSessionId) :
    Executed n during (.allocate owner session) (n.allocate owner session).1 (n.allocate owner session).2 := by
  unfold Node.allocate
  split
  · exact refused_same ..
  · rename_i hid
    simp only [not_or,ne_eq,not_not] at hid
    cases hget : n.sessions.get session.sequence with
    | some s =>
      simp only
      split
      · exact refused_same ..
      · refine Executed.answered _ _ ?_ (by simp)
        exact ⟨s,hget,rfl⟩
    | none =>
      simp only
      split
      · exact refused_same ..
      · rename_i hnext
        split
        · exact refused_same ..
        · exact create_executed owner (not_not.mp hnext) hget (by simp)

theorem openSession_executed (owner : String) (hsessions : ∀ k∈n.sessions.keys, k≤n.issued) :
    Executed n during (.openSession owner) (n.openSession owner).1 (n.openSession owner).2 := by
  unfold Node.openSession
  split
  · rename_i sequence s hfind
    have hget : n.sessions.get sequence=some s := OrderedMap.get_eq_some.mpr (List.mem_of_find?_eq_some hfind)
    refine Executed.answered _ _ ?_ (by simp)
    exact ⟨s,hget,rfl⟩
  · split
    · exact refused_same ..
    · split
      · exact refused_same ..
      · rename_i sequence hnext
        refine create_executed owner hnext (OrderedMap.get_eq_none.mpr fun hk => ?_) (by simp)
        have:=hsessions sequence hk
        obtain ⟨rfl,-⟩:=checkedAdd_eq_some.mp hnext
        omega

variable (session : MirrorSessionId)

theorem status_executed : Executed n during (.status session) (n.status session).1 (n.status session).2 := by
  unfold Node.status
  rcases check_cases n session with ⟨e,he⟩ | ⟨hok,hid,hpos,hle⟩
  · rw [he]
    exact refused_same ..
  · rw [hok]
    cases hget : n.sessions.get session.sequence with
    | some s =>
      refine Executed.answered _ _ ?_ (by simp)
      exact ⟨s,hget,rfl⟩
    | none =>
      refine Executed.answered _ _ ?_ (by simp)
      exact ⟨hid,hpos,hle,hget⟩

theorem fence_executed : Executed n during (.close session) (n.fence session).1 (n.fence session).2 := by
  unfold Node.fence
  rcases check_cases n session with ⟨e,he⟩ | ⟨hok,hid,hpos,hle⟩
  · rw [he]
    exact refused_same ..
  · rw [hok]
    cases hget : n.sessions.get session.sequence with
    | some s => exact Executed.fenced session s hid ⟨hpos,hle⟩ hget
    | none =>
      refine Executed.answered _ _ ?_ (by simp)
      exact ⟨hid,hpos,hle,hget⟩

theorem candidate_executed : Executed n during .candidate n.candidate.1 n.candidate.2 := by
  unfold Node.candidate
  split
  · exact refused_same ..
  · exact Executed.answered _ _ trivial (by simp)

theorem apply_executed (revision : ℕ) (policies : List MirrorPolicySpec)
    (hvalid : (MirrorControl.apply session revision policies).validate=.ok ()) :
    Executed n during (.apply session revision policies) (n.apply during session revision policies).1
      (n.apply during session revision policies).2 := by
  unfold Node.apply
  rcases check_cases n session with ⟨e,he⟩ | ⟨hok,hid,hpos,hle⟩
  · rw [he]
    exact refused_same ..
  · rw [hok]
    cases hget : n.sessions.get session.sequence with
    | none => exact refused_same ..
    | some s =>
      simp only
      split
      · exact refused_same ..
      · rename_i hclosing
        split
        · rename_i hrev
          split
          · exact refused_same ..
          · rename_i hsame
            rw [not_or,ne_eq,not_not] at hsame
            obtain ⟨rfl,-⟩:=hsame
            subst hrev
            exact Executed.repeated session s hid hget
        · split
          · exact refused_same ..
          · rename_i hnext
            obtain ⟨rfl,-⟩:=checkedAdd_eq_some.mp (not_not.mp hnext)
            have hkeep : ∀ g∈s.retiring.filter fun group => !n.registry.isFinished group, g∈s.retiring :=
              fun g hg => (List.mem_filter.mp hg).1
            cases hexpand : policies.mapM MirrorPolicySpec.expand with
            | error e => exact Executed.refused _ _ _ (trimmed_insert hget hkeep)
            | ok expanded =>
              simp only
              cases hreplace : n.registry.replaceGroup s.group expanded with
              | error e => exact Executed.refused _ _ _ (trimmed_insert hget hkeep)
              | ok p =>
                obtain ⟨registry,group⟩:=p
                simp only [Node.install,Node.meanwhile,insert_insert,OrderedMap.get_insert_self]
                exact Executed.installed session policies s _ expanded registry group hvalid hid hget (by simpa using hclosing)
                  hkeep hreplace _ _ (by simp [hclosing]) rfl

theorem execute_executed (n : Node) (during : List RegistryEvent) (command : MirrorControl)
    (hsessions : ∀ k∈n.sessions.keys, k≤n.issued) :
    Executed n during command (n.execute during command).1 (n.execute during command).2 := by
  unfold Node.execute
  cases hvalid : command.validate with
  | error e => exact refused_same ..
  | ok _ =>
    simp only
    split
    · exact refused_same ..
    · cases command with
      | candidate => exact candidate_executed
      | allocate owner session => exact allocate_executed owner session
      | openSession owner => exact openSession_executed owner hsessions
      | status session => exact status_executed session
      | apply session revision policies => exact apply_executed session revision policies hvalid
      | close session => exact fence_executed session

end Parrot.Mirror
