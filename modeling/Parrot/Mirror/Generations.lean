import Parrot.Mirror.Sessions

/-! # Every order of calls

The invariant of `Sessions` through the steps of a pool of callers, and what it says to them. -/

namespace Parrot.Mirror
open Machine Threads

variable {t : Traced} {n : Node} {during : List RegistryEvent} {command : MirrorControl}

def Shut (n : Node) : Prop := n.opened=false → ∀ k s, n.sessions.get k=some s → s.closing=true

theorem execute_opened (h : Fenced t) (during : List RegistryEvent) (command : MirrorControl) :
    (t.node.execute during command).1.opened=t.node.opened := by
  have hexec:=execute_executed t.node during command fun k hk => (h.bounded k hk).2
  generalize t.node.execute during command=result at hexec
  obtain ⟨n,outcome⟩:=result
  simp only at hexec ⊢
  cases hexec with
  | installed session policies s keep expanded registry group hvalid hid hs hclosing hkeep hreplace s' n hs' hn => rw [hn]
  | _ => rfl

theorem execute_closed (h : n.opened=false) (during : List RegistryEvent) (command : MirrorControl) :
    ∃ e, n.execute during command=(n,.replied (.error e)) := by
  unfold Node.execute
  cases command.validate with
  | error e => exact ⟨e,rfl⟩
  | ok _ => exact ⟨"mirror control is shut down",by simp [h]⟩

theorem execute_shut (h : Fenced t) (hshut : Shut t.node) (during : List RegistryEvent) (command : MirrorControl) :
    Shut (t.node.execute during command).1 := by
  intro hclosed
  rw [execute_opened h] at hclosed
  obtain ⟨e,he⟩:=execute_closed hclosed during command
  rw [he]
  exact hshut hclosed

theorem close_shut (n : Node) : Shut n.close := by
  intro _ k s hs
  simp only [Node.close,OrderedMap.get_mapValues,Option.map_eq_some_iff] at hs
  obtain ⟨s,-,rfl⟩:=hs
  rfl

structure PoolInv (p : Pool Traced Call) : Prop where
  fenced : Fenced p.shared
  shut : Shut p.shared.node
  calls : ∀ call∈p.threads, CallInv p.shared.node call

variable {p p' : Pool Traced Call} {a : Action Event Move}

theorem calls_enter {node : Node} (hcalls : ∀ call∈p.threads, CallInv p.shared.node call) (hon : Onward p.shared.node node)
    {call : Option Call} (hnew : ∀ c∈call, CallInv node c) : ∀ c∈p.threads++call.toList, CallInv node c := by
  intro c hc
  rcases List.mem_append.mp hc with hc | hc
  · exact (hcalls c hc).onward hon
  · exact hnew c (by simpa using hc)

theorem calls_step {node : Node} {l r : List Call} {call call' : Call} (hon : Onward n node)
    (hcalls : ∀ c∈l++call::r, CallInv n c) (hnew : CallInv node call') : ∀ c∈l++call'::r, CallInv node c := by
  intro c hc
  simp only [List.mem_append,List.mem_cons] at hc hcalls
  rcases hc with hc | rfl | hc
  · exact (hcalls c (.inl hc)).onward hon
  · exact hnew
  · exact (hcalls c (.inr (.inr hc))).onward hon

theorem enter_inv (h : PoolInv p) {event : Event} {s : Traced} {call : Option Call}
    (henter : Traced.enter event p.shared=some (s,call)) :
    PoolInv ⟨s,p.threads++call.toList⟩ ∧ Onward p.shared.node s.node := by
  cases event with
  | call command during =>
    cases henter
    obtain ⟨hfenced,hon,hcall⟩:=execute_inv h.fenced during command
    refine ⟨⟨hfenced,execute_shut h.fenced h.shut during command,calls_enter h.calls hon ?_⟩,hon⟩
    intro c hc
    cases hc
    exact hcall
  | close =>
    cases henter
    have hon:=onward_close p.shared.node
    exact ⟨⟨close_fenced h.fenced,close_shut _,calls_enter h.calls hon (by simp)⟩,hon⟩
  | registry event =>
    cases henter
    obtain ⟨hlater,hdated⟩:=event.later p.shared.node.registry
    have hon:=onward_registry p.shared.node (event.apply p.shared.node.registry)
    exact ⟨⟨h.fenced.registry hlater (hdated h.fenced.dated),h.shut,calls_enter h.calls hon (by simp)⟩,hon⟩

theorem step_inv {move : Move} {call call' : Call} {s : Traced} {l r : List Call} (h : PoolInv p)
    (hl : p.threads=l++call::r) (hstep : Traced.step move p.shared call=some (s,call')) :
    PoolInv ⟨s,l++call'::r⟩ ∧ Onward p.shared.node s.node := by
  have hcalls:=h.calls
  rw [hl] at hcalls
  have hcall:=hcalls call (by simp)
  cases call with
  | replied | abandoned => cases move <;> contradiction
  | retiring id groups =>
    obtain ⟨hid,hpos,hle,hclosing⟩:=hcall
    cases move with
    | finish =>
      simp only [Traced.step,step,Option.map_map,Option.map_eq_some_iff,Function.comp_apply,Prod.mk.injEq] at hstep
      obtain ⟨node,hfinish,rfl,rfl⟩:=hstep
      obtain ⟨hfenced,hsessions,hissued,hinc⟩:=finish_fenced h.fenced hclosing hfinish
      have hon : Onward p.shared.node node := onward_remove hsessions hissued hinc
      refine ⟨⟨hfenced,?_,calls_step hon hcalls ?_⟩,hon⟩
      · intro hopened k s hs
        change node.sessions.get k=some s at hs
        rw [hsessions,OrderedMap.get_remove] at hs
        split at hs
        · contradiction
        · refine h.shut ?_ k s hs
          rw [← hopened]
          unfold Node.finish at hfinish
          simp only [Option.ite_none_right_eq_some,Option.some.injEq] at hfinish
          rw [← hfinish.2]
      · refine ⟨rfl,hid.trans hinc.symm,hpos,hle.trans hissued.ge,?_⟩
        change node.sessions.get id.sequence=none
        rw [hsessions]
        simp
    | timeout | abandon =>
      cases hstep
      exact ⟨⟨h.fenced,h.shut,calls_step (onward_refl _) hcalls trivial⟩,onward_refl _⟩

theorem next_inv (h : PoolInv p) (hnext : Traced.program.next p a=some p') :
    PoolInv p' ∧ Onward p.shared.node p'.shared.node := by
  obtain ⟨e,s,call,-,he,rfl⟩ | ⟨move,l,call,r,s,call',-,hl,hs,rfl⟩:=Program.next_cases hnext
  · exact enter_inv h he
  · exact step_inv h hl hs

theorem start_inv (incarnation : BitVec 128) (node : Option String) : PoolInv ⟨Traced.start incarnation node,[]⟩ := by
  have hkeys : (Traced.start incarnation node).node.sessions.keys=[] := rfl
  have hentries (source : String) : (Traced.start incarnation node).node.registry.entries.get source=none := rfl
  have hsessions (k : ℕ) : (Traced.start incarnation node).node.sessions.get k=none := rfl
  refine ⟨⟨?_,?_,rfl,?_,?_,?_,?_⟩,?_,?_⟩
  · intro source entry hget
    rw [hentries] at hget
    contradiction
  · simp [hkeys]
  · simp [hsessions]
  · simp [Traced.start]
  · simp [Traced.start]
  · simp [hentries]
  · simp [Shut,hsessions]
  · simp

theorem run_inv {incarnation : BitVec 128} {node : Option String} {actions : List (Action Event Move)}
    (hrun : Traced.program.run ⟨Traced.start incarnation node,[]⟩ actions=some p) : PoolInv p :=
  Program.run_invariant (C := fun _ _ => True) (fun _ _ _ hp _ hnext => (next_inv hp hnext).1)
    (start_inv incarnation node) Program.along_true hrun

theorem execute_fresh (h : Fenced t) {k : ℕ} (hk : k∈(t.node.execute during command).1.sessions.keys)
    (hnew : k∉t.node.sessions.keys) : k=t.node.issued+1 := by
  have hexec:=execute_executed t.node during command fun k hk => (h.bounded k hk).2
  generalize t.node.execute during command=result at hexec hk
  obtain ⟨n,outcome⟩:=result
  simp only at hexec hk
  have hinsert {x : ℕ} {s s' : Session} (hs : t.node.sessions.get x=some s)
      (hk : k∈(t.node.sessions.insert x s').keys) : k∈t.node.sessions.keys := by
    rcases OrderedMap.mem_keys_insert.mp hk with rfl | hk
    · exact OrderedMap.mem_keys.mpr ⟨s,hs⟩
    · exact hk
  cases hexec with
  | refused command e sessions htrim =>
    obtain ⟨s,hs⟩:=OrderedMap.mem_keys.mp hk
    change sessions.get k=some s at hs
    have hrel:=htrim k
    rw [hs,OrderedMap.get_eq_none.mpr hnew] at hrel
    cases hrel
  | answered | repeated => exact absurd hk hnew
  | created command owner hle habsent hcommand =>
    rcases OrderedMap.mem_keys_insert.mp hk with rfl | hk
    · rfl
    · exact absurd hk hnew
  | installed session policies s keep expanded registry group hvalid hid hs hclosing hkeep hreplace s' n hs' hn =>
    rw [hn] at hk
    exact absurd (hinsert hs hk) hnew
  | fenced session s hid hseq hs => exact absurd (hinsert hs hk) hnew

variable {id : MirrorSessionId}

theorem execute_reports (h : Fenced t) {owner : String} {revision : ℕ} {ph : MirrorSessionPhase}
    {policies : List MirrorPolicySpec}
    (hreply : (t.node.execute during command).2=.replied (.ok (.session id owner revision ph policies))) :
    ∃ s, (t.node.execute during command).1.sessions.get id.sequence=some s ∧ s.owner=owner ∧ s.revision=revision ∧
      s.policies=policies := by
  have hexec:=execute_executed t.node during command fun k hk => (h.bounded k hk).2
  generalize t.node.execute during command=result at hexec hreply
  obtain ⟨n,outcome⟩:=result
  simp only at hexec hreply ⊢
  subst hreply
  generalize hr : MirrorControlReply.session id owner revision ph policies=reply at hexec
  have hsnapshot {n : Node} {k : ℕ} {s : Session}
      (hr : MirrorControlReply.session id owner revision ph policies=n.snapshot k s) :
      id.sequence=k ∧ s.owner=owner ∧ s.revision=revision ∧ s.policies=policies := by
    simp only [Node.snapshot,MirrorControlReply.session.injEq] at hr
    obtain ⟨rfl,rfl,rfl,-,rfl⟩:=hr
    exact ⟨rfl,rfl,rfl,rfl⟩
  cases hexec with
  | answered command reply hreports hcommand =>
    subst hr
    obtain ⟨s,hs,hr⟩:=hreports
    exact ⟨s,hs,(hsnapshot hr).2⟩
  | repeated session s hid hs =>
    obtain ⟨hseq,hrest⟩:=hsnapshot hr
    exact ⟨s,hseq ▸ hs,hrest⟩
  | created command owner hle habsent hcommand =>
    obtain ⟨hseq,hrest⟩:=hsnapshot hr
    refine ⟨_,?_,hrest⟩
    rw [hseq]
    exact OrderedMap.get_insert_self
  | installed session policies s keep expanded registry group hvalid hid hs hclosing hkeep hreplace s' n hs' hn =>
    obtain ⟨hseq,hrest⟩:=hsnapshot hr
    refine ⟨s',?_,hrest⟩
    rw [hseq,hn]
    exact OrderedMap.get_insert_self

theorem execute_repeat (h : Fenced t) (hshut : Shut t.node) {k : ℕ} {s : Session} {b : Applied}
    (hs : t.node.sessions.get k=some s) (hlast : (t.appliesOf k).getLast? = some b)
    (hphase : phase t.node.registry s=.active) :
    t.node.execute [] (.apply ⟨t.node.incarnation,k⟩ b.revision b.policies)=(t.node,.replied (.ok b.reply)) := by
  have hinv:=h.sessions k s hs
  have hclosing : s.closing=false := by
    by_contra hc
    rw [Bool.not_eq_false] at hc
    simp [phase,hc] at hphase
  have hopened : t.node.opened=true := by
    by_contra ho
    have:=hshut (by simpa using ho) k s hs
    simp [hclosing] at this
  obtain ⟨g,hg,hcurrent⟩ : ∃ g, s.group=some g ∧ t.node.registry.isCurrent g=true := by
    cases hgroup : s.group with
    | none => simp [phase,hclosing,hgroup] at hphase
    | some g =>
      refine ⟨g,rfl,?_⟩
      by_contra hc
      simp [phase,hclosing,hgroup,hc] at hphase
  have hmem : b∈t.appliesOf k := List.mem_of_getLast? hlast
  have hof : b∈t.applied ∧ b.session=k := by simpa [Traced.appliesOf] using hmem
  have hvalid:=(h.applied b hof.1).2
  rw [hof.2] at hvalid
  have hpolicies : b.policies=s.policies := by
    have:=hinv.policies
    rw [hlast] at this
    exact this.symm
  have hrevision : b.revision=s.revision := by
    have hrevs:=congrArg List.getLast? hinv.revisions
    rw [List.getLast?_map,hlast] at hrevs
    cases hrev : s.revision with
    | zero => simp [hrev] at hrevs
    | succ m =>
      rw [hrev,range'_succ_end,List.getLast?_append] at hrevs
      exact Option.some.inj hrevs
  have hcheck : t.node.check ⟨t.node.incarnation,k⟩=.ok () := by
    obtain ⟨hpos,hle⟩:=h.bounded k (OrderedMap.mem_keys.mpr ⟨s,hs⟩)
    unfold Node.check
    rw [if_neg]
    simp only [ne_eq,not_true_eq_false,false_or,not_or]
    omega
  have hreply:=hinv.current g b hg hlast hcurrent
  unfold Node.execute
  rw [hvalid]
  simp only [hopened,Bool.not_true,Bool.false_eq_true,if_false,Node.apply,hcheck,hs,hclosing,hrevision,if_true,hpolicies,hg,
    Option.any_some,hcurrent,ne_eq,not_true_eq_false,Bool.true_eq_false,or_self]
  rw [hreply]
  simp [Node.meanwhile,Node.snapshot,hphase]

theorem execute_refused (h : Fenced t) {e : String} (herror : (t.node.execute during command).2=.replied (.error e)) :
    (t.node.execute during command).1.registry=t.node.registry ∧
      ∀ k, ((t.node.execute during command).1.sessions.get k).map (fun s => (s.revision,s.policies)) =
        (t.node.sessions.get k).map fun s => (s.revision,s.policies) := by
  have hexec:=execute_executed t.node during command fun k hk => (h.bounded k hk).2
  generalize t.node.execute during command=result at hexec herror
  obtain ⟨n,outcome⟩:=result
  simp only at hexec herror ⊢
  subst herror
  cases hexec with
  | refused command e sessions htrim =>
    refine ⟨rfl,fun k => ?_⟩
    have hrel:=htrim k
    simp only
    generalize t.node.sessions.get k=o at hrel ⊢
    generalize sessions.get k=o' at hrel ⊢
    cases hrel with
    | none => rfl
    | some htrims => simp [htrims.revision,htrims.policies]

theorem retired_apply (hgone : n.sessions.get id.sequence=none) (revision : ℕ)
    (policies : List MirrorPolicySpec) : ∃ e, n.execute during (.apply id revision policies)=(n,.replied (.error e)) := by
  unfold Node.execute
  split
  · exact ⟨_,rfl⟩
  · split
    · exact ⟨_,rfl⟩
    · rcases check_cases n id with ⟨e,he⟩ | ⟨hok,-⟩
      · exact ⟨e,by simp [Node.apply,he]⟩
      · exact ⟨"mirror session is retired",by simp [Node.apply,hok,hgone]⟩

theorem retired_allocate (hgone : n.sessions.get id.sequence=none) (hle : id.sequence≤n.issued)
    (owner : String) : ∃ e, n.execute during (.allocate owner id)=(n,.replied (.error e)) := by
  unfold Node.execute
  split
  · exact ⟨_,rfl⟩
  · split
    · exact ⟨_,rfl⟩
    · by_cases hid : id.incarnation≠n.incarnation ∨ id.sequence=0
      · exact ⟨"unknown mirror allocation incarnation or sequence",by simp only [Node.allocate,if_pos hid]⟩
      · have hnext : checkedAdd n.issued 1≠some id.sequence := by
          intro hadd
          have:=(checkedAdd_eq_some.mp hadd).1
          omega
        exact ⟨"mirror allocation slot is retired or not next",by simp only [Node.allocate,if_neg hid,hgone,if_pos hnext]⟩

variable {reply : MirrorControlReply}

theorem openSession_snapshot {owner : String}
    (hreply : (n.execute during (.openSession owner)).2=.replied (.ok reply)) : ∃ k s, reply=n.snapshot k s := by
  unfold Node.execute at hreply
  split at hreply
  · simp at hreply
  · split at hreply
    · simp at hreply
    · unfold Node.openSession Node.create at hreply
      simp only at hreply
      split at hreply
      · rename_i sequence s _
        exact ⟨sequence,s,(Except.ok.inj (Outcome.replied.inj hreply)).symm⟩
      · split at hreply
        · simp at hreply
        · split at hreply
          · simp at hreply
          · rename_i sequence _
            exact ⟨sequence,Session.new owner,(Except.ok.inj (Outcome.replied.inj hreply)).symm⟩

theorem retired_open (h : Fenced t) (hgone : t.node.sessions.get id.sequence=none)
    (hle : id.sequence≤t.node.issued) {owner : String}
    (hreply : (t.node.execute during (.openSession owner)).2=.replied (.ok reply)) : reply.id≠id := by
  rintro rfl
  obtain ⟨k,s,rfl⟩:=openSession_snapshot hreply
  obtain ⟨s',hs',-⟩:=execute_reports h hreply
  have:=execute_fresh h (OrderedMap.mem_keys.mpr ⟨s',hs'⟩) (OrderedMap.get_eq_none.mp hgone)
  simp only [MirrorControlReply.id,Node.snapshot] at hle this
  omega

structure GenerationFenced (p : Pool Traced Call) : Prop where
  /- Numbers are issued once: the sessions have numbers that were issued, and a call that adds
  a session gives it one that was not. -/
  issued : p.shared.created.Nodup ∧ (∀ k∈p.shared.node.sessions.keys, k∈p.shared.created) ∧
    ∀ during command, ∀ k∈(p.shared.node.execute during command).1.sessions.keys, k∉p.shared.node.sessions.keys →
      k∉p.shared.created
  advances : ∀ a p', Traced.program.next p a=some p' → ∀ k s s', p.shared.node.sessions.get k=some s →
    p'.shared.node.sessions.get k=some s' → s'.revision=s.revision ∧ s'.policies=s.policies ∨ s'.revision=s.revision+1
  applied : ∀ k s, p.shared.node.sessions.get k=some s →
    (p.shared.appliesOf k).map Applied.revision=List.range' 1 s.revision ∧
      s.policies=((p.shared.appliesOf k).getLast?.map Applied.policies).getD []
  reported : ∀ during command id owner revision ph policies,
    (p.shared.node.execute during command).2=.replied (.ok (.session id owner revision ph policies)) →
      ∃ s, (p.shared.node.execute during command).1.sessions.get id.sequence=some s ∧ s.owner=owner ∧
        s.revision=revision ∧ s.policies=policies
  repeated : ∀ k s b, p.shared.node.sessions.get k=some s → (p.shared.appliesOf k).getLast? = some b →
    phase p.shared.node.registry s=.active →
      p.shared.node.execute [] (.apply ⟨p.shared.node.incarnation,k⟩ b.revision b.policies) =
        (p.shared.node,.replied (.ok b.reply))
  retired : ∀ id reply, Call.replied (.close id) (.ok reply)∈p.threads →
    reply=.retired id ∧ p.shared.node.sessions.get id.sequence=none ∧
      (∀ source entry, p.shared.node.registry.entries.get source=some entry → (id.sequence,entry)∉p.shared.installed) ∧
      (∀ during revision policies, ∃ e,
        p.shared.node.execute during (.apply id revision policies)=(p.shared.node,.replied (.error e))) ∧
      (∀ during owner, ∃ e, p.shared.node.execute during (.allocate owner id)=(p.shared.node,.replied (.error e))) ∧
      ∀ during owner reply, (p.shared.node.execute during (.openSession owner)).2=.replied (.ok reply) → reply.id≠id
  refused : ∀ during command e, (p.shared.node.execute during command).2=.replied (.error e) →
    (p.shared.node.execute during command).1.registry=p.shared.node.registry ∧
      ∀ k, ((p.shared.node.execute during command).1.sessions.get k).map (fun s => (s.revision,s.policies)) =
        (p.shared.node.sessions.get k).map fun s => (s.revision,s.policies)
  timedOut : ∀ i p', Traced.program.next p (.step i .timeout)=some p' → p'.shared=p.shared

theorem PoolInv.retired (h : PoolInv p) (hmem : Call.replied (.close id) (.ok reply)∈p.threads) : reply=.retired id ∧
    id.sequence≤p.shared.node.issued ∧ p.shared.node.sessions.get id.sequence=none ∧ ∀ source entry,
    p.shared.node.registry.entries.get source=some entry → (id.sequence,entry)∉p.shared.installed := by
  obtain ⟨hreply,-,-,hle,hgone⟩:=h.calls _ hmem
  refine ⟨hreply,hle,hgone,fun source entry hget hin => ?_⟩
  obtain ⟨s,g,hs,-⟩:=h.fenced.registered source entry id.sequence hget hin
  rw [hgone] at hs
  contradiction

theorem timeout_shared {i : ℕ} (hnext : Traced.program.next p (.step i .timeout)=some p') : p'.shared=p.shared := by
  obtain ⟨e,s,call,ha,-⟩ | ⟨move,l,call,r,s,call',ha,-,hs,rfl⟩:=Program.next_cases hnext
  · contradiction
  · obtain ⟨-,rfl⟩:=Action.step.inj ha
    cases call with
    | retiring id groups =>
      obtain ⟨rfl,-⟩:=Prod.mk.inj (Option.some.inj hs)
      rfl
    | replied | abandoned => contradiction

/-- Over every order of calls, retirements and events of the registry. -/
theorem sessions_generation_fenced (incarnation : BitVec 128) (node : Option String) (actions : List (Action Event Move))
    (p : Pool Traced Call) (hrun : Traced.program.run ⟨Traced.start incarnation node,[]⟩ actions=some p) :
    GenerationFenced p := by
  have h:=run_inv hrun
  have hcreated:=h.fenced.created
  refine ⟨⟨?_,?_,?_⟩,?_,?_,?_,?_,?_,?_,?_⟩
  · rw [hcreated]
    exact List.nodup_range'
  · intro k hk
    have:=h.fenced.bounded k hk
    rw [hcreated,List.mem_range'_1]
    omega
  · intro during command k hk hnew
    rw [hcreated,List.mem_range'_1,execute_fresh h.fenced hk hnew]
    omega
  · exact fun a p' hnext => (next_inv h hnext).2.revision
  · intro k s hs
    have hinv:=h.fenced.sessions k s hs
    exact ⟨hinv.revisions,hinv.policies⟩
  · intro during command id owner revision ph policies hreply
    exact execute_reports h.fenced hreply
  · intro k s b hs hlast hphase
    exact execute_repeat h.fenced h.shut hs hlast hphase
  · intro id reply hmem
    obtain ⟨hreply,hle,hgone,hregistered⟩:=h.retired hmem
    refine ⟨hreply,hgone,hregistered,?_,?_,?_⟩
    · exact fun during revision policies => retired_apply hgone revision policies
    · exact fun during owner => retired_allocate hgone hle owner
    · exact fun during owner reply hopen => retired_open h.fenced hgone hle hopen
  · intro during command e herror
    exact execute_refused h.fenced herror
  · exact fun i p' hnext => timeout_shared hnext

def samplePolicy : MirrorPolicySpec := .new "/orders" "/shadow"

def sampleActions : List (Action Event Move) :=
  [.enter (.call (.openSession "app") []),.enter (.call (.apply ⟨7,1⟩ 1 [samplePolicy]) []),
    .enter (.call (.close ⟨7,1⟩) []),.enter (.registry (.retire 0)),.step 2 .finish]

theorem sessions_generation_fenced_close : ∃ p, Traced.program.run ⟨Traced.start 7 none,[]⟩ sampleActions=some p ∧
    GenerationFenced p ∧ p.shared.node.sessions.keys=[] ∧ p.shared.created=[1] ∧ p.shared.installed=[(1,0)] := by
  have hsome : (Traced.program.run ⟨Traced.start 7 none,[]⟩ sampleActions).isSome=true := by decide +kernel
  obtain ⟨p,hp⟩:=Option.isSome_iff_exists.mp hsome
  have hvalues : (Traced.program.run ⟨Traced.start 7 none,[]⟩ sampleActions).map (fun p =>
      (p.shared.node.sessions.keys,p.shared.created,p.shared.installed))=some ([],[1],[(1,0)]) := by decide +kernel
  rw [hp] at hvalues
  simp only [Option.map_some,Option.some.injEq,Prod.mk.injEq] at hvalues
  exact ⟨p,hp,sessions_generation_fenced 7 none sampleActions p hp,hvalues⟩

end Parrot.Mirror
