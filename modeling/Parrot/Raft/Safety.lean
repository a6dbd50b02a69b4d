import Parrot.Raft.ClusterInv

/-! # Safety of the cluster

Election safety, log matching and state-machine safety, over every run of the
cluster and in the words of the host's own accessors. -/

namespace Parrot.Raft
open CrashFs ReplicatedLog

variable {codec : SnapshotCodec} {name : String} {members : Finset NodeId}
variable {a : Ghost} {lows : NodeId → ℕ} {c c' : Cluster} {i j : NodeId}

abbrev Reachable (codec : SnapshotCodec) (name : String) (members : Finset NodeId) (c : Cluster) :=
  Run codec name members Cluster.start c

theorem reachable_inv (h : Reachable codec name members c) : ∃ a, Inv codec name members a (fun _ => 0) c := by
  obtain ⟨a,-,ha⟩:=run_inv h cluster_start_inv
  exact ⟨a,ha⟩

def Leads (c : Cluster) (i : NodeId) (term : ℕ) : Prop :=
  ∃ h, (c.slot i).host=some h ∧ h.role=.leader ∧ h.currentTerm=term

/-- A vote is the host's recorded choice, its own candidacy included, or a grant
that has left its outbox. -/
def Votes (c : Cluster) (i : NodeId) (term : ℕ) (candidate : NodeId) : Prop :=
  (∃ h, (c.slot i).host=some h ∧ h.currentTerm=term ∧ h.votedFor=some candidate) ∨
    (i,candidate,.requestVoteResp term true)∈c.sent

theorem Inv.leader (hinv : Inv codec name members a lows c) {h : DurableRaft} (hhost : (c.slot i).host=some h)
    (hrole : h.role=.leader) : a.leader h.currentTerm=some i ∧ a.lead h.currentTerm=h.log := by
  have hok:=(hinv.slot hhost).host h rfl
  unfold DurableRaft.role at hrole
  split at hrole
  · contradiction
  · rename_i hf
    obtain ⟨hn,hsaved,-⟩:=hok.live (by simpa using hf)
    obtain ⟨h1,h2,-⟩:=hn.leading hrole
    unfold DurableRaft.currentTerm DurableRaft.log
    rw [hsaved]
    exact ⟨h1,h2⟩

theorem Inv.vote (hinv : Inv codec name members a lows c) {term : ℕ} {candidate : NodeId}
    (hv : Votes c i term candidate) : a.voted i term=some candidate := by
  rcases hv with ⟨h,hhost,rfl,hvote⟩ | hsent
  · obtain ⟨n,hn,hsaved⟩:=((hinv.slot hhost).host h rfl).saved
    unfold DurableRaft.currentTerm
    unfold DurableRaft.votedFor at hvote
    rw [hsaved] at hvote ⊢
    exact hn.vote.trans hvote
  · exact hinv.sent _ hsent rfl

/-! ### A cluster of one

A single node that opens, elects itself, commits one command and hands it out. -/

def soloClock : Clock := ⟨fun _ => 0,0,0,0⟩
def soloEntry : LogEntry := ⟨1,1,[7]⟩

def soloNode : RaftNode where
  id := "a"
  peers := []
  currentTerm := 0
  votedFor := none
  log := []
  commitIndex := 0
  lastApplied := 0
  role := .follower
  leaderHint := none
  nextIndex := fun _ => none
  matchIndex := fun _ => none
  sentUpper := fun _ => none
  votesReceived := []
  lastHeartbeatMs := 0
  timeoutJitterMs := 0
  outbox := []
  pendingApply := []

def soloLeader : RaftNode := (soloNode.campaign soloClock).crowned 0

def soloCommitted : RaftNode :=
  {soloLeader with log:=[soloEntry],commitIndex:=1,lastApplied:=1,pendingApply:=[soloEntry]}

def soloHost (n : RaftNode) : DurableRaft := ⟨n,snapshot n "solo",false⟩

def soloPublish (d : Disk RaftFile) (n : RaftNode) : Disk RaftFile :=
  (publish .standard 1000 (snapshot n "solo") d).1

def soloDisk : Disk RaftFile :=
  soloPublish (soloPublish (soloPublish .empty soloNode) soloLeader) soloCommitted

def soloCluster : Cluster :=
  {Cluster.start.set "a" ⟨soloDisk,some (soloHost {soloCommitted with pendingApply:=[]})⟩ with
    handed := [("a",soloEntry)]}

theorem new_solo : RaftNode.new soloClock "a" []=soloNode := by
  simp [RaftNode.new,normalizePeers,soloClock,soloNode,Nat.mod_one]

theorem solo_opened : Slot.opened (DurableRaft.openValidated .standard soloClock "solo" "a" []
    (fun _ => .ok ()) 1000 .empty)=⟨soloPublish .empty soloNode,some (soloHost soloNode)⟩ := by
  unfold DurableRaft.openValidated
  rw [new_solo]
  rfl

theorem solo_ticked : (soloHost soloNode).tick .standard soloClock 1000 (soloPublish .empty soloNode) =
    .ok ⟨soloPublish (soloPublish .empty soloNode) soloLeader,soloHost soloLeader,.ok ()⟩ := rfl

theorem solo_advanced : RaftNode.advanceCommit {soloLeader with log:=[soloEntry]} =
    .ok soloCommitted := by
  unfold RaftNode.advanceCommit
  change (Machine.index (List.mergeSort [1] fun a b => decide (a≤b))
    ((List.mergeSort [1] fun a b => decide (a≤b)).length-1) >>= _)=_
  rw [List.mergeSort_singleton]
  rfl

theorem solo_proposes : soloLeader.propose [7]=.ok (.ok 1,soloCommitted) := by
  change (RaftNode.advanceCommit {soloLeader with log:=[soloEntry]} >>= fun n =>
    (Except.ok (.ok 1,n) : Except Machine.Panic (Except (Option NodeId) ℕ × RaftNode)))=_
  rw [solo_advanced]
  rfl

theorem solo_proposed : (soloHost soloLeader).propose .standard [7] 1000
    (soloPublish (soloPublish .empty soloNode) soloLeader) = .ok ⟨soloDisk,soloHost soloCommitted,.ok 1⟩ := by
  unfold DurableRaft.propose
  rw [if_neg (by decide),if_neg (by decide),if_neg (by decide),if_neg (by decide)]
  change (soloLeader.propose [7] >>= _)=_
  rw [solo_proposes]
  rfl

theorem Cluster.slot_set (c : Cluster) (i : NodeId) (s : Slot) : (c.set i s).slot i=s :=
  Function.update_self ..

theorem Cluster.set_set (c : Cluster) (i : NodeId) (s s' : Slot) : (c.set i s).set i s'=c.set i s' := by
  simp only [Cluster.set,Function.update_idem]

theorem solo_reachable : Reachable .standard "solo" {"a"} soloCluster := by
  have h1 : Step .standard "solo" {"a"} _ _ := .opened Cluster.start "a" soloClock []
    (fun _ => .ok ()) 1000 (Finset.mem_singleton_self "a") (by intro x hx; simp [hx]) rfl
  rw [show (Cluster.start.slot "a").disk=.empty from rfl,solo_opened] at h1
  have h2 : Step .standard "solo" {"a"} _ _ := .tick _ "a" _ soloClock 1000
    (congrArg Slot.host (Cluster.slot_set Cluster.start "a"
      ⟨soloPublish .empty soloNode,some (soloHost soloNode)⟩))
  rw [Cluster.slot_set,solo_ticked,Cluster.set_set] at h2
  have h3 : Step .standard "solo" {"a"} _ _ := .propose _ "a" _ [7] 1000
    (congrArg Slot.host (Cluster.slot_set Cluster.start "a"
      ⟨soloPublish (soloPublish .empty soloNode) soloLeader,some (soloHost soloLeader)⟩))
  rw [Cluster.slot_set,solo_proposed,Cluster.set_set] at h3
  have h4 : Step .standard "solo" {"a"} _ _ := .committed _ "a" _ [soloEntry]
    (congrArg Slot.host (Cluster.slot_set Cluster.start "a" ⟨soloDisk,some (soloHost soloCommitted)⟩)) rfl
  rw [Cluster.slot_set,Cluster.set_set] at h4
  exact (((Relation.ReflTransGen.single h1).tail h2).tail h3).tail h4

theorem solo_host : (soloCluster.slot "a").host =
    some (soloHost {soloCommitted with pendingApply:=[]}) :=
  congrArg Slot.host (Cluster.slot_set Cluster.start "a" _)

theorem solo_leads : Leads soloCluster "a" 1 := ⟨_,solo_host,rfl,rfl⟩

theorem election_safety (h : Reachable codec name members c) (hrun : Run codec name members c c') : (∀ i j term,
    Leads c i term → Leads c' j term → i=j) ∧ (∀ i term v w, Votes c i term v → Votes c' i term w → v=w) := by
  obtain ⟨a,ha⟩:=reachable_inv h
  obtain ⟨a',hg,ha'⟩:=run_inv hrun ha
  constructor
  · rintro i j term ⟨x,hx,hxr,rfl⟩ ⟨y,hy,hyr,hterm⟩
    have h1:=hg.leader _ _ (ha.leader hx hxr).1
    have h2:=(ha'.leader hy hyr).1
    rw [hterm] at h2
    exact Option.some.inj (h1.symm.trans h2)
  · intro i term v w hv hw
    exact Option.some.inj ((hg.voted _ _ _ (ha.vote hv)).symm.trans (ha'.vote hw))

theorem election_safety_solo : Leads soloCluster "a" 1 ∧ ∀ j, Leads soloCluster j 1 → j = "a" :=
  ⟨solo_leads,fun j hj => (election_safety solo_reachable .refl).1 j "a" 1 hj solo_leads⟩

theorem log_matching (h : Reachable codec name members c) {x y : DurableRaft} (hx : (c.slot i).host=some x)
    (hy : (c.slot j).host=some y) {e e' : LogEntry} (he : e∈x.log) (he' : e'∈y.log) (hindex : e.index=e'.index)
    (hterm : e.term=e'.term) : e=e' ∧ x.log.take e.index=y.log.take e.index := by
  obtain ⟨a,ha⟩:=reachable_inv h
  obtain ⟨n,hn,hsaved⟩:=((ha.slot hx).host x rfl).saved
  obtain ⟨m,hm,hsaved'⟩:=((ha.slot hy).host y rfl).saved
  have hlx : x.log=n.log := by rw [DurableRaft.log,hsaved]; rfl
  have hly : y.log=m.log := by rw [DurableRaft.log,hsaved']; rfl
  rw [hlx] at he
  rw [hly] at he'
  rw [hlx,hly]
  obtain ⟨k,hk⟩:=List.getElem?_of_mem he
  obtain ⟨k',hk'⟩:=List.getElem?_of_mem he'
  have h1:=hn.wf.indexed k e hk
  have h2:=hm.wf.indexed k' e' hk'
  obtain rfl : k=k' := by omega
  have htake:=Traced.matching (hn.log ▸ ha.sound.log_traced i) (hm.log ▸ ha.sound.log_traced j)
    hk hk' hterm
  refine ⟨?_,by rw [h1]; exact htake⟩
  have hget:=congrArg (fun l => l[k]?) htake
  simp only [List.getElem?_take_of_lt (Nat.lt_succ_self k),hk,hk'] at hget
  exact Option.some.inj hget

theorem log_matching_solo : ∃ x, (soloCluster.slot "a").host=some x ∧ soloEntry∈x.log ∧
    soloEntry=soloEntry ∧ x.log.take soloEntry.index=x.log.take soloEntry.index :=
  ⟨_,solo_host,List.mem_singleton_self _,log_matching solo_reachable solo_host solo_host
    (List.mem_singleton_self _) (List.mem_singleton_self _) rfl rfl⟩

/-- Two states of one run, in either order; a term later than the one in which the
entry was seen committed has it in any state, that term itself from then on. -/
def Later (codec : SnapshotCodec) (name : String) (members : Finset NodeId) (c c' : Cluster)
    (x y : DurableRaft) : Prop :=
  (Run codec name members c c' ∧ x.currentTerm≤y.currentTerm) ∨
    (Run codec name members c' c ∧ x.currentTerm<y.currentTerm)

theorem committed_entry (hinv : Inv codec name members a lows c) {x : DurableRaft}
    (hx : (c.slot i).host=some x) {e : LogEntry} (he : e∈x.log) (hcom : e.index≤x.commitIndex) :
    ∃ l, Fixed members a x.currentTerm l ∧ l[e.index-1]? = some e := by
  obtain ⟨n,hn,hsaved⟩:=((hinv.slot hx).host x rfl).saved
  unfold DurableRaft.log at he
  unfold DurableRaft.commitIndex at hcom
  unfold DurableRaft.currentTerm
  rw [hsaved] at he hcom ⊢
  obtain ⟨k,hk⟩:=List.getElem?_of_mem he
  have hidx:=hn.wf.indexed k e hk
  refine ⟨_,hn.committed,?_⟩
  have hc : e.index≤n.commitIndex := hcom
  rw [List.getElem?_take_of_lt (by omega),show e.index-1=k by omega]
  exact hk

theorem getElem?_mono {l l' : List LogEntry} (hp : l<+:l') {k : ℕ} {e : LogEntry}
    (h : l[k]? = some e) : l'[k]? = some e := by
  obtain ⟨r,rfl⟩:=hp
  rw [List.getElem?_append_left (List.getElem?_eq_some_iff.mp h).1]
  exact h

theorem state_machine_safety (h : Reachable codec name members c) :
    (∀ i j e e', (i,e)∈c.handed → (j,e')∈c.handed → e.index=e'.index → e=e') ∧ (∀ c',
    Reachable codec name members c' → ∀ i j x y, (c.slot i).host=some x → (c'.slot j).host=some y → y.role=.leader →
    Later codec name members c c' x y → ∀ e∈x.log, e.index≤x.commitIndex → y.log[e.index-1]? = some e) := by
  have hinter:=majority_inter members
  constructor
  · obtain ⟨a,ha⟩:=reachable_inv h
    intro i j e e' he he' hidx
    obtain ⟨-,T,l,hd,hl⟩:=ha.handed _ he
    obtain ⟨-,T',l',hd',hl'⟩:=ha.handed _ he'
    dsimp only at hl hl'
    rw [← hidx] at hl'
    rcases Decided.comparable hinter ha.sound hd hd' with hp | hp
    · exact Option.some.inj ((getElem?_mono hp hl).symm.trans hl')
    · exact Option.some.inj (hl.symm.trans (getElem?_mono hp hl'))
  · intro c' h' i j x y hx hy hrole hlater e he hcom
    rcases hlater with ⟨hrun,hterm⟩ | ⟨hrun,hterm⟩
    · obtain ⟨a,ha⟩:=reachable_inv h
      obtain ⟨a',hg,ha'⟩:=run_inv hrun ha
      obtain ⟨l,hd,hl⟩:=committed_entry ha hx he hcom
      obtain ⟨hlead,hlog⟩:=ha'.leader hy hrole
      have hp:=Decided.prefix_lead hinter ha'.sound (hd.mono hg (le_rfl)) hterm
        (by simp [hlead])
      rw [hlog] at hp
      exact getElem?_mono hp hl
    · -- the leader was there first: it had the entry when it was elected
      obtain ⟨a',ha'⟩:=reachable_inv h'
      obtain ⟨a,hg,ha⟩:=run_inv hrun ha'
      obtain ⟨l,hd,hl⟩:=committed_entry ha hx he hcom
      obtain ⟨hlead,hlog⟩:=ha'.leader hy hrole
      obtain ⟨-,-,lc,hcand,hpre,-⟩:=ha'.sound.elected _ _ hlead
      have hp:=Decided.prefix_cand hinter ha.sound hd hterm (hg.leader _ _ hlead)
        (hg.cand _ _ _ hcand)
      rw [hlog] at hpre
      exact getElem?_mono (hp.trans hpre) hl

theorem state_machine_safety_solo : ("a",soloEntry)∈soloCluster.handed ∧
    (∀ j e, (j,e)∈soloCluster.handed → e.index=1 → e=soloEntry) ∧
    ∀ y, (soloCluster.slot "a").host=some y → y.role=.leader → 1≤y.currentTerm → y.log[0]? = some soloEntry := by
  obtain ⟨h1,h2⟩:=state_machine_safety solo_reachable
  refine ⟨List.mem_singleton_self _,?_,?_⟩
  · intro j e he hidx
    exact h1 j "a" e soloEntry he (List.mem_singleton_self _) hidx
  · intro y hy hrole hterm
    exact h2 soloCluster solo_reachable "a" "a" _ y solo_host hy hrole (.inl ⟨.refl,hterm⟩)
      soloEntry (List.mem_singleton_self _) (le_rfl)

/-- Between two states of a run a leader only adds to its log, and what it leads with has every
entry of its term that any node holds, with all that stands before it. -/
theorem leader_append_only (h : Reachable codec name members c) (hrun : Run codec name members c c') {x y : DurableRaft}
    (hx : (c.slot i).host=some x) (hy : (c'.slot j).host=some y) (hrole : y.role=.leader) :
    (x.role=.leader → x.currentTerm=y.currentTerm → x.log<+:y.log) ∧
      ∀ e∈x.log, e.term=y.currentTerm → x.log.take e.index<+:y.log := by
  obtain ⟨a,ha⟩:=reachable_inv h
  obtain ⟨a',hg,ha'⟩:=run_inv hrun ha
  obtain ⟨-,hlead⟩:=ha'.leader hy hrole
  have hgrown:=hg.lead y.currentTerm
  rw [hlead] at hgrown
  constructor
  · intro hxr hterm
    rw [← (ha.leader hx hxr).2,hterm]
    exact hgrown
  · intro e he hterm
    obtain ⟨n,hn,hsaved⟩:=((ha.slot hx).host x rfl).saved
    have hlog : x.log=n.log := by rw [DurableRaft.log,hsaved]; rfl
    rw [hlog] at he ⊢
    obtain ⟨k,hk⟩:=List.getElem?_of_mem he
    have hlast : (n.log.take e.index).getLast? = some e := by
      rw [hn.wf.indexed k e hk,List.getLast?_take,Nat.add_sub_cancel,hk]
      simp
    have htraced:=(hn.log ▸ ha.sound.log_traced i).shorter (List.take_prefix e.index n.log)
    obtain ⟨-,hp⟩:=htraced.prefix_lead hlast
    rw [hterm] at hp
    exact hp.trans hgrown

theorem leader_append_only_solo : ∃ x, (soloCluster.slot "a").host=some x ∧ x.role=.leader ∧
    x.log.take soloEntry.index<+:x.log :=
  ⟨_,solo_host,rfl,(leader_append_only solo_reachable .refl solo_host solo_host rfl).2 soloEntry (List.mem_singleton_self _) rfl⟩

end Parrot.Raft
