import Parrot.Raft.ClusterInv
import Parrot.Raft.Spoken

/-! # One durable host under arbitrary input (`raft/storage.rs:132-413`)

A host of a fixed configuration is opened on its own directory and driven by its public calls:
any clock, any proposal, any message from anybody. -/

namespace Parrot.Raft
open Machine CrashFs

/-- More bytes and system calls than any one call of a host makes. -/
def ample : ℕ := maxSnapshot+8

section config
variable (good : Bytes → Prop) (cluster : String) (id : NodeId) (peers : List NodeId)

structure Sane (n : RaftNode) : Prop where
  fit : Fit good n
  roomy : Roomy cluster n
  name : n.id=id
  members : n.peers=normalizePeers id peers

structure Live (d : Disk RaftFile) (h : DurableRaft) : Prop where
  healthy : h.failed=false
  node : Sane good cluster id peers h.node
  pending : ∃ handed, Published handed h.node
  saved : h.saved=snapshot h.node cluster
  bounded : d.Bounded
  settled : d.Settled .state (· = some (image .bounded h.saved))
  free : d.dir.lookup .next=none

inductive Finished {α : Type} (h : DurableRaft) (n' : RaftNode) (budget : ℕ) (value : α) : Outcome α → Prop where
  | done (d' : Disk RaftFile) (hlive : Live good cluster id peers d' ⟨n',snapshot n' cluster,false⟩) :
      Finished h n' budget value ⟨d',⟨n',snapshot n' cluster,false⟩,.ok value⟩
  | stopped (d' : Disk RaftFile) (hbudget : budget<ample) (hbounded : d'.Bounded)
      (hsettled : d'.Settled .state fun o => o=some (image .bounded h.saved) ∨
        o=some (image .bounded (snapshot n' cluster))) :
      Finished h n' budget value ⟨d',⟨{n' with outbox:=[],pendingApply:=[]},h.saved,true⟩,.error .storage⟩

inductive Served {α : Type} (d : Disk RaftFile) (h : DurableRaft) (budget : ℕ) : Outcome α → Prop where
  | refused (e : RaftStorageError)
      (he : e=.capacity ∨ (∃ reason, e=.invalid reason) ∨ ∃ hint, e=.notLeader hint) :
      Served d h budget (h.refused d e)
  | moved (inp : Input) (n' : RaftNode) (value : α) (o : Outcome α) (hin : InputFit good inp)
      (hmoves : Moves inp h.node n') (hsane : Sane good cluster id peers n')
      (hspoken : Spoken cluster h.node n') (hfin : Finished good cluster id peers h n' budget value o) :
      Served d h budget o

variable {good cluster id peers} {d : Disk RaftFile} {h : DurableRaft} {n' : RaftNode} {budget : ℕ}

variable {n : RaftNode}

theorem publish_bytes (hf : Fit good n) (hr : Roomy cluster n) :
    Disk.cost (replace RaftFile.next .state (chunks .bounded (snapshot n cluster))) ≤ maxSnapshot+4 := by
  have hlen:=snapshot_length hf hr
  have hdig:=SnapshotCodec.bounded.digest_length (SnapshotCodec.bounded.encode (snapshot n cluster))
  have hmagic : magic.length=8 := rfl
  simp only [Disk.cost,replace,chunks,List.map_cons,List.map_nil,List.sum_cons,List.sum_nil,
    List.cons_append,List.nil_append,Effect.cost]
  change 1+(magic.length+((SnapshotCodec.bounded.digest (SnapshotCodec.bounded.encode (snapshot n cluster))).length+
    ((savedCodec.encode (snapshot n cluster)).length+_)))≤_
  omega

theorem publish_cases (hf : Fit good n) (hr : Roomy cluster n) {P : Option Bytes → Prop}
    (hb : d.Bounded) (hs : d.Settled .state P) (hfree : d.dir.lookup .next=none) (budget : ℕ) :
    (∃ d' left, publish .bounded budget (snapshot n cluster) d=(d',.ok left) ∧ d'.Bounded ∧
      d'.Settled .state (· = some (image .bounded (snapshot n cluster))) ∧ d'.dir.lookup .next=none ∧
      (ample≤budget → 0<left)) ∨
    ∃ d', publish .bounded budget (snapshot n cluster) d=(d',.error .storage) ∧ budget<ample ∧ d'.Bounded ∧
      d'.Settled .state fun o => P o ∨ o=some (image .bounded (snapshot n cluster)) := by
  have hne : RaftFile.state≠RaftFile.next := by decide
  have hsize : ¬ 40+(SnapshotCodec.bounded.encode (snapshot n cluster)).length>maxSnapshot :=
    Nat.not_lt.mpr (snapshot_length hf hr)
  have hcost:=publish_bytes hf hr
  unfold publish
  rw [if_neg hsize]
  rcases hx : d.exec budget (replace .next .state (chunks .bounded (snapshot n cluster))) with ⟨d',_ | left⟩
  · right
    obtain ⟨hb',hs'⟩:=Disk.replace_stopped hb hs hne (Disk.exec_stopped hx)
    refine ⟨d',by rw [hx],?_,hb',hs'⟩
    by_contra hbudget
    obtain ⟨d1,hd1⟩:=Disk.replace_completes (chunks .bounded (snapshot n cluster)) RaftFile.state hfree
    rw [Disk.exec_of_completed hd1 (by unfold ample at hbudget; omega)] at hx
    simp at hx
  · left
    have hdone:=Disk.exec_completed hx
    obtain ⟨hb',hs'⟩:=Disk.replace_completed hb hs hne hdone
    refine ⟨d',left,by rw [hx],hb',hs',Disk.replace_clears hne.symm hdone,?_⟩
    intro hbudget
    unfold ample at hbudget
    rw [Disk.exec_of_completed hdone (by omega)] at hx
    have hleft : budget-Disk.cost (replace RaftFile.next .state (chunks .bounded (snapshot n cluster)))=left := by
      simpa using hx
    omega

section
variable (hl : Live good cluster id peers d h)
include hl

theorem finish_finished {α : Type} (hs : Sane good cluster id peers n')
    (hpub : ∃ handed, Published handed n') (budget : ℕ) (value : α) :
    Finished good cluster id peers h n' budget value
      (DurableRaft.finish .bounded {h with node:=n'} budget d value) := by
  have hcluster : h.saved.cluster=cluster := by rw [hl.saved]; rfl
  unfold DurableRaft.finish
  split
  · rename_i hsame
    -- nothing persistent changed: the snapshot on disk is still the node's
    have hsnap : h.saved=snapshot n' cluster := by
      obtain ⟨h1,h2,h3,h4⟩:=hsame
      rw [hl.saved] at h1 h2 h3 h4 ⊢
      simp only [snapshot] at h1 h2 h3 h4 ⊢
      rw [h1,h2,h3,h4,hs.name,hs.members,hl.node.name,hl.node.members]
    have hhost : ({h with node:=n'} : DurableRaft)=⟨n',snapshot n' cluster,false⟩ := by
      rw [← hsnap,← hl.healthy]
    rw [hhost]
    exact .done d ⟨rfl,hs,hpub,rfl,hl.bounded,by rw [← hsnap]; exact hl.settled,hl.free⟩
  · dsimp only
    rw [hcluster,snapshot_valid hs.fit hs.roomy]
    dsimp only
    rcases publish_cases hs.fit hs.roomy hl.bounded hl.settled hl.free budget with
      ⟨d',left,hp,hb,hset,hfree,-⟩ | ⟨d',hp,hbudget,hb,hset⟩
    · rw [hp,hl.healthy]
      exact .done d' ⟨rfl,hs,hpub,rfl,hb,hset,hfree⟩
    · rw [hp]
      exact .stopped d' hbudget hb hset

theorem sane_moved {inp : Input} (hin : InputFit good inp) (hm : Moves inp h.node n') (hroomy : Roomy cluster n') :
    Sane good cluster id peers n' ∧ ∃ handed, Published handed n' := by
  obtain ⟨hid,hpeers⟩:=moves_identity hm
  obtain ⟨handed,hpub⟩:=hl.pending
  exact ⟨⟨moves_fit hm hin hl.node.fit,hroomy,hid.trans hl.node.name,hpeers.trans hl.node.members⟩,
    handed,(moves_progress hm hl.node.fit.wf).published handed hpub⟩

theorem tick_served (clock : Clock) (budget : ℕ) :
    ∃ o, h.tick .bounded clock budget d=.ok o ∧ Served good cluster id peers d h budget o := by
  obtain ⟨n',hn',hm⟩:=tick_moved hl.node.fit.wf clock
  obtain ⟨hid,hpeers⟩:=moves_identity hm
  have hroomy:=hl.node.roomy.same_log hid hpeers (moves_log hm rfl)
  have hin : InputFit good .clock := trivial
  obtain ⟨hsane,hpub⟩:=sane_moved hl hin hm hroomy
  refine ⟨_,?_,.moved .clock n' () _ hin hm hsane (tick_spoken hl.node.fit.wf clock hn')
    (finish_finished hl hsane hpub budget ())⟩
  unfold DurableRaft.tick
  rw [if_neg (by simp [hl.healthy]),hn']
  rfl

end

variable {rpc : RaftRpc}

theorem planned_roomy (hl : Live good cluster id peers d h) {sender : NodeId} (hshape : rpc.validateShape=.ok ())
    (hcap : DurableRaft.overflows .bounded h sender rpc=false) : (h.node.planned sender rpc).length ≤ maxEntries ∧
    ∀ n' : RaftNode, n'.id=h.node.id → n'.peers=h.node.peers → n'.log=h.node.planned sender rpc → Roomy cluster n' :=
    by
  have hsame : h.node.planned sender rpc=h.node.log → (h.node.planned sender rpc).length ≤ maxEntries ∧
      ∀ n' : RaftNode, n'.id=h.node.id → n'.peers=h.node.peers → n'.log=h.node.planned sender rpc →
        Roomy cluster n' := by
    intro heq
    rw [heq]
    exact ⟨hl.node.roomy.count,fun n' hid hpeers hlog => hl.node.roomy.same_log hid hpeers hlog⟩
  cases rpc with
  | appendEntries term leader prev prevTerm entries commit =>
    simp only [RaftNode.planned,DurableRaft.overflows] at hcap hsame ⊢
    split at hcap
    · rename_i hcond
      rw [if_pos hcond] at hsame ⊢
      cases hp : h.node.appendPlan prev prevTerm entries with
      | none =>
        rw [hp] at hsame
        exact hsame rfl
      | some plan =>
        obtain ⟨keep,skip⟩:=plan
        rw [hp] at hcap hsame
        simp only [Bool.and_eq_false_iff,decide_eq_false_iff_not,Bool.not_eq_false'] at hcap
        dsimp only at hsame ⊢
        rcases hcap with hnone | hcheck
        · -- every entry is held already: the plan keeps the whole log
          apply hsame
          obtain ⟨-,hval⟩:=validateShape_append hshape
          have hindex : ∀ k e, entries[k]? = some e → e.index=prev+k+1 :=
            fun k e he => (validateEntries_get hval k e he).1
          obtain ⟨-,-,⟨heq,-⟩ | ⟨k,e,he,heq,-⟩⟩:=appendPlan_spec hindex hp
          · cases heq
            rw [List.take_length,List.drop_length,List.append_nil]
          · obtain ⟨-,rfl⟩:=Prod.mk.inj heq
            exact absurd (List.getElem?_eq_some_iff.mp he).1 hnone
        · simp only [DurableRaft.checkLogCapacity,Bool.and_eq_true,decide_eq_true_eq] at hcheck
          refine ⟨by rw [List.length_append]; exact hcheck.1,?_⟩
          intro n' hid hpeers hlog
          refine hl.node.roomy.of_log hid hpeers hlog hcheck.1 ?_
          rw [← hl.saved]
          exact hcheck.2
    · rename_i hcond
      rw [if_neg hcond] at hsame ⊢
      exact hsame rfl
  | _ => exact hsame rfl

theorem not_oversized (h : DurableRaft.oversized rpc=false) : ∀ e∈rpc.entries, e.cmd.length ≤ maxCommand := by
  cases rpc with
  | appendEntries term leader prev prevTerm entries commit =>
    simp only [DurableRaft.oversized,Bool.or_eq_false_iff,List.any_eq_false,decide_eq_true_eq] at h
    intro e he
    exact Nat.le_of_not_lt (h.1.2 e he)
  | _ => nofun

theorem entries_addressable {k : ℕ} (h : k ≤ maxEntries) : 40*k ≤ isizeMax := by
  unfold maxEntries at h
  unfold isizeMax
  omega

section
variable (hl : Live good cluster id peers d h)
include hl

theorem step_finished (clock : Clock) (sender : NodeId) (hrange : rpc.InRange) (hgood : ∀ e∈rpc.entries, good e.cmd)
    (hshape : rpc.validateShape=.ok ()) (hsize : DurableRaft.oversized rpc=false)
    (hcap : DurableRaft.overflows .bounded h sender rpc=false) (budget : ℕ) : ∃ n' o, h.step .bounded clock sender rpc
    budget d=.ok o ∧ Finished good cluster id peers h n' budget () o ∧ Served good cluster id peers d h budget o := by
  obtain ⟨hcount,hroomy⟩:=planned_roomy hl hshape hcap
  obtain ⟨n',hn',hm,hlog⟩:=step_planned hl.node.fit.wf clock sender hshape (entries_addressable hcount)
  obtain ⟨hid,hpeers⟩:=moves_identity hm
  have hin : InputFit good (.message sender rpc) :=
    ⟨hrange,hshape,fun e he => ⟨not_oversized hsize e he,hgood e he⟩⟩
  obtain ⟨hsane,hpub⟩:=sane_moved hl hin hm (hroomy n' hid hpeers hlog)
  have hfin:=finish_finished hl hsane hpub budget ()
  refine ⟨n',_,?_,hfin,.moved _ n' () _ hin hm hsane (step_spoken hl.node.fit.wf clock hshape hn') hfin⟩
  unfold DurableRaft.step
  rw [if_neg (by simp [hl.healthy]),hshape]
  dsimp only
  rw [if_neg (by simp [hsize,hcap]),hn']
  rfl

theorem step_served (clock : Clock) (sender : NodeId)
    (hrange : rpc.InRange) (hgood : ∀ e∈rpc.entries, good e.cmd) (budget : ℕ) :
    ∃ o, h.step .bounded clock sender rpc budget d=.ok o ∧ Served good cluster id peers d h budget o := by
  by_cases hcap : (DurableRaft.oversized rpc||DurableRaft.overflows .bounded h sender rpc)=true
  · unfold DurableRaft.step
    rw [if_neg (by simp [hl.healthy])]
    cases hshape : rpc.validateShape with
    | error e => exact ⟨_,rfl,.refused _ (.inr (.inl ⟨e,rfl⟩))⟩
    | ok u => exact ⟨_,if_pos hcap,.refused _ (.inl rfl)⟩
  · cases hshape : rpc.validateShape with
    | error e =>
      unfold DurableRaft.step
      rw [if_neg (by simp [hl.healthy]),hshape]
      exact ⟨_,rfl,.refused _ (.inr (.inl ⟨e,rfl⟩))⟩
    | ok u =>
      simp only [Bool.or_eq_true,not_or,Bool.not_eq_true] at hcap
      obtain ⟨n',o,ho,-,hs⟩:=step_finished hl clock sender hrange hgood hshape hcap.1 hcap.2 budget
      exact ⟨o,ho,hs⟩

theorem propose_served {cmd : Bytes} (hgood : good cmd) (budget : ℕ) :
    ∃ o, h.propose .bounded cmd budget d=.ok o ∧ Served good cluster id peers d h budget o := by
  unfold DurableRaft.propose
  rw [if_neg (by simp [hl.healthy])]
  split
  · exact ⟨_,rfl,.refused _ (.inl rfl)⟩
  · rename_i hsmall
    push Not at hsmall
    split
    · exact ⟨_,rfl,.refused _ (.inr (.inr ⟨_,rfl⟩))⟩
    · rename_i hrole
      push Not at hrole
      split
      · exact ⟨_,rfl,.refused _ (.inl rfl)⟩
      · rename_i hcheck
        simp only [Bool.not_eq_false,DurableRaft.checkLogCapacity,Bool.and_eq_true,decide_eq_true_eq] at hcheck
        obtain ⟨n',hn',hm,hlog⟩:=propose_planned hl.node.fit.wf hrole cmd
          (entries_addressable (by simpa using hcheck.1))
        obtain ⟨hid,hpeers⟩:=moves_identity hm
        have hroomy : Roomy cluster n' := by
          refine hl.node.roomy.of_log hid hpeers hlog hcheck.1 ?_
          rw [← hl.saved]
          exact hcheck.2
        have hin : InputFit good (.command cmd) := ⟨hsmall.1,hgood⟩
        obtain ⟨hsane,hpub⟩:=sane_moved hl hin hm hroomy
        rw [hn']
        exact ⟨_,rfl,.moved _ n' (h.node.log.length+1) _ hin hm hsane (moves_spoken hm rfl)
          (finish_finished hl hsane hpub budget _)⟩

theorem outbox_live : h.outbox=(.ok h.node.outbox,h.outbox.2) ∧
    Live good cluster id peers d h.outbox.2 ∧ h.outbox.2.saved=h.saved ∧ h.outbox.2.node.outbox=[] := by
  have heq : h.outbox=(.ok h.node.outbox,{h with node := {h.node with outbox:=[]}}) :=
    if_neg (by simp [hl.healthy])
  rw [heq]
  obtain ⟨hfit,hroomy,hname,hmembers⟩:=hl.node
  refine ⟨rfl,⟨hl.healthy,⟨⟨{hfit.wf with},hfit.term_le,hfit.voted,hfit.commands,nofun⟩,?_,hname,hmembers⟩,
    hl.pending,hl.saved,hl.bounded,hl.settled,hl.free⟩,rfl,rfl⟩
  exact hroomy.same_log rfl rfl rfl

theorem committed_live : h.committed=(.ok h.node.pendingApply,h.committed.2) ∧ Live good cluster id peers d
    h.committed.2 ∧ h.committed.2.saved=h.saved ∧ h.committed.2.node.outbox=h.node.outbox := by
  have heq : h.committed=(.ok h.node.pendingApply,{h with node := {h.node with pendingApply:=[]}}) :=
    if_neg (by simp [hl.healthy])
  rw [heq]
  obtain ⟨hfit,hroomy,hname,hmembers⟩:=hl.node
  obtain ⟨handed,hpub⟩:=hl.pending
  refine ⟨rfl,⟨hl.healthy,⟨⟨{hfit.wf with},hfit.term_le,hfit.voted,hfit.commands,hfit.outbox⟩,?_,hname,hmembers⟩,
    ⟨handed++h.node.pendingApply,by simpa [Published] using hpub⟩,hl.saved,hl.bounded,hl.settled,hl.free⟩,rfl,rfl⟩
  exact hroomy.same_log rfl rfl rfl

end

/-- The checks on names and members that `open_validated` starts with. -/
def ValidConfig (cluster : String) (id : NodeId) (peers : List NodeId) : Prop :=
  validId cluster=true ∧ validId id=true ∧ peers.length≤255 ∧ ∀ p∈peers, validId p=true

def Restorable (good : Bytes → Prop) (cluster : String) (id : NodeId) (peers : List NodeId)
    (allowed : Option Saved → Prop) (o : Option Bytes) : Prop :=
  ∃ x, allowed x ∧ o=x.map (image .bounded) ∧
    ∀ s, x=some s → ∃ n, Sane good cluster id peers n ∧ s=snapshot n cluster

variable {allowed : Option Saved → Prop} {clock : Clock}

theorem validId_length {s : String} (h : validId s=true) : s.utf8ByteSize≤1024 := by
  simp only [validId,Bool.and_eq_true,decide_eq_true_eq] at h
  exact h.1.2

theorem validConfig_iff : ValidConfig cluster id peers ↔
    ¬ (validId cluster=false ∨ validId id=false ∨ peers.length>255 ∨ ∃ p∈peers, validId p=false) := by
  simp only [ValidConfig,not_or,not_exists,not_and,Bool.not_eq_false,Nat.not_lt]

theorem sane_new (hc : ValidConfig cluster id peers) (clock : Clock) :
    Sane good cluster id peers (RaftNode.new clock id peers) where
  fit := fit_new good clock id peers
  roomy := roomy_new clock (validId_length hc.1) (validId_length hc.2.1) hc.2.2.1
    fun p hp => validId_length (hc.2.2.2 p hp)
  name := rfl
  members := rfl

theorem sane_recovered (hn : Sane good cluster id peers n) (clock : Clock) :
    Sane good cluster id peers (recovered (RaftNode.new clock id peers) (snapshot n cluster)) where
  fit := ⟨{hn.fit.wf with applied:=rfl,active:=nofun,next_le:=nofun},hn.fit.term_le,fun v hv => by
      have:=hn.fit.voted v hv
      rwa [hn.name,hn.members] at this,hn.fit.commands,nofun⟩
  roomy := hn.roomy.same_log hn.name.symm hn.members.symm rfl
  name := rfl
  members := rfl

theorem snapshot_recovered (hn : Sane good cluster id peers n) (clock : Clock) :
    snapshot (recovered (RaftNode.new clock id peers) (snapshot n cluster)) cluster=snapshot n cluster := by
  have hid:=hn.name
  have hpeers:=hn.members
  simp only [snapshot,recovered,RaftNode.new]
  rw [hid,hpeers]

inductive Opened (good : Bytes → Prop) (cluster : String) (id : NodeId) (peers : List NodeId)
    (allowed : Option Saved → Prop) (clock : Clock) (budget : ℕ) (d : Disk RaftFile) :
    Disk RaftFile × Except RaftStorageError DurableRaft → Prop where
  | recovered (d' : Disk RaftFile) (s : Saved) (hallowed : allowed (some s))
      (hlive : Live good cluster id peers d' ⟨recovered (RaftNode.new clock id peers) s,s,false⟩) :
      Opened good cluster id peers allowed clock budget d
        (d',.ok ⟨Raft.recovered (RaftNode.new clock id peers) s,s,false⟩)
  | created (d' : Disk RaftFile) (hallowed : allowed none)
      (hlive : Live good cluster id peers d'
        ⟨RaftNode.new clock id peers,snapshot (RaftNode.new clock id peers) cluster,false⟩) :
      Opened good cluster id peers allowed clock budget d
        (d',.ok ⟨RaftNode.new clock id peers,snapshot (RaftNode.new clock id peers) cluster,false⟩)
  | incomplete (hallowed : allowed none) (hread : d.read .state=none) (hnext : (d.read .next).isSome=true) :
      Opened good cluster id peers allowed clock budget d
        (d,.error (.invalid "incomplete initial snapshot; refusing reset"))
  | stopped (d' : Disk RaftFile) (hread : (d.read .state).isSome=true) (hbudget : budget<ample)
      (hbounded : d'.Bounded) (hsettled : d'.Settled .state (Restorable good cluster id peers allowed)) :
      Opened good cluster id peers allowed clock budget d (d',.error .storage)
  | halfway (d' : Disk RaftFile) (r : Except RaftStorageError ℕ) (hread : d.read .state=none)
      (hnext : (d.read .next).isSome=false) (hallowed : allowed none) (hbudget : budget<ample)
      (hpub : publish .bounded budget (snapshot (RaftNode.new clock id peers) cluster) d=(d',r))
      (hbounded : d'.Bounded)
      (hsettled : d'.Settled .state (Restorable good cluster id peers fun x =>
        x=some (snapshot (RaftNode.new clock id peers) cluster) ∨ (∃ e, r=.error e) ∧ allowed x)) :
      Opened good cluster id peers allowed clock budget d (d',.error .storage)

theorem recovery_housekeeping (d : Disk RaftFile) : ∃ effects, Disk.recovery .next .state d=effects++[.syncDir] ∧
    (∀ e∈effects, Disk.Housekeeping RaftFile.next RaftFile.state e) ∧ Disk.cost (Disk.recovery .next .state d)≤3 := by
  refine ⟨(if (d.read .next).isSome then [Effect.unlink RaftFile.next] else [])++[.sync .state],?_,?_,?_⟩
  · simp [Disk.recovery]
  · intro e he
    rcases List.mem_append.mp he with he | he
    · split at he
      · exact .inl (List.mem_singleton.mp he)
      · contradiction
    · exact .inr (.inl (List.mem_singleton.mp he))
  · unfold Disk.recovery
    split <;> decide

theorem recover_opened (hn : Sane good cluster id peers n) (hb : d.Bounded)
    (hs : d.Settled .state (Restorable good cluster id peers allowed))
    (hread : d.read .state=some (image .bounded (snapshot n cluster)))
    (hallowed : allowed (some (snapshot n cluster))) (clock : Clock) (budget : ℕ) :
    Opened good cluster id peers allowed clock budget d
      (syncParent ⟨recovered (RaftNode.new clock id peers) (snapshot n cluster),snapshot n cluster,false⟩
        (d.exec budget (Disk.recovery .next .state d))) := by
  have hne : RaftFile.state≠RaftFile.next := by decide
  obtain ⟨effects,heffects,hall,hcost⟩:=recovery_housekeeping d
  obtain ⟨d1,hdone,hfree⟩:=Disk.recovery_completes hread hne.symm
  have hstopped : ∀ {d' : Disk RaftFile} {left}, d.exec budget (Disk.recovery .next .state d)=(d',left) →
      d'.Bounded ∧ d'.Settled .state (Restorable good cluster id peers allowed) := by
    intro d' left hx
    refine Disk.housekeeping_stopped hb hs hne ?_ (Disk.exec_stopped hx)
    intro e he
    rw [heffects] at he
    rcases List.mem_append.mp he with he | he
    · exact hall e he
    · exact .inr (.inr (List.mem_singleton.mp he))
  have hshort : ∀ {d' : Disk RaftFile} {left : Option ℕ}, d.exec budget (Disk.recovery .next .state d)=(d',left) →
      (∀ k, left≠some (k+1)) → budget<ample := by
    intro d' left hx hleft
    by_contra hbudget
    unfold ample at hbudget
    rw [Disk.exec_of_completed hdone (by omega)] at hx
    refine hleft (budget-Disk.cost (Disk.recovery .next .state d)-1) ?_
    rw [← (Prod.mk.inj hx).2,Nat.sub_add_cancel (by omega)]
  rcases hx : d.exec budget (Disk.recovery .next .state d) with ⟨d',_ | _ | k⟩
  · obtain ⟨hb',hs'⟩:=hstopped hx
    rw [hx]
    exact .stopped d' (by rw [hread]; rfl) (hshort hx nofun) hb' hs'
  · obtain ⟨hb',hs'⟩:=hstopped hx
    rw [hx]
    exact .stopped d' (by rw [hread]; rfl) (hshort hx nofun) hb' hs'
  · -- the directory is synced: what was read is all that can be read
    have hcomp:=Disk.exec_completed hx
    obtain rfl : d1=d' := Option.some.inj (hdone.symm.trans hcomp)
    rw [heffects] at hcomp
    obtain ⟨hb',hs'⟩:=Disk.housekeeping_completed hb hs hne hall hcomp
    rw [hread] at hs'
    rw [hx]
    exact .recovered d1 _ hallowed ⟨rfl,sane_recovered hn clock,⟨[],rfl⟩,(snapshot_recovered hn clock).symm,hb',hs',hfree⟩

theorem create_opened (hc : ValidConfig cluster id peers) (hb : d.Bounded)
    (hs : d.Settled .state (Restorable good cluster id peers allowed)) (hread : d.read .state=none)
    (hnext : (d.read .next).isSome=false) (hallowed : allowed none) (clock : Clock) (budget : ℕ) :
    Opened good cluster id peers allowed clock budget d
      (match publish .bounded budget (snapshot (RaftNode.new clock id peers) cluster) d with
        | (d',.error e) => (d',.error e)
        | (d',.ok left) =>
          syncParent ⟨RaftNode.new clock id peers,snapshot (RaftNode.new clock id peers) cluster,false⟩ (d',some left)) := by
  have hn : Sane good cluster id peers (RaftNode.new clock id peers) := sane_new hc clock
  have hfree : d.dir.lookup .next=none := by
    rwa [Disk.isSome_read,Option.isSome_eq_false_iff,Option.isNone_iff_eq_none] at hnext
  have hrest : ∀ {o : Option Bytes} {Q : Option Saved → Prop}, Q (some (snapshot (RaftNode.new clock id peers) cluster)) →
      o=some (image .bounded (snapshot (RaftNode.new clock id peers) cluster)) → Restorable good cluster id peers Q o := by
    intro o Q hQ ho
    refine ⟨some _,hQ,ho,?_⟩
    intro s hs
    cases hs
    exact ⟨_,hn,rfl⟩
  rcases publish_cases hn.fit hn.roomy hb hs hfree budget with
    ⟨d',left,hp,hb',hset,hfree',hleft⟩ | ⟨d',hp,hbudget,hb',hset⟩
  · rw [hp]
    dsimp only
    cases left with
    | zero =>
      have hbudget : budget<ample := by
        by_contra hlong
        exact absurd (hleft (Nat.le_of_not_lt hlong)) (Nat.lt_irrefl 0)
      exact .halfway d' (.ok 0) hread hnext hallowed hbudget hp hb' (hset.imp fun o ho => hrest (.inl rfl) ho)
    | succ left => exact .created d' hallowed ⟨rfl,hn,⟨[],rfl⟩,rfl,hb',hset,hfree'⟩
  · rw [hp]
    refine .halfway d' (.error .storage) hread hnext hallowed hbudget hp hb' (hset.imp ?_)
    rintro o (⟨x,hx,ho,hsane⟩ | ho)
    · exact ⟨x,.inr ⟨⟨_,rfl⟩,hx⟩,ho,hsane⟩
    · exact hrest (.inl rfl) ho

theorem open_opened (hc : ValidConfig cluster id peers) (hb : d.Bounded)
    (hs : d.Settled .state (Restorable good cluster id peers allowed)) {validateCommand : Bytes → Except String Unit}
    (hgood : ∀ cmd, good cmd → validateCommand cmd=.ok ()) (clock : Clock) (budget : ℕ) : Opened good cluster id peers
    allowed clock budget d (DurableRaft.openValidated .bounded clock cluster id peers validateCommand budget d) := by
  obtain ⟨x,hallowed,hread,hsane⟩:=hs.read
  unfold DurableRaft.openValidated
  rw [if_neg (validConfig_iff.mp hc)]
  dsimp only
  cases x with
  | some s =>
    obtain ⟨n,hn,rfl⟩:=hsane s rfl
    rw [show d.read .state=some (image .bounded (snapshot n cluster)) from hread]
    dsimp only
    rw [snapshot_accepted hn.fit hn.roomy hn.name.symm hn.members.symm hgood]
    exact recover_opened hn hb hs hread hallowed clock budget
  | none =>
    rw [show d.read .state=none from hread]
    dsimp only
    split
    · rename_i hnext
      exact .incomplete hallowed hread hnext
    · rename_i hnext
      exact create_opened hc hb hs hread (by simpa using hnext) hallowed clock budget

end config
end Parrot.Raft
