import Parrot.Directory.Replay

/-! # A group of durable directories

The same world as the Raft cluster's, with a directory over every host. -/

namespace Parrot.Directory
open Machine Parrot.Raft ReplicatedLog
open CrashFs (Disk)

structure Replica where
  disk : Disk RaftFile
  host : Option DurableDirectory

structure Group where
  replica : NodeId → Replica
  sent : List (NodeId × NodeId × RaftRpc)

namespace Group

def start : Group := ⟨fun _ => ⟨.empty,none⟩,[]⟩

def set (g : Group) (i : NodeId) (s : Replica) : Group :=
  {g with replica:=Function.update g.replica i s}

@[simp] theorem replica_set (g : Group) (i : NodeId) (s : Replica) : (g.set i s).replica i=s :=
  Function.update_self ..

theorem replica_set_ne (g : Group) {i j : NodeId} (s : Replica) (hij : j≠i) :
    (g.set i s).replica j=g.replica j := Function.update_of_ne hij ..

end Group

def Replica.after {α : Type} : Except Aborted (DirOutcome α) → Replica
  | .error p => ⟨p.2,none⟩
  | .ok o => ⟨o.disk,some o.host⟩

def Replica.opened : Disk RaftFile × Except DurableDirectoryError DurableDirectory → Replica
  | (d,.error _) => ⟨d,none⟩
  | (d,.ok h) => ⟨d,some h⟩

section group
variable (codec : DirectoryCodec) (storage : SnapshotCodec) (name : String) (members : Finset NodeId)

inductive Step : Group → Group → Prop where
  | opened (g : Group) (i : NodeId) (clock : Clock) (peers : List NodeId) (identity budget : ℕ)
      (hi : i∈members) (hpeers : ∀ x, x≠i → (x∈peers ↔ x∈members))
      (hdown : (g.replica i).host=none) :
      Step g (g.set i (.opened (DurableDirectory.openDirectory codec storage clock name i peers identity
        budget (g.replica i).disk)))
  | tick (g : Group) (i : NodeId) (h : DurableDirectory) (clock : Clock) (budget : ℕ)
      (hhost : (g.replica i).host=some h) :
      Step g (g.set i (.after (h.tick codec storage clock budget (g.replica i).disk)))
  | step (g : Group) (i : NodeId) (h : DurableDirectory) (clock : Clock) (src : NodeId)
      (rpc : RaftRpc) (budget : ℕ) (hhost : (g.replica i).host=some h)
      (hsent : (src,i,rpc)∈g.sent) :
      Step g (g.set i (.after (h.step codec storage clock src rpc budget (g.replica i).disk)))
  | propose (g : Group) (i : NodeId) (h : DurableDirectory) (cmd : DirCmd) (budget : ℕ)
      (hhost : (g.replica i).host=some h) :
      Step g (g.set i (.after (h.propose codec storage cmd budget (g.replica i).disk)))
  | submitRequest (g : Group) (i : NodeId) (h : DurableDirectory) (client id : String)
      (command : DirCmd) (budget : ℕ) (hhost : (g.replica i).host=some h) :
      Step g (g.set i (.after (h.submitRequest codec storage client id command budget
        (g.replica i).disk)))
  | beginLinearRead (g : Group) (i : NodeId) (h : DurableDirectory) (query : DirQuery) (budget : ℕ)
      (hhost : (g.replica i).host=some h) :
      Step g (g.set i (.after (h.beginLinearRead codec storage query budget (g.replica i).disk)))
  | outbox (g : Group) (i : NodeId) (h : DurableDirectory) (msgs : List (NodeId × RaftRpc))
      (hhost : (g.replica i).host=some h) (hout : h.outbox.1=.ok msgs) :
      Step g {g.set i {g.replica i with host:=some h.outbox.2} with
        sent := g.sent++msgs.map fun m => (i,m.1,m.2)}
  | exit (g : Group) (i : NodeId) : Step g (g.set i {g.replica i with host:=none})
  | crash (g : Group) (i : NodeId) (kept : ℕ) (cut : ℕ → ℕ) :
      Step g (g.set i ⟨(g.replica i).disk.crash kept cut,none⟩)

abbrev Run := Relation.ReflTransGen (Step codec storage name members)

def Replica.slot (s : Replica) : Slot := ⟨s.disk,s.host.map DurableDirectory.raft⟩

def Group.cluster (g : Group) (handed : List (NodeId × LogEntry)) : Cluster :=
  ⟨fun i => (g.replica i).slot,g.sent,handed⟩

/-- Raft's names of the group are prefixed, so that a bare Raft group is never adopted. -/
abbrev groupName (name : String) : String := "directory-v1:"++name

structure GroupInv (a : Ghost) (lows : NodeId → ℕ) (g : Group) : Prop where
  raft : ∃ handed, Inv storage (groupName name) members a lows (g.cluster handed)
  current : ∀ i h, (g.replica i).host=some h → Current codec h

variable {codec storage name members} {a a' : Ghost} {lows : NodeId → ℕ} {g g' : Group}
  {i j : NodeId} {h : DurableDirectory}

theorem cluster_set (g : Group) (i : NodeId) (s : Replica) (handed : List (NodeId × LogEntry)) :
    (g.set i s).cluster handed=(g.cluster handed).set i s.slot := by
  simp only [Group.cluster,Group.set,Cluster.set]
  congr 1
  funext j
  by_cases hij : j=i
  · subst hij
    simp
  · simp [Function.update_of_ne hij]

variable {handed : List (NodeId × LogEntry)}

theorem slot_cluster (hhost : (g.replica i).host=some h) : ((g.cluster handed).slot i).host=some h.raft := by
  simp [Group.cluster,Replica.slot,hhost]

theorem current_set (hinv : GroupInv codec storage name members a lows g) {s : Replica}
    (hs : ∀ h, s.host=some h → Current codec h) : ∀ j h, ((g.set i s).replica j).host=some h → Current codec h := by
  intro j h hh
  by_cases hij : j=i
  · subst hij
    rw [Group.replica_set] at hh
    exact hs h hh
  · rw [Group.replica_set_ne g s hij] at hh
    exact hinv.current j h hh

def Proposed (codec : DirectoryCodec) (bytes : Bytes) : Prop :=
  (∃ cmd : DirCmd, cmd.encode codec=.ok bytes) ∨
  (∃ client id cmd, encodeRequest codec client id cmd=.ok bytes) ∨ bytes=readBarrierBytes

inductive RaftCall (codec : DirectoryCodec) (storage : SnapshotCodec) (sent : List (NodeId × NodeId × RaftRpc)) (i : NodeId) (h : DurableRaft)
    (d : Disk RaftFile) : (α : Type) → Except Panic (Outcome α) → Prop where
  | tick (clock : Clock) (budget : ℕ) : RaftCall codec storage sent i h d Unit (h.tick storage clock budget d)
  | step (clock : Clock) (src : NodeId) (rpc : RaftRpc) (budget : ℕ) (hsent : (src,i,rpc)∈sent)
      (hbatch : DurableDirectory.checkBatch codec rpc=.ok ()) :
      RaftCall codec storage sent i h d Unit (h.step storage clock src rpc budget d)
  | propose (cmd : Bytes) (budget : ℕ) (hcmd : Proposed codec cmd) :
      RaftCall codec storage sent i h d ℕ (h.propose storage cmd budget d)

/-- What a call of a directory may leave: nothing done, one call of the host with
what follows it, or either of them with the directory gone. -/
inductive Ran (codec : DirectoryCodec) (storage : SnapshotCodec)
    (sent : List (NodeId × NodeId × RaftRpc)) (i : NodeId) (h : DurableDirectory)
    (d : Disk RaftFile) : Replica → Prop where
  | idle : Ran codec storage sent i h d ⟨d,some h⟩
  | drove {α : Type} (r : Except Panic (Outcome α)) (hlive : h.isClosed=false)
      (hcall : RaftCall codec storage sent i h.raft d α r) :
      Ran codec storage sent i h d (.after (h.drive codec d r))
  | gone (s : Replica) (hs : Ran codec storage sent i h d s) : Ran codec storage sent i h d ⟨s.disk,none⟩

theorem tick_ran (h : DurableDirectory) (clock : Clock) (budget : ℕ) (d : Disk RaftFile)
    (sent : List (NodeId × NodeId × RaftRpc)) :
    Ran codec storage sent i h d (.after (h.tick codec storage clock budget d)) := by
  unfold DurableDirectory.tick
  split
  · exact .idle
  · rename_i hlive
    exact .drove _ (by simpa using hlive) (.tick clock budget)

theorem step_ran (h : DurableDirectory) (clock : Clock) {src : NodeId} {rpc : RaftRpc} (budget : ℕ)
    (d : Disk RaftFile) {sent : List (NodeId × NodeId × RaftRpc)} (hsent : (src,i,rpc)∈sent) :
    Ran codec storage sent i h d (.after (h.step codec storage clock src rpc budget d)) := by
  unfold DurableDirectory.step
  split
  · exact .idle
  · rename_i hlive
    split
    · exact .idle
    · split
      · exact .idle
      · rename_i hbatch
        exact .drove _ (by simpa using hlive) (.step clock src rpc budget hsent hbatch)

theorem submit_ran {α : Type} {h : DurableDirectory} (hlive : h.isClosed=false) {bytes : Bytes}
    (hcmd : Proposed codec bytes) (budget : ℕ) (d : Disk RaftFile) (sent : List (NodeId × NodeId × RaftRpc))
    (f : DirOutcome ℕ → Except DurableDirectoryError α) :
    Ran codec storage sent i h d (.after (do
      let o ← h.submit codec storage bytes budget d
      return (⟨o.disk,o.host,f o⟩ : DirOutcome α))) := by
  have hran : Ran codec storage sent i h d (.after (h.submit codec storage bytes budget d)) :=
    .drove _ hlive (.propose bytes budget hcmd)
  cases hs : h.submit codec storage bytes budget d with
  | error | ok =>
    rw [hs] at hran
    exact hran

theorem propose_ran (h : DurableDirectory) (cmd : DirCmd) (budget : ℕ) (d : Disk RaftFile)
    (sent : List (NodeId × NodeId × RaftRpc)) :
    Ran codec storage sent i h d (.after (h.propose codec storage cmd budget d)) := by
  unfold DurableDirectory.propose
  split
  · exact .idle
  · rename_i hlive
    split
    · exact .idle
    · rename_i bytes hbytes
      exact submit_ran (by simpa using hlive) (.inl ⟨cmd,hbytes⟩) budget d sent _

theorem beginLinearRead_ran (h : DurableDirectory) (query : DirQuery) (budget : ℕ)
    (d : Disk RaftFile) (sent : List (NodeId × NodeId × RaftRpc)) :
    Ran codec storage sent i h d (.after (h.beginLinearRead codec storage query budget d)) := by
  unfold DurableDirectory.beginLinearRead
  split
  · exact .idle
  · rename_i hlive
    split
    · exact .idle
    · exact submit_ran (by simpa using hlive) (.inr (.inr rfl)) budget d sent _

theorem submitRequest_ran (h : DurableDirectory) (client id : String) (command : DirCmd) (budget : ℕ)
    (d : Disk RaftFile) (sent : List (NodeId × NodeId × RaftRpc)) :
    Ran codec storage sent i h d (.after (h.submitRequest codec storage client id command budget d)) := by
  unfold DurableDirectory.submitRequest
  split
  · exact .idle
  · rename_i hlive
    cases henc : encodeRequest codec client id command with
    | error e => exact .idle
    | ok bytes =>
      cases hdig : directoryCommandDigest codec command with
      | error e => exact .idle
      | ok digest =>
        dsimp only
        split
        · exact .gone _ .idle
        · exact .idle
        · split
          · exact .idle
          · have hran : Ran codec storage sent i h d
                (.after (h.submit codec storage bytes budget d)) :=
              .drove _ (by simpa using hlive) (.propose bytes budget (.inr (.inl ⟨client,id,command,henc⟩)))
            cases hs : h.submit codec storage bytes budget d with
            | error p =>
              rw [hs] at hran
              exact hran
            | ok o =>
              rw [hs] at hran
              simp only [bind,Except.bind,pure,Except.pure]
              split
              · exact hran
              · split
                · exact .gone _ hran
                · split
                  · exact .gone _ hran
                  · exact hran

theorem isClosed_false (h : DurableDirectory) : h.isClosed=false ↔ h.failed=false ∧ h.raft.failed=false := by
  simp [DurableDirectory.isClosed]

variable {d : Disk RaftFile} {r : DurableRaft}

theorem hostOk_synced {low : ℕ} (hok : HostOk storage (groupName name) members a low i d r) (hf : r.failed=false) :
    WellFormed r.node ∧ Synced r := by
  obtain ⟨hn,hsaved,-⟩:=hok.live hf
  refine ⟨hn.wf,?_,?_⟩
  · rw [DurableRaft.log,hsaved]
    rfl
  · rw [DurableRaft.commitIndex,hsaved]
    rfl

theorem raftCall_called {sent : List (NodeId × NodeId × RaftRpc)} {α : Type} {x : Except Panic (Outcome α)} (hwf : WellFormed r.node)
    (hcall : RaftCall codec storage sent i r d α x) {o : Outcome α} (ho : x=.ok o) :
    Called r o := by
  cases hcall with
  | tick clock budget => exact tick_called hwf ho
  | step clock src rpc budget hsent hbatch => exact step_called hwf ho
  | propose cmd budget hcmd => exact (propose_called hwf ho).1

theorem raftCall_step (hhost : (g.replica i).host=some h) {α : Type} {x : Except Panic (Outcome α)}
    (hcall : RaftCall codec storage g.sent i h.raft (g.replica i).disk α x) : Raft.Step storage
    (groupName name) members (g.cluster handed) ((g.cluster handed).set i (Slot.after (g.replica i).slot x)) := by
  cases hcall with
  | tick clock budget => exact .tick _ i h.raft clock budget (slot_cluster hhost)
  | step clock src rpc budget hsent hbatch =>
    exact .step _ i h.raft clock src rpc budget (slot_cluster hhost) hsent
  | propose cmd budget hcmd => exact .propose _ i h.raft cmd budget (slot_cluster hhost)

theorem applied_inv (codec : DirectoryCodec) (h : DurableDirectory)
    (hinv : Inv storage (groupName name) members a lows ((g.cluster handed).set i ⟨d,some h.raft⟩)) : ∃ a' handed',
    Grows a a' ∧ Inv storage (groupName name) members a' lows
    ((g.cluster handed').set i ⟨d,some (h.applyPending codec).1.raft⟩) := by
  rcases @applyPending_raft codec h with heq | ⟨entries,hcom⟩
  · rw [heq]
    exact ⟨a,handed,Grows.refl a,hinv⟩
  · have hstep : Raft.Step storage (groupName name) members _ _ := .committed
      ((g.cluster handed).set i ⟨d,some h.raft⟩) i h.raft entries
      (by simp [Cluster.set]) (by rw [hcom])
    obtain ⟨a',hg,hinv'⟩:=Raft.step_inv hstep hinv
    refine ⟨a',handed++entries.map fun e => (i,e),hg,?_⟩
    rw [hcom] at hinv'
    simpa [Cluster.set,Group.cluster] using hinv'

section
variable (hinv : GroupInv codec storage name members a lows g)
include hinv

theorem drive_inv (hhost : (g.replica i).host=some h)
    (hlive : h.isClosed=false) {α : Type} {x : Except Panic (Outcome α)}
    (hcall : RaftCall codec storage g.sent i h.raft (g.replica i).disk α x) : ∃ a', Grows a a' ∧
    GroupInv codec storage name members a' lows (g.set i (.after (h.drive codec (g.replica i).disk x))) := by
  obtain ⟨handed,hraft⟩:=hinv.raft
  obtain ⟨a1,hg1,hraft1⟩:=Raft.step_inv (@raftCall_step codec storage name members g i h handed hhost α x hcall)
    hraft
  obtain ⟨hwf,hsync⟩:=hostOk_synced ((hraft.slot (slot_cluster hhost)).host h.raft rfl)
    ((isClosed_false h).mp hlive).2
  cases hx : x with
  | error p =>
    refine ⟨a1,hg1,⟨handed,?_⟩,current_set hinv noSome⟩
    rw [hx] at hraft1
    rw [cluster_set]
    exact hraft1
  | ok o =>
    rw [hx] at hraft1
    have hcur:=driven_current (hinv.current i h hhost) hlive hwf hsync (raftCall_called hwf hcall hx)
    have hset : ∀ y, (Replica.after (h.drive codec (g.replica i).disk (.ok o))).host=some y → Current codec y := by
      intro y hy
      cases hy
      exact hcur
    -- the host's own outcome, and what `apply_pending` adds to it
    cases hres : o.result with
    | error e =>
      refine ⟨a1,hg1,⟨handed,?_⟩,current_set hinv hset⟩
      rw [cluster_set]
      simp only [DurableDirectory.drive,DurableDirectory.driven,hres,Replica.after,Replica.slot]
      exact hraft1
    | ok value =>
      obtain ⟨a2,handed',hg2,hraft2⟩:=applied_inv codec {h with raft:=o.host} hraft1
      refine ⟨a2,hg1.trans hg2,⟨handed',?_⟩,current_set hinv hset⟩
      rw [cluster_set]
      simp only [DurableDirectory.drive,DurableDirectory.driven,hres,Replica.after,Replica.slot]
      split <;> rename_i heq <;> rw [heq] at hraft2 <;> exact hraft2

theorem gone_inv (i : NodeId) : GroupInv codec storage name members a lows (g.set i ⟨(g.replica i).disk,none⟩) := by
  obtain ⟨handed,hraft⟩:=hinv.raft
  refine ⟨⟨handed,?_⟩,current_set hinv noSome⟩
  rw [cluster_set]
  by_cases hi : i∈members
  · exact (hraft.set .refl hi (hraft.slots i hi).down).2
  · exact hraft.set_other hi rfl

theorem ran_inv (hhost : (g.replica i).host=some h)
    {s : Replica} (hran : Ran codec storage g.sent i h (g.replica i).disk s) : ∃ a', Grows a a' ∧
    GroupInv codec storage name members a' lows (g.set i s) := by
  induction hran with
  | idle =>
    have hsame : g.set i ⟨(g.replica i).disk,some h⟩=g := by
      rw [← hhost]
      simp [Group.set]
    rw [hsame]
    exact ⟨a,Grows.refl a,hinv⟩
  | drove x hlive hcall => exact drive_inv hinv hhost hlive hcall
  | gone s hs ih =>
    obtain ⟨a',hg,hinv'⟩:=ih
    have hgone:=gone_inv hinv' i
    rw [Group.replica_set] at hgone
    refine ⟨a',hg,?_⟩
    have hset : (g.set i s).set i ⟨s.disk,none⟩=g.set i ⟨s.disk,none⟩ := by simp [Group.set]
    rwa [hset] at hgone

end

theorem syncParent_host {x : Disk RaftFile × Option ℕ}
    {host : DurableRaft} (h : syncParent r x=(d,.ok host)) : host=r := by
  rcases x with ⟨d',_ | _ | left⟩
  · simp [syncParent] at h
  · simp [syncParent] at h
  · exact (Except.ok.inj (Prod.mk.inj h).2).symm

theorem opened_pending {clock : Clock} {cluster : String} {peers : List NodeId}
    {validateCommand : Bytes → Except String Unit} {budget : ℕ} {d d' : Disk RaftFile}
    (h : DurableRaft.openValidated storage clock cluster i peers validateCommand budget d=(d',.ok r)) :
    r.failed=false ∧ Synced r ∧ r.node.pendingApply=r.node.log.take r.node.commitIndex := by
  unfold DurableRaft.openValidated at h
  split at h
  · simp at h
  · dsimp only at h
    split at h
    · split at h
      · simp at h
      · obtain rfl:=syncParent_host h
        exact ⟨rfl,⟨rfl,rfl⟩,rfl⟩
    · split at h
      · simp at h
      · split at h
        · simp at h
        · obtain rfl:=syncParent_host h
          exact ⟨rfl,⟨rfl,rfl⟩,rfl⟩

def commandCheck (codec : DirectoryCodec) (bytes : Bytes) : Except String Unit :=
  match decodeStored codec bytes with
  | .error e => .error e.message
  | .ok _ => .ok ()

theorem openDirectory_eq {clock : Clock} {peers : List NodeId} {identity budget : ℕ}
    (hname : (name.isEmpty||name.toList.any isControl)=false) :
    DurableDirectory.openDirectory codec storage clock name i peers identity budget d =
      match DurableRaft.openValidated storage clock (groupName name) i peers (commandCheck codec) budget d with
      | (d',.error e) => (d',.error (.storage e))
      | (d',.ok raft) =>
        match (⟨raft,.initial,0,false,normalizePeers i peers,identity⟩ : DurableDirectory).applyPending codec with
        | (_,.error e) => (d',.error e)
        | (h,.ok ()) => (d',.ok h) := by
  unfold DurableDirectory.openDirectory
  rw [if_neg (by simp [hname])]
  rfl

theorem openDirectory_cases (clock : Clock) (peers : List NodeId) (identity budget : ℕ) (d : Disk RaftFile)
    {x : Disk RaftFile × Except DurableDirectoryError DurableDirectory}
    (h : DurableDirectory.openDirectory codec storage clock name i peers identity budget d=x) :
    (∃ e, x=(d,.error e)) ∨
    (∃ d' e, DurableRaft.openValidated storage clock (groupName name) i peers (commandCheck codec) budget d =
    (d',.error e) ∧ x=(d',.error (.storage e))) ∨ ∃ d' r, DurableRaft.openValidated storage clock
    (groupName name) i peers (commandCheck codec) budget d=(d',.ok r) ∧ ((∃ e, x=(d',.error e)) ∨ ∃ y,
    (⟨r,.initial,0,false,normalizePeers i peers,identity⟩ : DurableDirectory).applyPending codec=(y,.ok ()) ∧
    x=(d',.ok y)) := by
  unfold DurableDirectory.openDirectory at h
  split at h
  · exact .inl ⟨_,h.symm⟩
  · split at h
    · rename_i d' e heq
      exact .inr (.inl ⟨d',e,heq,h.symm⟩)
    · rename_i d' r heq
      refine .inr (.inr ⟨d',r,heq,?_⟩)
      split at h
      · exact .inl ⟨_,h.symm⟩
      · rename_i y hy
        exact .inr ⟨y,hy,h.symm⟩

theorem opened_inv (hinv : GroupInv codec storage name members a lows g) (clock : Clock)
    {peers : List NodeId} (identity budget : ℕ) (hi : i∈members)
    (hpeers : ∀ x, x≠i → (x∈peers ↔ x∈members)) (hdown : (g.replica i).host=none) :
    ∃ a', Grows a a' ∧ GroupInv codec storage name members a' lows
      (g.set i (.opened (DurableDirectory.openDirectory codec storage clock name i peers identity
        budget (g.replica i).disk))) := by
  have hnone : ∀ (d : Disk RaftFile) (z : DurableDirectory), (⟨d,none⟩ : Replica).host=some z →
      Current codec z := by
    intro d z hz
    contradiction
  obtain ⟨handed,hraft⟩:=hinv.raft
  have hstep : Raft.Step storage (groupName name) members _ _ := .opened (g.cluster handed) i clock
    peers (commandCheck codec) budget hi hpeers (by simp [Group.cluster,Replica.slot,hdown])
  obtain ⟨a1,hg1,hraft1⟩:=Raft.step_inv hstep hraft
  rw [show ((g.cluster handed).slot i).disk=(g.replica i).disk from rfl] at hraft1
  rcases openDirectory_cases clock peers identity budget (g.replica i).disk rfl with
    ⟨e,he⟩ | ⟨d',e,hx,he⟩ | ⟨d',r,hx,hy⟩
  · rw [he]
    exact ⟨a,Grows.refl a,gone_inv hinv i⟩
  · rw [he]
    rw [hx] at hraft1
    refine ⟨a1,hg1,⟨handed,?_⟩,current_set hinv (hnone _)⟩
    rw [cluster_set]
    exact hraft1
  · rw [hx] at hraft1
    obtain ⟨hf,hsync,hpend⟩:=opened_pending hx
    have hok:=(hraft1.slots i hi).host r (by simp [Cluster.set,Slot.opened])
    have hcur : Current codec ((⟨r,.initial,0,false,normalizePeers i peers,identity⟩ :
        DurableDirectory).applyPending codec).1 :=
      applyPending_current (hostOk_synced hok hf).1 hsync (Nat.zero_le _) hpend rfl
    obtain ⟨a2,handed',hg2,hraft2⟩:=applied_inv codec
      ⟨r,.initial,0,false,normalizePeers i peers,identity⟩ hraft1
    rcases hy with ⟨e,he⟩ | ⟨y,hy,he⟩
    · -- the committed log could not be applied: the host is dropped with the directory
      rw [he]
      refine ⟨a1,hg1,⟨handed,?_⟩,current_set hinv (hnone _)⟩
      have hgone:=(hraft1.set .refl hi (hraft1.slots i hi).down).2
      rw [cluster_set]
      simpa [Cluster.set,Slot.opened,Replica.opened,Replica.slot] using hgone
    · rw [he]
      rw [hy] at hcur hraft2
      refine ⟨a2,hg1.trans hg2,⟨handed',?_⟩,current_set hinv ?_⟩
      · rw [cluster_set]
        exact hraft2
      · intro z hz
        cases hz
        exact hcur

theorem outbox_inv (hinv : GroupInv codec storage name members a lows g)
    (hhost : (g.replica i).host=some h) {msgs : List (NodeId × RaftRpc)}
    (hout : h.outbox.1=.ok msgs) :
    ∃ a', Grows a a' ∧ GroupInv codec storage name members a' lows
      {g.set i {g.replica i with host:=some h.outbox.2} with
        sent := g.sent++msgs.map fun m => (i,m.1,m.2)} := by
  obtain ⟨handed,hraft⟩:=hinv.raft
  unfold DurableDirectory.outbox at hout ⊢
  split at hout
  · contradiction
  · rename_i hlive
    rw [if_neg hlive]
    have hf:=((isClosed_false h).mp (by simpa using hlive)).2
    have hraftOut : h.raft.outbox=(.ok h.raft.node.outbox,
        {h.raft with node := {h.raft.node with outbox:=[]}}) := if_neg (by simp [hf])
    rw [hraftOut] at hout ⊢
    cases hout
    have hstep : Raft.Step storage (groupName name) members _ _ := .outbox (g.cluster handed) i h.raft
      h.raft.node.outbox (slot_cluster hhost) (by rw [hraftOut])
    obtain ⟨a',hg,hraft'⟩:=Raft.step_inv hstep hraft
    have hcur:=hinv.current i h hhost
    refine ⟨a',hg,⟨handed,?_⟩,current_set (g := g) hinv ?_⟩
    · rw [hraftOut] at hraft'
      have hset:=cluster_set g i ⟨(g.replica i).disk,
        some {h with raft := {h.raft with node := {h.raft.node with outbox:=[]}}}⟩ handed
      simp only [Group.cluster,Group.set,Cluster.set,Cluster.mk.injEq] at hset hraft' ⊢
      rw [hset.1]
      exact hraft'
    · intro x hx
      cases hx
      exact ⟨hcur.applied_le,hcur.view,hcur.live⟩

theorem group_start_inv : GroupInv codec storage name members ReplicatedLog.init (fun _ => 0)
    Group.start where
  raft := ⟨[],cluster_start_inv⟩
  current := fun _ => noSome

theorem group_step_inv (hstep : Step codec storage name members g g')
    (hinv : GroupInv codec storage name members a lows g) :
    ∃ a', Grows a a' ∧ GroupInv codec storage name members a' lows g' := by
  cases hstep with
  | opened i clock peers identity budget hi hpeers hdown =>
    exact opened_inv hinv clock identity budget hi hpeers hdown
  | tick i h clock budget hhost => exact ran_inv hinv hhost (tick_ran h clock budget _ g.sent)
  | step i h clock src rpc budget hhost hsent =>
    exact ran_inv hinv hhost (step_ran h clock budget _ hsent)
  | propose i h cmd budget hhost => exact ran_inv hinv hhost (propose_ran h cmd budget _ g.sent)
  | submitRequest i h client id command budget hhost =>
    exact ran_inv hinv hhost (submitRequest_ran h client id command budget _ g.sent)
  | beginLinearRead i h query budget hhost =>
    exact ran_inv hinv hhost (beginLinearRead_ran h query budget _ g.sent)
  | outbox i h msgs hhost hout => exact outbox_inv hinv hhost hout
  | exit i => exact ⟨a,Grows.refl a,gone_inv hinv i⟩
  | crash i kept cut =>
    obtain ⟨handed,hraft⟩:=hinv.raft
    obtain ⟨a',hg,hraft'⟩:=Raft.step_inv (.crash (g.cluster handed) i kept cut) hraft
    refine ⟨a',hg,⟨handed,?_⟩,current_set hinv noSome⟩
    rw [cluster_set]
    exact hraft'

theorem group_run_inv (hrun : Run codec storage name members g g')
    (hinv : GroupInv codec storage name members a lows g) :
    ∃ a', Grows a a' ∧ GroupInv codec storage name members a' lows g' := by
  induction hrun with
  | refl => exact ⟨a,Grows.refl a,hinv⟩
  | tail _ hstep ih =>
    obtain ⟨b,hab,hb⟩:=ih
    obtain ⟨d,hbd,hd⟩:=group_step_inv hstep hb
    exact ⟨d,hab.trans hbd,hd⟩

end group
end Parrot.Directory
