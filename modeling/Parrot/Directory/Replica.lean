import Parrot.Directory.Bounded
import Parrot.Directory.Group
import Parrot.Raft.Host

/-! # One directory replica under arbitrary input

A replica of a fixed configuration is opened, called, fails, exits or crashes, in any order, and
any message may arrive from anybody. -/

namespace Parrot.Directory
open Machine Parrot.Raft
open CrashFs (Disk)

def Stored (bytes : Bytes) : Prop := ∃ c, decodeStored .bounded bytes=.ok c

section config
variable (name : String) (id : NodeId) (peers : List NodeId)

inductive ReplicaStep : Replica → Replica → Prop where
  | opened (s : Replica) (clock : Clock) (identity budget : ℕ) (hdown : s.host=none) :
      ReplicaStep s (.opened (DurableDirectory.openDirectory .bounded .bounded clock name id peers identity budget s.disk))
  | tick (s : Replica) (x : DurableDirectory) (clock : Clock) (budget : ℕ) (hhost : s.host=some x) :
      ReplicaStep s (.after (x.tick .bounded .bounded clock budget s.disk))
  | step (s : Replica) (x : DurableDirectory) (clock : Clock) (src : NodeId) (rpc : RaftRpc) (budget : ℕ)
      (hhost : s.host=some x) (hrange : rpc.InRange) :
      ReplicaStep s (.after (x.step .bounded .bounded clock src rpc budget s.disk))
  | propose (s : Replica) (x : DurableDirectory) (cmd : DirCmd) (budget : ℕ) (hhost : s.host=some x) :
      ReplicaStep s (.after (x.propose .bounded .bounded cmd budget s.disk))
  | submitRequest (s : Replica) (x : DurableDirectory) (client request : String) (command : DirCmd) (budget : ℕ)
      (hhost : s.host=some x) :
      ReplicaStep s (.after (x.submitRequest .bounded .bounded client request command budget s.disk))
  | beginLinearRead (s : Replica) (x : DurableDirectory) (query : DirQuery) (budget : ℕ) (hhost : s.host=some x) :
      ReplicaStep s (.after (x.beginLinearRead .bounded .bounded query budget s.disk))
  | outbox (s : Replica) (x : DurableDirectory) (hhost : s.host=some x) :
      ReplicaStep s {s with host:=some x.outbox.2}
  | exit (s : Replica) : ReplicaStep s {s with host:=none}
  | crash (s : Replica) (kept : ℕ) (cut : ℕ → ℕ) : ReplicaStep s ⟨s.disk.crash kept cut,none⟩

abbrev ReplicaRun (s : Replica) : Prop := Relation.ReflTransGen (ReplicaStep name id peers) ⟨.empty,none⟩ s

abbrev Recoverable (d : Disk RaftFile) : Prop :=
  d.Bounded ∧ d.Settled .state (Restorable Stored (groupName name) id peers fun _ => True)

structure HostSound (d : Disk RaftFile) (x : DurableDirectory) : Prop where
  config : ValidConfig (groupName name) id peers
  healthy : x.failed=false
  current : Current .bounded x
  held : ∀ e∈x.raft.log, Stored e.cmd
  live : x.raft.failed=false → Live Stored (groupName name) id peers d x.raft

structure ReplicaSound (s : Replica) : Prop where
  disk : Recoverable name id peers s.disk
  host : ∀ x, s.host=some x → HostSound name id peers s.disk x

variable {name id peers} {d : Disk RaftFile} {x : DurableDirectory} {s s' : Replica}

theorem start_sound : ReplicaSound name id peers ⟨.empty,none⟩ where
  disk := ⟨Disk.empty_bounded,Disk.empty_settled ⟨none,trivial,rfl,noSome⟩⟩
  host := noSome

theorem ReplicaSound.down (h : ReplicaSound name id peers s) : ReplicaSound name id peers ⟨s.disk,none⟩ :=
  ⟨h.disk,noSome⟩

theorem live_recoverable {h : DurableRaft} (hl : Live Stored (groupName name) id peers d h) :
    Recoverable name id peers d := by
  refine ⟨hl.bounded,hl.settled.imp ?_⟩
  rintro o rfl
  refine ⟨some h.saved,trivial,rfl,?_⟩
  intro s hs
  cases hs
  exact ⟨h.node,hl.node,hl.saved⟩

theorem live_held {h : DurableRaft} (hl : Live Stored (groupName name) id peers d h) : ∀ e∈h.log, Stored e.cmd := by
  unfold DurableRaft.log
  rw [hl.saved]
  exact fun e he => (hl.node.fit.commands e he).2

theorem live_synced {h : DurableRaft} (hl : Live Stored (groupName name) id peers d h) : Synced h := by
  unfold Synced DurableRaft.log DurableRaft.commitIndex
  rw [hl.saved]
  exact ⟨rfl,rfl⟩

theorem proposed_stored {bytes : Bytes} (h : Proposed .bounded bytes) : Stored bytes := by
  rcases h with ⟨cmd,h⟩ | ⟨client,request,cmd,h⟩ | rfl
  · exact ⟨_,plain_decoded h⟩
  · exact ⟨_,request_stored h⟩
  · exact ⟨.readBarrier,rfl⟩

theorem checked_stored {rpc : RaftRpc} (h : DurableDirectory.checkBatch .bounded rpc=.ok ()) :
    ∀ e∈rpc.entries, Stored e.cmd := by
  cases rpc with
  | appendEntries term leader prev prevTerm entries commit =>
    simp only [DurableDirectory.checkBatch] at h
    split at h
    · contradiction
    · intro e he
      have hdecoded:=forM_eq_ok.mp h e he
      cases hd : decodeStored .bounded e.cmd with
      | error x =>
        rw [hd] at hdecoded
        contradiction
      | ok c => exact ⟨c,hd⟩
  | _ => nofun

theorem bytes_le_batch (entries : List LogEntry) : (entries.map fun e => e.cmd.length).sum≤batchBytes entries := by
  induction entries with
  | nil => exact Nat.le_refl 0
  | cons e entries ih =>
    simp only [batchBytes,List.map_cons,List.sum_cons] at ih ⊢
    omega

theorem sendable_checked {rpc : RaftRpc} (h : Sendable Stored id rpc) :
    DurableDirectory.checkBatch .bounded rpc=.ok () := by
  cases rpc with
  | appendEntries term leader prev prevTerm entries commit =>
    have hbytes:=bytes_le_batch entries
    obtain ⟨-,-,-,hfew,hsmall,hcommands⟩:=h
    simp only [RaftRpc.entries] at hfew hsmall hcommands
    simp only [DurableDirectory.checkBatch]
    rw [if_neg (by omega)]
    refine forM_eq_ok.mpr ?_
    intro e he
    obtain ⟨c,hc⟩:=(hcommands e he).2
    rw [hc]
    rfl
  | _ => rfl

theorem applyPending_succeeds (hl : Live Stored (groupName name) id peers d x.raft)
    (hpub : x.raft.node.log.take x.applied++x.raft.node.pendingApply=x.raft.node.log.take x.raft.node.commitIndex)
    (hview : x.view=replay .bounded (x.raft.node.log.take x.applied)) :
    ∃ y, x.applyPending .bounded=(y,.ok ()) ∧ y.raft=x.raft.committed.2 ∧ y.failed=x.failed := by
  have hmem : ∀ e∈x.raft.node.pendingApply, e∈x.raft.node.log := by
    intro e he
    have hin : e∈x.raft.node.log.take x.raft.node.commitIndex := by
      rw [← hpub]
      exact List.mem_append_right _ he
    exact List.mem_of_mem_take hin
  have hstored : ∀ e∈x.raft.node.pendingApply, ∃ c, decodeStored .bounded e.cmd=.ok c :=
    fun e he => (hl.node.fit.commands e (hmem e he)).2
  obtain ⟨commands,hcommands,hlen⟩:=mapM_total hstored
  have hversion:=@replay_version .bounded (x.raft.node.log.take x.applied)
  have hrevisions:=revisions_le (fun k => (x.view.requests k).isSome) [] commands
  have htotal:=congrArg List.length hpub
  have hcount:=hl.node.roomy.count
  have hcommit:=hl.node.fit.wf.commit_le
  rw [List.length_append,List.length_take,List.length_take] at htotal
  rw [List.length_take] at hversion
  unfold maxEntries at hcount
  have hrev : x.view.sm.version+revisions (fun k => (x.view.requests k).isSome) [] commands≤u64Max := by
    rw [hview] at hrevisions ⊢
    unfold u64Max
    omega
  have hcom : x.raft.committed=(.ok x.raft.node.pendingApply,
      {x.raft with node := {x.raft.node with pendingApply:=[]}}) := if_neg (by simp [hl.healthy])
  rw [applyPending_ok hl.healthy hcommands hrev,hcom]
  exact ⟨_,rfl,rfl,rfl⟩

section calls
variable {sent : List (NodeId × NodeId × RaftRpc)}

theorem raftCall_served (hl : Live Stored (groupName name) id peers d x.raft) (hsent : ∀ m∈sent, m.2.2.InRange)
    {α : Type} {r : Except Panic (Outcome α)} (hcall : RaftCall .bounded .bounded sent id x.raft d α r) : ∃ budget o,
    r=.ok o ∧ Served Stored (groupName name) id peers d x.raft budget o := by
  cases hcall with
  | tick clock budget => exact ⟨budget,tick_served hl clock budget⟩
  | step clock src rpc budget hin hbatch =>
    exact ⟨budget,step_served hl clock src (hsent _ hin) (checked_stored hbatch) budget⟩
  | propose cmd budget hcmd => exact ⟨budget,propose_served hl (proposed_stored hcmd) budget⟩

theorem served_applies (hx : HostSound name id peers d x) (hf : x.raft.failed=false) {α : Type} {o : Outcome α}
    {budget : ℕ} (hs : Served Stored (groupName name) id peers d x.raft budget o) :
    (∃ e y, o.result=.error e ∧ y=({x with raft:=o.host} : DurableDirectory) ∧ y.failed=false ∧
      Recoverable name id peers o.disk ∧ (∀ e∈y.raft.log, Stored e.cmd) ∧
      (y.raft.failed=false → Live Stored (groupName name) id peers o.disk y.raft)) ∨
    ∃ value y, o.result=.ok value ∧
      ({x with raft:=o.host} : DurableDirectory).applyPending .bounded=(y,.ok ()) ∧ y.failed=false ∧
      Live Stored (groupName name) id peers o.disk y.raft := by
  have hl:=hx.live hf
  have hopen : x.isClosed=false := (isClosed_false x).mpr ⟨hx.healthy,hf⟩
  cases hs with
  | refused e he => exact .inl ⟨e,_,rfl,rfl,hx.healthy,live_recoverable hl,live_held hl,fun _ => hl⟩
  | moved inp n' value o hin hmoves hsane hspoken hfin =>
    cases hfin with
    | done d' hlive =>
      right
      obtain ⟨-,hpub,hview⟩:=moved_pending hx.current hopen hl.node.fit.wf (live_synced hl) hmoves
      obtain ⟨y,hy,hraft,hfailed⟩:=applyPending_succeeds
        (x := {x with raft:=⟨n',snapshot n' (groupName name),false⟩}) hlive hpub hview
      refine ⟨value,y,rfl,hy,hfailed.trans hx.healthy,?_⟩
      rw [hraft]
      exact (committed_live hlive).2.1
    | stopped d' hshort hbounded hsettled =>
      have hheld:=live_held hl
      refine .inl ⟨_,_,rfl,rfl,hx.healthy,⟨hbounded,hsettled.imp ?_⟩,hheld,nofun⟩
      rintro o (rfl | rfl)
      · refine ⟨some x.raft.saved,trivial,rfl,?_⟩
        intro s hs
        cases hs
        exact ⟨x.raft.node,hl.node,hl.saved⟩
      · refine ⟨some _,trivial,rfl,?_⟩
        intro s hs
        cases hs
        exact ⟨n',hsane,rfl⟩

theorem drove_sound (hx : HostSound name id peers d x) (hlive : x.isClosed=false) (hsent : ∀ m∈sent, m.2.2.InRange)
    {α : Type} {r : Except Panic (Outcome α)} (hcall : RaftCall .bounded .bounded sent id x.raft d α r) :
    ReplicaSound name id peers (.after (x.drive .bounded d r)) := by
  have hf:=((isClosed_false x).mp hlive).2
  have hl:=hx.live hf
  obtain ⟨budget,o,rfl,hs⟩:=raftCall_served hl hsent hcall
  have hcur:=driven_current hx.current hlive hl.node.fit.wf (live_synced hl)
    (raftCall_called hl.node.fit.wf hcall rfl)
  rcases served_applies hx hf hs with ⟨e,y,he,rfl,hfailed,hdisk,hheld,hlive'⟩ | ⟨value,y,hv,hy,hfailed,hlive'⟩
  · have hdriven : x.driven .bounded o=⟨o.disk,{x with raft:=o.host},.error (.storage e)⟩ := by
      unfold DurableDirectory.driven
      rw [he]
    rw [hdriven] at hcur
    simp only [DurableDirectory.drive,hdriven,Replica.after]
    refine ⟨hdisk,?_⟩
    intro z hz
    cases hz
    exact ⟨hx.config,hfailed,hcur,hheld,hlive'⟩
  · have hdriven : x.driven .bounded o=⟨o.disk,y,.ok value⟩ := by
      unfold DurableDirectory.driven
      rw [hv]
      dsimp only
      rw [hy]
    rw [hdriven] at hcur
    simp only [DurableDirectory.drive,hdriven,Replica.after]
    refine ⟨live_recoverable hlive',?_⟩
    intro z hz
    cases hz
    exact ⟨hx.config,hfailed,hcur,live_held hlive',fun _ => hlive'⟩

theorem ran_sound (h : ReplicaSound name id peers s) (hhost : s.host=some x) (hsent : ∀ m∈sent, m.2.2.InRange)
    (hran : Ran .bounded .bounded sent id x s.disk s') : ReplicaSound name id peers s' := by
  induction hran with
  | idle =>
    rw [← hhost]
    exact h
  | drove r hlive hcall => exact drove_sound (h.host x hhost) hlive hsent hcall
  | gone s'' hs ih => exact ih.down

end calls

theorem stored_checked (bytes : Bytes) (h : Stored bytes) : commandCheck .bounded bytes=.ok () := by
  obtain ⟨c,hc⟩:=h
  unfold commandCheck
  rw [hc]

theorem opened_sound (hc : ValidConfig (groupName name) id peers) (identity : ℕ) {r : DurableRaft} {clock : Clock}
    {budget : ℕ} {d' : Disk RaftFile}
    (hopen : DurableRaft.openValidated .bounded clock (groupName name) id peers (commandCheck .bounded) budget d =
      (d',.ok r)) (hl : Live Stored (groupName name) id peers d' r) :
    ∃ y, (⟨r,.initial,0,false,normalizePeers id peers,identity⟩ : DurableDirectory).applyPending .bounded =
      (y,.ok ()) ∧ y.isClosed=false ∧ HostSound name id peers d' y := by
  obtain ⟨hf,hsync,hpend⟩:=opened_pending hopen
  have hcur:=@applyPending_current .bounded ⟨r,.initial,0,false,normalizePeers id peers,identity⟩
    hl.node.fit.wf hsync (Nat.zero_le _) hpend rfl
  obtain ⟨y,hy,hraft,hfailed⟩:=applyPending_succeeds
    (x := ⟨r,.initial,0,false,normalizePeers id peers,identity⟩) hl hpend rfl
  rw [hy] at hcur
  have hlive : Live Stored (groupName name) id peers d' y.raft := by
    rw [hraft]
    exact (committed_live hl).2.1
  exact ⟨y,hy,(isClosed_false y).mpr ⟨hfailed,hlive.healthy⟩,hc,hfailed,hcur,live_held hlive,fun _ => hlive⟩

inductive DirectoryOpened (name : String) (id : NodeId) (peers : List NodeId) (budget : ℕ) (d : Disk RaftFile) :
    Disk RaftFile × Except DurableDirectoryError DurableDirectory → Prop where
  | opened (d' : Disk RaftFile) (y : DurableDirectory) (hopen : y.isClosed=false) (hsound : HostSound name id peers d' y)
      (hdisk : Recoverable name id peers d') : DirectoryOpened name id peers budget d (d',.ok y)
  | config (e : DurableDirectoryError) (hbad : name.isEmpty=true ∨ ¬ ValidConfig (groupName name) id peers) :
      DirectoryOpened name id peers budget d (d,.error e)
  | incomplete (hread : d.read .state=none) (hnext : (d.read .next).isSome=true) :
      DirectoryOpened name id peers budget d
        (d,.error (.storage (.invalid "incomplete initial snapshot; refusing reset")))
  | stopped (d' : Disk RaftFile) (hbudget : budget<ample) (hdisk : Recoverable name id peers d') :
      DirectoryOpened name id peers budget d (d',.error (.storage .storage))

theorem name_printable (hc : ValidConfig (groupName name) id peers) : name.toList.any isControl=false := by
  have hvalid:=hc.1
  simp only [validId,Bool.and_eq_true,Bool.not_eq_true',groupName,String.toList_append,List.any_append,
    Bool.or_eq_false_iff] at hvalid
  exact hvalid.2.2

theorem openDirectory_opened (hd : Recoverable name id peers d) (clock : Clock) (identity budget : ℕ) :
    DirectoryOpened name id peers budget d
      (DurableDirectory.openDirectory .bounded .bounded clock name id peers identity budget d) := by
  by_cases hbad : name.isEmpty=true ∨ ¬ ValidConfig (groupName name) id peers
  · -- one of the checks that `open` starts with fails
    unfold DurableDirectory.openDirectory
    split
    · exact .config _ hbad
    · rename_i hname
      rw [Bool.or_eq_true,not_or] at hname
      have hc:=hbad.resolve_left hname.1
      rw [validConfig_iff,not_not] at hc
      unfold DurableRaft.openValidated
      rw [if_pos hc]
      exact .config _ hbad
  · push Not at hbad
    obtain ⟨hname,hc⟩:=hbad
    have hopened:=open_opened hc hd.1 hd.2 stored_checked clock budget
    rw [openDirectory_eq (by simp [hname,name_printable hc])]
    generalize hx : DurableRaft.openValidated .bounded clock (groupName name) id peers (commandCheck .bounded) budget d =
      result at hopened ⊢
    cases hopened with
    | recovered d' s hallowed hlive =>
      obtain ⟨y,hy,hopen,hsound⟩:=opened_sound hc identity hx hlive
      dsimp only
      rw [hy]
      exact .opened d' y hopen hsound (live_recoverable hlive)
    | created d' hallowed hlive =>
      obtain ⟨y,hy,hopen,hsound⟩:=opened_sound hc identity hx hlive
      dsimp only
      rw [hy]
      exact .opened d' y hopen hsound (live_recoverable hlive)
    | incomplete hallowed hread hnext => exact .incomplete hread hnext
    | stopped d' hread hbudget hbounded hsettled => exact .stopped d' hbudget ⟨hbounded,hsettled⟩
    | halfway d' r hread hnext hallowed hbudget hpub hbounded hsettled =>
      refine .stopped d' hbudget ⟨hbounded,hsettled.imp ?_⟩
      rintro o ⟨x,-,ho,hsane⟩
      exact ⟨x,trivial,ho,hsane⟩

theorem outbox_sound (hx : HostSound name id peers d x) : HostSound name id peers d x.outbox.2 := by
  unfold DurableDirectory.outbox
  split
  · exact hx
  · rename_i hopen
    have hf:=((isClosed_false x).mp (by simpa using hopen)).2
    obtain ⟨heq,hlive,-⟩:=outbox_live (hx.live hf)
    obtain ⟨hle,hview,hdone⟩:=hx.current
    have hraft : x.raft.outbox=(.ok x.raft.node.outbox,{x.raft with node := {x.raft.node with outbox:=[]}}) :=
      if_neg (by simp [hf])
    rw [hraft] at hlive ⊢
    exact ⟨hx.config,hx.healthy,⟨hle,hview,hdone⟩,hx.held,fun _ => hlive⟩

theorem replicaStep_sound (hstep : ReplicaStep name id peers s s') (h : ReplicaSound name id peers s) :
    ReplicaSound name id peers s' := by
  have hnone : ∀ m∈([] : List (NodeId × NodeId × RaftRpc)), m.2.2.InRange := nofun
  cases hstep with
  | opened clock identity budget hdown =>
    have hopened:=openDirectory_opened h.disk clock identity budget
    generalize DurableDirectory.openDirectory .bounded .bounded clock name id peers identity budget s.disk=result
      at hopened
    cases hopened with
    | opened d' y hopen hsound hdisk =>
      refine ⟨hdisk,?_⟩
      intro z hz
      cases hz
      exact hsound
    | config | incomplete => exact h.down
    | stopped d' hbudget hdisk => exact ⟨hdisk,noSome⟩
  | tick x clock budget hhost => exact ran_sound h hhost hnone (tick_ran x clock budget _ [])
  | step x clock src rpc budget hhost hrange =>
    refine ran_sound h hhost ?_ (step_ran x clock budget _ (List.mem_singleton_self (src,id,rpc)))
    intro m hm
    rw [List.mem_singleton.mp hm]
    exact hrange
  | propose x cmd budget hhost => exact ran_sound h hhost hnone (propose_ran x cmd budget _ [])
  | submitRequest x client request command budget hhost =>
    exact ran_sound h hhost hnone (submitRequest_ran x client request command budget _ [])
  | beginLinearRead x query budget hhost => exact ran_sound h hhost hnone (beginLinearRead_ran x query budget _ [])
  | outbox x hhost =>
    refine ⟨h.disk,?_⟩
    intro z hz
    cases hz
    exact outbox_sound (h.host x hhost)
  | exit => exact h.down
  | crash kept cut => exact ⟨⟨h.disk.1.crash kept cut,h.disk.2.crash kept cut⟩,noSome⟩

theorem replicaRun_sound (hrun : ReplicaRun name id peers s) : ReplicaSound name id peers s := by
  induction hrun with
  | refl => exact start_sound
  | tail _ hstep ih => exact replicaStep_sound hstep ih

/-- The three kinds of log entry share one byte space and are never confused. -/
structure LogCodec : Prop where
  plain : ∀ (cmd : DirCmd) bytes, cmd.encode .bounded=.ok bytes →
    bytes.length≤1024*1024 ∧ decodeStored .bounded bytes=.ok (.plain cmd)
  request : ∀ client request cmd bytes, encodeRequest .bounded client request cmd=.ok bytes →
    bytes.length≤1024*1024 ∧ decodeStored .bounded bytes=.ok (.request ⟨client,request,cmd⟩)
  barrier : ∀ bytes, decodeStored .bounded bytes=.ok .readBarrier ↔ bytes=readBarrierBytes
  disjoint : ∀ (cmd : DirCmd) bytes, cmd.encode .bounded=.ok bytes → bytes≠readBarrierBytes ∧
    ∀ client request cmd' bytes', encodeRequest .bounded client request cmd'=.ok bytes' →
      bytes≠bytes' ∧ bytes'≠readBarrierBytes
  valid : ∀ bytes c, decodeStored .bounded bytes=.ok c → c.Valid

/-- What a replica in state `s` does with the commands it holds, sends and finds on disk. -/
structure Unpoisoned (name : String) (id : NodeId) (peers : List NodeId) (s : Replica) : Prop where
  healthy : ∀ x, s.host=some x → x.failed=false
  holds : ∀ x, s.host=some x → ∀ e∈x.raft.log, ∃ c, decodeStored .bounded e.cmd=.ok c ∧ c.Valid
  applies : ∀ x, s.host=some x → x.isClosed=false →
    ∀ sent, (∀ m∈sent, m.2.2.InRange) → ∀ α r, RaftCall .bounded .bounded sent id x.raft s.disk α r →
      ∃ o, r=.ok o ∧ ∀ value, o.result=.ok value →
        ∃ y, ({x with raft:=o.host} : DurableDirectory).applyPending .bounded=(y,.ok ()) ∧ y.isClosed=false
  sends : ∀ x, s.host=some x → ∀ msgs, x.outbox.1=.ok msgs →
    ∀ m∈msgs, DurableDirectory.checkBatch .bounded m.2=.ok ()
  reopens : ValidConfig (groupName name) id peers → name.isEmpty=false → ∀ clock identity budget,
    match (DurableDirectory.openDirectory .bounded .bounded clock name id peers identity budget s.disk).2 with
    | .ok y => y.isClosed=false
    | .error e => (e=.storage .storage ∧ budget<ample) ∨
      (e=.storage (.invalid "incomplete initial snapshot; refusing reset") ∧ s.disk.read .state=none)

theorem logCodec : LogCodec where
  plain := fun cmd bytes h => ⟨(encode_ok h).2.2,plain_decoded h⟩
  request := fun client request cmd bytes h => ⟨(encodeRequest_ok h).2.2.2,request_stored h⟩
  barrier := fun bytes => ⟨decodeStored_barrier,by rintro rfl; rfl⟩
  disjoint := by
    intro cmd bytes h
    constructor
    · rintro rfl
      exact nomatch plain_decoded h
    · intro client request cmd' bytes' h'
      constructor
      · rintro rfl
        exact nomatch (plain_decoded h).symm.trans (request_stored h')
      · rintro rfl
        exact nomatch request_stored h'
  valid := fun bytes c h => decodeStored_valid h

theorem outbox_sendable (hx : HostSound name id peers d x) {msgs : List (NodeId × RaftRpc)}
    (hout : x.outbox.1=.ok msgs) : ∀ m∈msgs, Sendable Stored id m.2 := by
  unfold DurableDirectory.outbox at hout
  split at hout
  · contradiction
  · rename_i hopen
    have hf:=((isClosed_false x).mp (by simpa using hopen)).2
    have hl:=hx.live hf
    rw [(outbox_live hl).1] at hout
    cases hout
    rw [← hl.node.name]
    exact hl.node.fit.outbox

theorem commands_never_poison (hrun : ReplicaRun name id peers s) : LogCodec ∧ Unpoisoned name id peers s := by
  have hs:=replicaRun_sound hrun
  refine ⟨logCodec,fun x hx => (hs.host x hx).healthy,?_,?_,?_,?_⟩
  · intro x hx e he
    obtain ⟨c,hc⟩:=(hs.host x hx).held e he
    exact ⟨c,hc,decodeStored_valid hc⟩
  · intro x hx hopen sent hsent α r hcall
    have hf:=((isClosed_false x).mp hopen).2
    obtain ⟨budget,o,ho,hserved⟩:=raftCall_served ((hs.host x hx).live hf) hsent hcall
    refine ⟨o,ho,?_⟩
    intro value hvalue
    rcases served_applies (hs.host x hx) hf hserved with ⟨e,y,he,-⟩ | ⟨-,y,-,hy,hfailed,hlive⟩
    · exact nomatch he.symm.trans hvalue
    · exact ⟨y,hy,(isClosed_false y).mpr ⟨hfailed,hlive.healthy⟩⟩
  · intro x hx msgs hout m hm
    exact sendable_checked (outbox_sendable (hs.host x hx) hout m hm)
  · intro hc hname clock identity budget
    have hopened:=openDirectory_opened hs.disk clock identity budget
    generalize DurableDirectory.openDirectory .bounded .bounded clock name id peers identity budget s.disk=result
      at hopened
    cases hopened with
    | opened d' y hopen hsound hdisk => exact hopen
    | config e hbad =>
      rcases hbad with hbad | hbad
      · exact absurd hbad (by simp [hname])
      · exact absurd hc hbad
    | incomplete hread hnext => exact .inr ⟨rfl,hread⟩
    | stopped d' hbudget hdisk => exact .inl ⟨rfl,hbudget⟩

end config

def freshClock : Clock := ⟨fun _ => 0,1,1,1⟩

def freshHost : DurableRaft :=
  ⟨RaftNode.new freshClock "a" ["b"],snapshot (RaftNode.new freshClock "a" ["b"]) (groupName "d"),false⟩

def freshDirectory : DurableDirectory := ⟨freshHost,.initial,0,false,normalizePeers "a" ["b"],0⟩

theorem fresh_config : ValidConfig (groupName "d") "a" ["b"] := ⟨by decide,by decide,by decide,by decide⟩

theorem fresh_opened : ∃ d', DurableDirectory.openDirectory .bounded .bounded freshClock "d" "a" ["b"] 0 ample .empty =
    (d',.ok freshDirectory) ∧ Live Stored (groupName "d") "a" ["b"] d' freshHost := by
  have hsettled : Disk.empty.Settled RaftFile.state (Restorable Stored (groupName "d") "a" ["b"] (· = none)) :=
    Disk.empty_settled ⟨none,rfl,rfl,noSome⟩
  have hopened:=open_opened fresh_config Disk.empty_bounded hsettled stored_checked freshClock ample
  have happly : freshDirectory.applyPending .bounded=(freshDirectory,.ok ()) := applyPending_ok rfl rfl (by decide)
  rw [openDirectory_eq (by decide)]
  generalize DurableRaft.openValidated .bounded freshClock (groupName "d") "a" ["b"] (commandCheck .bounded) ample
    .empty=result at hopened ⊢
  cases hopened with
  | recovered d' s hallowed hlive => exact nomatch hallowed
  | created d' hallowed hlive =>
    refine ⟨d',?_,hlive⟩
    unfold freshDirectory freshHost at happly
    dsimp only
    rw [happly]
    rfl
  | incomplete hallowed hread hnext => exact absurd hnext (by decide)
  | stopped d' hread hbudget hbounded hsettled => exact absurd hbudget (Nat.lt_irrefl _)
  | halfway d' r hread hnext hallowed hbudget hpub hbounded hsettled => exact absurd hbudget (Nat.lt_irrefl _)

theorem commands_never_poison_fresh : ∃ d, ReplicaRun "d" "a" ["b"] ⟨d,some freshDirectory⟩ ∧
    Unpoisoned "d" "a" ["b"] ⟨d,some freshDirectory⟩ := by
  obtain ⟨d,hopen,-⟩:=fresh_opened
  have hstep : ReplicaStep "d" "a" ["b"] ⟨.empty,none⟩ (.opened (DurableDirectory.openDirectory .bounded .bounded freshClock
    "d" "a" ["b"] 0 ample .empty)) := .opened ⟨.empty,none⟩ freshClock 0 ample rfl
  rw [hopen] at hstep
  exact ⟨d,.single hstep,(commands_never_poison (.single hstep)).2⟩

end Parrot.Directory
