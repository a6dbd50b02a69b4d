import Parrot.Directory.Durable
import Parrot.Raft.ClusterInv

/-! # The directory is the replay of its committed log

`replay` folds the committed entries into a state machine and a request table. -/

namespace Parrot.Directory
open Machine Parrot.Raft

section replay
variable (codec : DirectoryCodec)

/-- One entry of the committed log; an entry that does not decode is never applied. -/
def applyEntry (v : View) (e : LogEntry) : View :=
  match decodeStored codec e.cmd with
  | .error _ => v
  | .ok cmd =>
    match v.apply codec e cmd with
    | .error _ => v
    | .ok v' => v'

def replay (log : List LogEntry) : View := log.foldl (applyEntry codec) .initial

/-- The directory is the replay of the first `applied` entries, which are committed;
while it is open they are all that is committed. -/
structure Current (h : DurableDirectory) : Prop where
  applied_le : h.applied≤h.raft.commitIndex
  view : h.view=replay codec (h.raft.log.take h.applied)
  live : h.isClosed=false → h.raft.node.pendingApply=[] ∧ h.applied=h.raft.commitIndex

def Synced (h : DurableRaft) : Prop := h.log=h.node.log ∧ h.commitIndex=h.node.commitIndex

variable {codec}

theorem replay_append (l l' : List LogEntry) : replay codec (l++l')=l'.foldl (applyEntry codec) (replay codec l) :=
  List.foldl_append

variable {e : LogEntry} {v : View}

theorem apply_decoded {cmd : StoredCommand}
    (h : decodeStored codec e.cmd=.ok cmd) : v.apply codec e cmd=.ok (applyEntry codec v e) := by
  have hok : ∃ v', v.apply codec e cmd=.ok v' := by
    cases cmd with
    | readBarrier => exact ⟨v,rfl⟩
    | plain command => exact ⟨_,rfl⟩
    | request r =>
      obtain ⟨-,digest,hd⟩:=decode_request codec h
      by_cases hk : (v.requests (r.client,r.id)).isSome=true
      · exact ⟨v,by simp [View.apply,hk]⟩
      · exact ⟨_,by simp only [View.apply,hk,hd,bind,Except.bind]; rfl⟩
  obtain ⟨v',hv⟩:=hok
  rw [hv]
  unfold applyEntry
  rw [h]
  dsimp only
  rw [hv]

theorem applyAll_decoded {entries : List LogEntry} {commands : List StoredCommand}
    (h : entries.mapM (fun e => decodeStored codec e.cmd)=.ok commands) :
    v.applyAll codec (entries.zip commands)=(entries.foldl (applyEntry codec) v,none) := by
  induction entries generalizing v commands with
  | nil => rfl
  | cons e entries ih =>
    rw [List.mapM_cons] at h
    cases hd : decodeStored codec e.cmd with
    | error x => simp [hd,bind,Except.bind] at h
    | ok cmd =>
      cases hm : entries.mapM (fun e => decodeStored codec e.cmd) with
      | error x => simp [hd,hm,bind,Except.bind] at h
      | ok rest =>
        simp only [hd,hm,bind,Except.bind,pure,Except.pure,Except.ok.injEq] at h
        subst h
        simp only [List.zip_cons_cons,View.applyAll,apply_decoded hd,List.foldl_cons]
        exact ih hm

variable {client id : String}

/-- The entry is a request under the given identity. -/
def Carries (codec : DirectoryCodec) (client id : String) (e : LogEntry) : Prop :=
  ∃ r, decodeStored codec e.cmd=.ok (.request r) ∧ r.client=client ∧ r.id=id

/-- Position `k` holds the first entry of the identity. -/
structure First (codec : DirectoryCodec) (client id : String) (log : List LogEntry) (k : ℕ)
    (e : LogEntry) : Prop where
  get : log[k]? = some e
  carries : Carries codec client id e
  first : ∀ k' e', k'<k → log[k']? = some e' → ¬ Carries codec client id e'

theorem applyEntry_decoded {cmd : StoredCommand} {v' : View} (h : decodeStored codec e.cmd=.ok cmd)
    (hv : v.apply codec e cmd=.ok v') : applyEntry codec v e=v' := by
  rw [apply_decoded h] at hv
  exact Except.ok.inj hv

theorem applyEntry_known (hc : Carries codec client id e)
    (hk : v.requests (client,id)≠none) : applyEntry codec v e=v := by
  obtain ⟨r,hd,rfl,rfl⟩:=hc
  exact applyEntry_decoded hd (if_pos (Option.isSome_iff_ne_none.mpr hk))

theorem applyEntry_new {r : RequestCommand} {digest : Bytes} (hd : decodeStored codec e.cmd=.ok (.request r))
    (hdig : directoryCommandDigest codec r.command=.ok digest) (hk : v.requests (r.client,r.id)=none) :
    applyEntry codec v e=⟨v.sm.applyValidated r.command,
    Function.update v.requests (r.client,r.id) (some (digest,.applied e.index e.term (v.sm.version+1)))⟩ := by
  refine applyEntry_decoded hd ?_
  simp only [View.apply,hk,hdig,bind,Except.bind]
  rw [if_neg (by simp),DirectorySm.applyValidated_version]
  rfl

theorem applyEntry_other (hc : ¬ Carries codec client id e) :
    (applyEntry codec v e).requests (client,id)=v.requests (client,id) := by
  cases hd : decodeStored codec e.cmd with
  | error x =>
    unfold applyEntry
    rw [hd]
  | ok cmd =>
    cases cmd with
    | readBarrier | plain => rw [applyEntry_decoded hd rfl]
    | request r =>
      obtain ⟨-,digest,hdig⟩:=decode_request codec hd
      by_cases hk : v.requests (r.client,r.id)=none
      · rw [applyEntry_new hd hdig hk]
        refine Function.update_of_ne ?_ _ _
        intro heq
        cases heq
        exact hc ⟨r,hd,rfl,rfl⟩
      · rw [applyEntry_known ⟨r,hd,rfl,rfl⟩ hk]

theorem applyEntry_keeps {x : Bytes × DirectoryRequestStatus} (hx : v.requests (client,id)=some x) :
    (applyEntry codec v e).requests (client,id)=some x := by
  by_cases hc : Carries codec client id e
  · rw [applyEntry_known hc (by simp [hx])]
    exact hx
  · rw [applyEntry_other hc]
    exact hx

variable {l : List LogEntry}

theorem foldl_keeps {x : Bytes × DirectoryRequestStatus} (hx : v.requests (client,id)=some x) :
    (l.foldl (applyEntry codec) v).requests (client,id)=some x := by
  induction l generalizing v with
  | nil => exact hx
  | cons e l ih => exact ih (applyEntry_keeps hx)

theorem applyEntry_version (v : View) (e : LogEntry) : (applyEntry codec v e).sm.version≤v.sm.version+1 := by
  cases hd : decodeStored codec e.cmd with
  | error x =>
    unfold applyEntry
    rw [hd]
    exact Nat.le_succ _
  | ok cmd =>
    cases cmd with
    | readBarrier =>
      rw [applyEntry_decoded hd rfl]
      exact Nat.le_succ _
    | plain command =>
      rw [applyEntry_decoded hd rfl]
      exact (DirectorySm.applyValidated_version ..).le
    | request r =>
      obtain ⟨-,digest,hdig⟩:=decode_request codec hd
      by_cases hk : v.requests (r.client,r.id)=none
      · rw [applyEntry_new hd hdig hk]
        exact (DirectorySm.applyValidated_version ..).le
      · rw [applyEntry_known ⟨r,hd,rfl,rfl⟩ hk]
        exact Nat.le_succ _

theorem replay_version (l : List LogEntry) : (replay codec l).sm.version≤l.length := by
  induction l using List.reverseRecOn with
  | nil => exact Nat.le_refl 0
  | append_singleton l e ih =>
    rw [replay_append,List.length_append]
    exact (applyEntry_version (replay codec l) e).trans (Nat.succ_le_succ ih)

theorem revisions_le (known : String × String → Bool) (new : List (String × String)) (commands : List StoredCommand) :
    revisions known new commands≤commands.length := by
  induction commands generalizing new with
  | nil => exact Nat.le_refl 0
  | cons cmd commands ih =>
    cases cmd with
    | readBarrier => exact (ih new).trans (Nat.le_succ _)
    | plain command =>
      have:=ih new
      simp only [revisions,List.length_cons]
      omega
    | request r =>
      have hold:=ih new
      have hnew:=ih ((r.client,r.id)::new)
      simp only [revisions,List.length_cons]
      split <;> omega

theorem replay_unseen (h : ∀ e∈l, ¬ Carries codec client id e) : (replay codec l).requests (client,id)=none := by
  induction l using List.reverseRecOn with
  | nil => rfl
  | append_singleton l e ih =>
    rw [replay_append]
    change (applyEntry codec (replay codec l) e).requests _=none
    rw [applyEntry_other (h e (by simp))]
    exact ih fun x hx => h x (List.mem_append_left _ hx)

variable {k : ℕ}

theorem replay_take_succ (h : l[k]? = some e) :
    replay codec (l.take (k+1))=applyEntry codec (replay codec (l.take k)) e := by
  rw [List.take_add_one,h,replay_append]
  rfl

theorem First.unseen (h : First codec client id l k e) : (replay codec (l.take k)).requests (client,id)=none := by
  apply replay_unseen
  intro x hx
  obtain ⟨q,hq⟩:=List.getElem?_of_mem hx
  have hlt:=(List.getElem?_eq_some_iff.mp hq).1
  rw [List.length_take] at hlt
  rw [List.getElem?_take_of_lt (by omega)] at hq
  exact h.first q x (by omega) hq

theorem First.mono {l l' : List LogEntry} (h : First codec client id l k e)
    (htake : l'.take (k+1)=l.take (k+1)) : First codec client id l' k e := by
  have hget : ∀ q, q≤k → l'[q]? = l[q]? := by
    intro q hq
    have:=congrArg (fun x => x[q]?) htake
    simpa [List.getElem?_take_of_lt (Nat.lt_succ_of_le hq)] using this
  refine ⟨(hget k (Nat.le_refl k)).trans h.get,h.carries,?_⟩
  intro q x hq hx
  rw [hget q hq.le] at hx
  exact h.first q x hq hx

theorem take_comparable {l l' : List LogEntry} (h : l<+:l' ∨ l'<+:l) (hk : k≤l.length)
    (hk' : k≤l'.length) : l'.take k=l.take k := by
  rcases h with ⟨r,rfl⟩ | ⟨r,rfl⟩
  · exact List.take_append_of_le_length hk
  · exact (List.take_append_of_le_length hk').symm

theorem First.table (h : First codec client id l k e) {r : RequestCommand} {digest : Bytes}
    (hd : decodeStored codec e.cmd=.ok (.request r)) (hdig : directoryCommandDigest codec r.command=.ok digest)
    {m : ℕ} (hm : k < m) : (replay codec (l.take m)).requests (client,id) =
    some (digest,.applied e.index e.term ((replay codec (l.take k)).sm.version+1)) := by
  obtain ⟨r',hd',rfl,rfl⟩:=h.carries
  obtain rfl : r=r' := StoredCommand.request.inj (Except.ok.inj (hd.symm.trans hd'))
  have hsplit:=List.take_append_drop (k+1) (l.take m)
  rw [List.take_take,Nat.min_eq_left (Nat.succ_le_of_lt hm)] at hsplit
  rw [← hsplit,replay_append]
  apply foldl_keeps
  rw [replay_take_succ h.get,applyEntry_new hd hdig h.unseen]
  exact Function.update_self ..

theorem First.repeated (h : First codec client id l k e) {k' : ℕ} {e' : LogEntry} (hget : l[k']? = some e')
    (hc : Carries codec client id e') (hne : k'≠k) : replay codec (l.take (k'+1))=replay codec (l.take k') := by
  obtain ⟨r,hd,-⟩:=h.carries
  obtain ⟨-,digest,hdig⟩:=decode_request codec hd
  have hlt : k<k' := by
    rcases Nat.lt_or_ge k' k with hlt | hge
    · exact absurd hc (h.first k' e' hlt hget)
    · omega
  rw [replay_take_succ hget]
  refine applyEntry_known hc ?_
  rw [h.table hd hdig hlt]
  simp

theorem requestStatus_known {y : DurableDirectory} (hlive : y.isClosed=false) (hid : identity client id=.ok ())
    {saved : Bytes} {status : DirectoryRequestStatus} (hreq : y.view.requests (client,id)=some (saved,status))
    (digest : Bytes) : y.requestStatus codec client id digest =
    .ok (.ok (if saved=digest then status else .conflict)) := by
  simp [DurableDirectory.requestStatus,hlive,hid,hreq]

theorem getLast_index {n : RaftNode} (hwf : WellFormed n) {applied : ℕ} (happ : applied≤n.log.length)
    (hpub : n.log.take applied++n.pendingApply=n.log.take n.commitIndex) :
    (n.pendingApply.getLast?.map LogEntry.index).getD applied=n.commitIndex := by
  have hlen:=congrArg List.length hpub
  have hcl:=hwf.commit_le
  simp only [List.length_append,List.length_take] at hlen
  cases hlast : n.pendingApply.getLast? with
  | none =>
    rw [List.getLast?_eq_none_iff] at hlast
    rw [hlast] at hlen
    simp only [List.length_nil] at hlen
    simp only [Option.map_none,Option.getD_none]
    omega
  | some e =>
    have hne : n.pendingApply≠[] := by
      intro hnil
      simp [hnil] at hlast
    have hpos:=List.length_pos_of_ne_nil hne
    have he : (n.log.take n.commitIndex).getLast? = some e := by
      rw [← hpub,List.getLast?_append_of_ne_nil _ hne,hlast]
    rw [List.getLast?_eq_getElem?,List.length_take,Nat.min_eq_left hcl,List.getElem?_take_of_lt (by omega)] at he
    have hidx:=hwf.indexed _ _ he
    simp only [Option.map_some,Option.getD_some]
    omega

theorem applyPending_raft (h : DurableDirectory) : (h.applyPending codec).1.raft=h.raft ∨
    ∃ entries, h.raft.committed=(.ok entries,(h.applyPending codec).1.raft) := by
  unfold DurableDirectory.applyPending
  split
  · exact .inl rfl
  · split
    · rename_i e raft hc
      left
      unfold DurableRaft.committed at hc
      split at hc
      · exact (Prod.mk.inj hc).2.symm
      · simp at hc
    · rename_i entries raft hc
      right
      split <;> exact ⟨entries,hc⟩

variable {h : DurableDirectory}

theorem applyPending_failed (hf : h.raft.failed=true) :
    h.applyPending codec=({h with failed:=true},.error (.storage .closed)) := by
  unfold DurableDirectory.applyPending DurableDirectory.prepareRequests
  rw [if_pos hf]

theorem applyPending_ok (hf : h.raft.failed=false)
    {commands : List StoredCommand}
    (hcmds : h.raft.node.pendingApply.mapM (fun e => decodeStored codec e.cmd)=.ok commands)
    (hrev : h.view.sm.version+revisions (fun k => (h.view.requests k).isSome) [] commands≤u64Max) :
    h.applyPending codec=({h with
      raft := {h.raft with node := {h.raft.node with pendingApply:=[]}}
      view := h.raft.node.pendingApply.foldl (applyEntry codec) h.view
      applied := (h.raft.node.pendingApply.getLast?.map LogEntry.index).getD h.applied},.ok ()) := by
  have hcom : h.raft.committed=(.ok h.raft.node.pendingApply,
      {h.raft with node := {h.raft.node with pendingApply:=[]}}) := if_neg (by simp [hf])
  have hprep : h.prepareRequests codec=.ok commands := by
    unfold DurableDirectory.prepareRequests
    rw [if_neg (by simp [hf]),hcmds]
    exact if_pos hrev
  unfold DurableDirectory.applyPending
  rw [hprep,hcom]
  dsimp only
  rw [applyAll_decoded hcmds]

theorem applyPending_spec (h : DurableDirectory) :
    ((h.applyPending codec).1.isClosed=true ∧ (h.applyPending codec).1.view=h.view ∧
      (h.applyPending codec).1.applied=h.applied ∧ (h.applyPending codec).1.raft=h.raft) ∨
    (h.applyPending codec).1={h with
      raft := {h.raft with node := {h.raft.node with pendingApply:=[]}}
      view := h.raft.node.pendingApply.foldl (applyEntry codec) h.view
      applied := (h.raft.node.pendingApply.getLast?.map LogEntry.index).getD h.applied} := by
  cases hprep : h.prepareRequests codec with
  | error e =>
    left
    unfold DurableDirectory.applyPending
    rw [hprep]
    exact ⟨by simp [DurableDirectory.isClosed],rfl,rfl,rfl⟩
  | ok commands =>
    right
    unfold DurableDirectory.prepareRequests at hprep
    split at hprep
    · contradiction
    · rename_i hf
      split at hprep
      · contradiction
      · rename_i cmds hcmds
        split at hprep
        · rename_i hrev
          rw [applyPending_ok (by simpa using hf) hcmds hrev]
        · contradiction

theorem applyPending_current (hwf : WellFormed h.raft.node) (hsync : Synced h.raft)
    (happ : h.applied≤h.raft.node.commitIndex)
    (hpub : h.raft.node.log.take h.applied++h.raft.node.pendingApply=h.raft.node.log.take h.raft.node.commitIndex)
    (hview : h.view=replay codec (h.raft.node.log.take h.applied)) : Current codec (h.applyPending codec).1 := by
  obtain ⟨hlog,hcommit⟩:=hsync
  rcases @applyPending_spec codec h with ⟨hclosed,h1,h2,h3⟩ | heq
  · constructor
    · rw [h2,h3,hcommit]
      exact happ
    · rw [h1,h2,h3,hlog]
      exact hview
    · intro hlive
      simp [hclosed] at hlive
  · have hlast:=getLast_index hwf (happ.trans hwf.commit_le) hpub
    rw [heq]
    constructor
    · exact (hlast.trans hcommit.symm).le
    · change _=replay codec (h.raft.log.take _)
      dsimp only
      rw [hlast,hlog,hview,← replay_append,hpub]
    · intro _
      exact ⟨rfl,hlast.trans hcommit.symm⟩

variable {α : Type}

def Called (h : DurableRaft) (o : Outcome α) : Prop :=
  (o.host.failed=true ∧ o.host.saved=h.saved) ∨ o.host=h ∨
    ((∃ value, o.result=.ok value) ∧ Synced o.host ∧ ∃ inp, Moves inp h.node o.host.node)

variable {storage : SnapshotCodec}

theorem finish_called {h : DurableRaft} {n : RaftNode}
    {inp : Input} (hm : Moves inp h.node n) (budget : ℕ)
    (d : CrashFs.Disk RaftFile) (value : α) :
    Called h (DurableRaft.finish storage {h with node:=n} budget d value) := by
  unfold DurableRaft.finish
  split
  · rename_i hsame
    exact .inr (.inr ⟨⟨value,rfl⟩,⟨hsame.2.2.1,hsame.2.2.2⟩,inp,hm⟩)
  · dsimp only
    split
    · exact .inl ⟨rfl,rfl⟩
    · split
      · exact .inl ⟨rfl,rfl⟩
      · exact .inr (.inr ⟨⟨value,rfl⟩,⟨rfl,rfl⟩,inp,hm⟩)

variable {d : CrashFs.Disk RaftFile} {budget : ℕ}

theorem finish_accepted {h : DurableRaft} {value result : α}
    (hok : (DurableRaft.finish storage h budget d value).result=.ok result) : result=value ∧
    (DurableRaft.finish storage h budget d value).host.currentTerm=h.node.currentTerm := by
  unfold DurableRaft.finish at hok ⊢
  split at hok
  · rename_i hsame
    rw [if_pos hsame]
    exact ⟨(Except.ok.inj hok).symm,hsame.1⟩
  · rename_i hdiff
    rw [if_neg hdiff]
    dsimp only at hok ⊢
    split at hok
    · contradiction
    · split at hok
      · contradiction
      · exact ⟨(Except.ok.inj hok).symm,rfl⟩

theorem refused_called (h : DurableRaft) (d : CrashFs.Disk RaftFile)
    (e : RaftStorageError) : Called (α := α) h (h.refused d e) := .inr (.inl rfl)

theorem handled_called {h : DurableRaft} {inp : Input}
    {r : Except Panic RaftNode} (hr : Handled inp h.node r) {value : α} {o : Outcome α}
    (ho : (do
      let node ← r
      return DurableRaft.finish storage {h with node:=node} budget d value)=.ok o) :
    Called h o := by
  rcases hr with ⟨n',rfl,hm⟩ | rfl
  · cases ho
    exact finish_called hm budget d value
  · contradiction

theorem tick_called {h : DurableRaft} (hwf : WellFormed h.node) {clock : Clock} {o : Outcome Unit} (ho : h.tick storage clock budget d=.ok o) :
    Called h o := by
  unfold DurableRaft.tick at ho
  split at ho
  · cases ho
    exact refused_called h d .closed
  · exact handled_called (.inl (tick_moved hwf clock)) ho

theorem step_called {h : DurableRaft} (hwf : WellFormed h.node) {clock : Clock} {sender : NodeId} {rpc : RaftRpc}
    {o : Outcome Unit} (ho : h.step storage clock sender rpc budget d=.ok o) : Called h o := by
  unfold DurableRaft.step at ho
  split at ho
  · cases ho
    exact refused_called h d .closed
  · split at ho
    · cases ho
      exact refused_called h d _
    · split at ho
      · cases ho
        exact refused_called h d .capacity
      · exact handled_called (step_handled hwf clock sender rpc) ho

def Accepted (h : DurableRaft) (o : Outcome ℕ) : Prop :=
  ∀ index, o.result=.ok index → h.role=.leader ∧ index=h.node.log.length+1 ∧ o.host.currentTerm=h.node.currentTerm

theorem propose_called {h : DurableRaft} (hwf : WellFormed h.node) {cmd : Bytes} {o : Outcome ℕ} (ho : h.propose storage cmd budget d=.ok o) :
    Called h o ∧ Accepted h o := by
  have hrefused : ∀ e, Called h (h.refused (α := ℕ) d e) ∧ Accepted h (h.refused d e) :=
    fun e => ⟨refused_called h d e,nofun⟩
  unfold DurableRaft.propose at ho
  split at ho
  · cases ho
    exact hrefused .closed
  · rename_i hf
    split at ho
    · cases ho
      exact hrefused .capacity
    · split at ho
      · cases ho
        exact hrefused _
      · rename_i hrole
        have hlead : h.node.role=.leader := by simpa using hrole
        split at ho
        · cases ho
          exact hrefused .capacity
        · rcases propose_handled hwf cmd with ⟨r,n',heq,hm⟩ | heq
          · obtain ⟨rfl,hterm⟩:=propose_leader hwf hlead heq
            rw [heq] at ho
            cases ho
            constructor
            · exact finish_called hm budget d _
            · intro index hindex
              obtain ⟨h1,h2⟩:=finish_accepted hindex
              refine ⟨?_,h1,h2.trans hterm⟩
              rw [DurableRaft.role,if_neg hf]
              exact hlead
          · rw [heq] at ho
            contradiction

theorem moved_pending (hcur : Current codec h) (hlive : h.isClosed=false) (hwf : WellFormed h.raft.node)
    (hsync : Synced h.raft) {inp : Input} {n' : RaftNode} (hm : Moves inp h.raft.node n') : h.applied≤n'.commitIndex ∧
    n'.log.take h.applied++n'.pendingApply=n'.log.take n'.commitIndex ∧ h.view=replay codec (n'.log.take h.applied) :=
    by
  obtain ⟨hpend,happ⟩:=hcur.live hlive
  have hdone : h.applied=h.raft.node.commitIndex := happ.trans hsync.2
  have hp:=moves_progress hm hwf
  have hkept : n'.log.take h.applied=h.raft.node.log.take h.applied := by
    rw [hdone]
    exact hp.kept
  have hpub : Published (h.raft.node.log.take h.applied) h.raft.node := by
    unfold Published
    rw [hpend,List.append_nil,hdone]
  rw [hkept]
  refine ⟨hdone.le.trans hp.commit_le,hp.published _ hpub,?_⟩
  rw [← hsync.1]
  exact hcur.view

theorem driven_current (hcur : Current codec h) (hlive : h.isClosed=false) (hwf : WellFormed h.raft.node)
    (hsync : Synced h.raft) {o : Outcome α} (hcall : Called h.raft o) : Current codec (h.driven codec o).host := by
  obtain ⟨hpend,happ⟩:=hcur.live hlive
  have hdone : h.applied=h.raft.node.commitIndex := happ.trans hsync.2
  have hview : h.view=replay codec (h.raft.node.log.take h.applied) := by
    rw [← hsync.1]
    exact hcur.view
  unfold DurableDirectory.driven
  rcases hcall with ⟨hfail,hsaved⟩ | hsame | ⟨⟨value,hok⟩,hsync',inp,hm⟩
  · -- a failed host publishes nothing more
    have hstill : ∀ x : DurableDirectory, x.isClosed=true → x.view=h.view →
        x.applied=h.applied → x.raft=o.host → Current codec x := by
      intro x h1 h2 h3 h4
      have hcommit : x.raft.commitIndex=h.raft.commitIndex := by
        rw [h4,DurableRaft.commitIndex,hsaved]
        rfl
      have hlog : x.raft.log=h.raft.log := by
        rw [h4,DurableRaft.log,hsaved]
        rfl
      exact ⟨by rw [h3,hcommit]; exact hcur.applied_le,by rw [h2,h3,hlog]; exact hcur.view,by simp [h1]⟩
    cases hres : o.result with
    | error e => exact hstill _ (by simp [DurableDirectory.isClosed,hfail]) rfl rfl rfl
    | ok value =>
      have hspec:=@applyPending_failed codec {h with raft:=o.host} hfail
      dsimp only
      rw [hspec]
      exact hstill _ (by simp [DurableDirectory.isClosed]) rfl rfl rfl
  · cases hres : o.result with
    | error e =>
      dsimp only
      rw [hsame]
      exact hcur
    | ok value =>
      have hnext : Current codec (({h with raft:=o.host} : DurableDirectory).applyPending codec).1 := by
        rw [hsame]
        refine applyPending_current hwf hsync hdone.le ?_ hview
        rw [hpend,List.append_nil,hdone]
      dsimp only
      split <;> rename_i heq <;> rw [heq] at hnext <;> exact hnext
  · obtain ⟨hle,hpub,hview'⟩:=moved_pending hcur hlive hwf hsync hm
    have hnext : Current codec (({h with raft:=o.host} : DurableDirectory).applyPending codec).1 :=
      applyPending_current (moves_wellFormed hm hwf) hsync' hle hpub hview'
    rw [hok]
    dsimp only
    split <;> rename_i heq <;> rw [heq] at hnext <;> exact hnext

end replay
end Parrot.Directory
