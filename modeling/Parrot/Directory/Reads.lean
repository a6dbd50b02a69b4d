import Parrot.Directory.Group
import Parrot.Raft.Safety

/-! # Linear reads

A read goes through a barrier entry of the leader's own term. -/

namespace Parrot.Directory
open Machine Parrot.Raft ReplicatedLog
open CrashFs (Disk)

variable {codec : DirectoryCodec} {storage : SnapshotCodec} {name : String}
variable {members : Finset NodeId} {a a' : Ghost} {lows : NodeId → ℕ} {g g' : Group}
variable {i j : NodeId} {h : DurableDirectory}

abbrev Reachable (codec : DirectoryCodec) (storage : SnapshotCodec) (name : String)
    (members : Finset NodeId) (g : Group) := Run codec storage name members Group.start g

theorem group_reachable_inv (hr : Reachable codec storage name members g) :
    ∃ a, GroupInv codec storage name members a (fun _ => 0) g := by
  obtain ⟨a,-,ha⟩:=group_run_inv hr group_start_inv
  exact ⟨a,ha⟩

theorem GroupInv.fixed (hinv : GroupInv codec storage name members a lows g) (hhost : (g.replica i).host=some h) :
    Fixed members a h.raft.currentTerm (h.raft.log.take h.raft.commitIndex) ∧ (∀ k e, h.raft.log[k]? = some e →
    e.index=k+1) ∧ lows i≤h.raft.commitIndex ∧ h.raft.commitIndex≤h.raft.log.length := by
  obtain ⟨handed,hraft⟩:=hinv.raft
  have hok:=(hraft.slot (slot_cluster hhost)).host h.raft rfl
  have hlow:=hok.low_le
  obtain ⟨n,hn,hsaved⟩:=hok.saved
  unfold DurableRaft.currentTerm DurableRaft.log DurableRaft.commitIndex
  rw [hsaved] at hlow ⊢
  exact ⟨hn.committed,hn.wf.indexed,hlow,hn.wf.commit_le⟩

theorem applyPending_saved (h : DurableDirectory) : (h.applyPending codec).1.raft.saved=h.raft.saved := by
  rcases @applyPending_spec codec h with ⟨-,-,-,heq⟩ | heq
  · rw [heq]
  · rw [heq]

theorem driven_saved {α : Type} (h : DurableDirectory) (o : Outcome α) :
    (h.driven codec o).host.raft.saved=o.host.saved := by
  unfold DurableDirectory.driven
  have hsaved:=@applyPending_saved codec ({h with raft:=o.host} : DurableDirectory)
  split
  · rfl
  · split <;> rename_i heq <;> rw [heq] at hsaved <;> exact hsaved

theorem driven_result {α : Type} {h : DurableDirectory} {o : Outcome α} {value : α}
    (hok : (h.driven codec o).result=.ok value) : o.result=.ok value := by
  unfold DurableDirectory.driven at hok
  split at hok
  · contradiction
  · rename_i v hres
    split at hok
    · contradiction
    · rw [hres,Except.ok.inj hok]

theorem beginLinearRead_ticket (hwf : WellFormed h.raft.node) {query : DirQuery} {budget : ℕ}
    {d : Disk RaftFile} {o : DirOutcome DirectoryReadTicket} {ticket : DirectoryReadTicket}
    (ho : h.beginLinearRead codec storage query budget d=.ok o) (hticket : o.result=.ok ticket) :
    h.isClosed=false ∧ h.raft.role=.leader ∧ ticket.receipt.index=h.raft.node.log.length+1 ∧
      ticket.receipt.term=h.raft.node.currentTerm ∧ ticket.query=query := by
  unfold DurableDirectory.beginLinearRead at ho
  split at ho
  · cases ho
    contradiction
  · rename_i hlive
    split at ho
    · cases ho
      contradiction
    · cases hp : h.raft.propose storage readBarrierBytes budget d with
      | error p =>
        rw [DurableDirectory.submit,hp] at ho
        contradiction
      | ok x =>
        rw [DurableDirectory.submit,hp] at ho
        cases ho
        cases hres : (h.driven codec x).result with
        | error e => simp [hres,Except.map] at hticket
        | ok index =>
          rw [hres] at hticket
          cases hticket
          obtain ⟨h1,h2,h3⟩:=(propose_called hwf hp).2 index (driven_result hres)
          refine ⟨by simpa using hlive,h1,h2,?_,rfl⟩
          change (h.driven codec x).host.raft.saved.term=_
          rw [driven_saved]
          exact h3

theorem pollLinearRead_some {ticket : DirectoryReadTicket} {read : DirectoryRead}
    (hpoll : (h.pollLinearRead codec ticket).1=.ok (some read)) : h.isClosed=false ∧ h.raft.role=.leader ∧
    h.raft.currentTerm=ticket.receipt.term ∧ ticket.receipt.index≤h.applied ∧
    (∃ e, h.raft.log[ticket.receipt.index-1]? = some e ∧ e.term=ticket.receipt.term) ∧
    read=⟨h.view.sm.query ticket.query,ticket.receipt.index,h.applied,ticket.receipt.term⟩ := by
  unfold DurableDirectory.pollLinearRead at hpoll
  split at hpoll
  · contradiction
  · rename_i hlive
    split at hpoll
    · contradiction
    · split at hpoll
      · contradiction
      · rename_i hlead
        push Not at hlead
        cases hs : h.proposalStatus codec ticket.receipt with
        | error e =>
          rw [hs] at hpoll
          contradiction
        | ok status =>
          rw [hs] at hpoll
          unfold DurableDirectory.proposalStatus at hs
          rw [if_neg hlive] at hs
          split at hs
          · cases hs
            contradiction
          · split at hs
            · cases hs
              contradiction
            · rename_i e he
              split at hs
              · cases hs
                contradiction
              · rename_i hterm
                push Not at hterm
                split at hs
                · rename_i happ
                  cases hs
                  have hrole:=hlead.1
                  rw [DurableDirectory.role,if_neg hlive] at hrole
                  exact ⟨by simpa using hlive,hrole,hlead.2,happ,⟨e,he,hterm.1⟩,
                    (Option.some.inj (Except.ok.inj hpoll)).symm⟩
                · cases hs
                  exact nomatch Except.ok.inj hpoll

/-! ### A group of one

A single directory that opens, elects itself, applies one request and reads. -/

def soloBytes : Bytes := [255,68,73,82,1,1,99,1,114,1,1,110]
def soloRequest : RequestCommand := ⟨"c","r",.remove "n"⟩
def soloEntries : List LogEntry := [⟨1,1,soloBytes⟩,⟨1,2,readBarrierBytes⟩]

def soloAfter (k : ℕ) : RaftNode :=
  {soloLeader with log:=soloEntries.take k,commitIndex:=k,lastApplied:=k}

def soloRaft (n : RaftNode) : DurableRaft := ⟨n,snapshot n (groupName "solo"),false⟩

def soloSave (d : Disk RaftFile) (n : RaftNode) : Disk RaftFile :=
  (publish .standard 1000 (snapshot n (groupName "solo")) d).1

theorem request_encoded : encodeRequest .standard "c" "r" (.remove "n")=.ok soloBytes := by rfl

theorem request_fits : requestCodec.fits soloRequest=true := by rfl
theorem request_body : soloBytes.drop 5=requestCodec.encode soloRequest := by rfl

theorem request_decoded : decodeStored .standard soloBytes=.ok (.request soloRequest) := by
  have hdec : DirectoryCodec.standard.decodeRequest (soloBytes.drop requestMagic.length) = .ok soloRequest := by
    change decodeWhole requestCodec (soloBytes.drop 5)=_
    rw [request_body]
    unfold decodeWhole
    rw [Bincode.Codec.decode_exact request_fits]
  unfold decodeStored
  rw [if_neg (by decide),if_neg (by decide),if_pos (by decide),hdec]
  rfl

def soloDirectory (k : ℕ) : DurableDirectory :=
  ⟨soloRaft (soloAfter k),replay .standard (soloEntries.take k),k,false,[],0⟩

def soloStart : DurableDirectory := ⟨soloRaft soloNode,.initial,0,false,[],0⟩

def soloDisk : ℕ → Disk RaftFile
  | 0 => soloSave .empty soloNode
  | 1 => soloSave (soloDisk 0) soloLeader
  | k+2 => soloSave (soloDisk (k+1)) (soloAfter (k+1))

theorem solo_dir_opened : DurableDirectory.openDirectory .standard .standard soloClock "solo" "a" [] 0
    1000 .empty=(soloDisk 0,.ok soloStart) := by
  unfold DurableDirectory.openDirectory
  rw [if_neg (by decide)]
  unfold DurableRaft.openValidated
  rw [new_solo,show normalizePeers "a" []=[] by simp [normalizePeers]]
  rfl

theorem solo_dir_ticked : soloStart.tick .standard .standard soloClock 1000 (soloDisk 0) =
    .ok ⟨soloDisk 1,soloDirectory 0,.ok ()⟩ := by
  rfl

def soloPending (k : ℕ) : RaftNode :=
  {soloAfter (k+1) with pendingApply:=(soloEntries.take (k+1)).drop k}

variable {k : ℕ}

theorem solo_advances (hk : k<2) :
    RaftNode.advanceCommit {soloAfter k with log:=soloEntries.take (k+1)}=.ok (soloPending k) := by
  unfold RaftNode.advanceCommit
  obtain rfl | rfl : k=0 ∨ k=1 := by omega
  · change (Machine.index (List.mergeSort [1] fun a b => decide (a≤b))
      ((List.mergeSort [1] fun a b => decide (a≤b)).length-1) >>= _)=_
    rw [List.mergeSort_singleton]
    rfl
  · change (Machine.index (List.mergeSort [2] fun a b => decide (a≤b))
      ((List.mergeSort [2] fun a b => decide (a≤b)).length-1) >>= _)=_
    rw [List.mergeSort_singleton]
    rfl

theorem solo_appends (hk : k<2) {bytes : Bytes} (he : (soloEntries.map LogEntry.cmd)[k]? = some bytes) :
    (soloAfter k).propose bytes=.ok (.ok (k+1),soloPending k) := by
  have hadv:=solo_advances hk
  obtain rfl | rfl : k=0 ∨ k=1 := by omega
  · cases he
    change (RaftNode.advanceCommit {soloAfter 0 with log:=soloEntries.take 1} >>= fun n =>
      (Except.ok (.ok 1,n) : Except Machine.Panic (Except (Option NodeId) ℕ × RaftNode)))=_
    rw [hadv]
    rfl
  · cases he
    change (RaftNode.advanceCommit {soloAfter 1 with log:=soloEntries.take 2} >>= fun n =>
      (Except.ok (.ok 2,n) : Except Machine.Panic (Except (Option NodeId) ℕ × RaftNode)))=_
    rw [hadv]
    rfl

theorem solo_submits (hk : k<2) {bytes : Bytes} (he : (soloEntries.map LogEntry.cmd)[k]? = some bytes) :
    (soloRaft (soloAfter k)).propose .standard bytes 1000 (soloDisk (k+1)) =
    .ok ⟨soloDisk (k+2),soloRaft (soloPending k),.ok (k+1)⟩ := by
  have happ:=solo_appends hk he
  unfold DurableRaft.propose
  obtain rfl | rfl : k=0 ∨ k=1 := by omega
  · cases he
    rw [if_neg (by decide),if_neg (by decide),if_neg (by decide),if_neg (by decide)]
    change ((soloAfter 0).propose _ >>= _)=_
    rw [happ]
    rfl
  · cases he
    rw [if_neg (by decide),if_neg (by decide),if_neg (by decide),if_neg (by decide)]
    change ((soloAfter 1).propose _ >>= _)=_
    rw [happ]
    rfl

theorem solo_version : (replay .standard (soloEntries.take 1)).sm.version=1 := by
  obtain ⟨-,digest,hdig⟩:=decode_request .standard request_decoded
  rw [replay_take_succ (k := 0) rfl,applyEntry_new request_decoded hdig rfl]
  rfl

theorem solo_applies (hk : k<2) :
    ({soloDirectory k with raft:=soloRaft (soloPending k)} : DurableDirectory).applyPending .standard =
      (soloDirectory (k+1),.ok ()) := by
  obtain rfl | rfl : k=0 ∨ k=1 := by omega
  · rw [@applyPending_ok _ _ rfl [.request soloRequest] ?_ ?_]
    · rfl
    · change (do
        let x ← decodeStored .standard soloBytes
        pure [x])=_
      rw [request_decoded]
      rfl
    · decide
  · rw [@applyPending_ok _ _ rfl [.readBarrier] rfl ?_]
    · rfl
    · change (replay .standard (soloEntries.take 1)).sm.version+0≤_
      rw [solo_version]
      decide

theorem solo_drives (hk : k<2) {bytes : Bytes} (he : (soloEntries.map LogEntry.cmd)[k]? = some bytes) :
    (soloDirectory k).submit .standard .standard bytes 1000 (soloDisk (k+1)) =
    .ok ⟨soloDisk (k+2),soloDirectory (k+1),.ok (k+1)⟩ := by
  unfold DurableDirectory.submit
  rw [show (soloDirectory k).raft=soloRaft (soloAfter k) from rfl,solo_submits hk he]
  simp only [DurableDirectory.drive,DurableDirectory.driven,solo_applies hk]

def soloTicket : DirectoryReadTicket := ⟨⟨2,1,Sha256.digest readBarrierBytes,0⟩,.resolve "n",false⟩

theorem solo_begins : (soloDirectory 1).beginLinearRead .standard .standard (.resolve "n") 1000
    (soloDisk 2)=.ok ⟨soloDisk 3,soloDirectory 2,.ok soloTicket⟩ := by
  unfold DurableDirectory.beginLinearRead
  rw [if_neg (by decide)]
  change (do
    let o ← (soloDirectory 1).submit .standard .standard readBarrierBytes 1000 (soloDisk 2)
    return (⟨o.disk,o.host,o.result.map fun index =>
      ⟨o.host.receipt index (Sha256.digest readBarrierBytes),.resolve "n",false⟩⟩ :
      DirOutcome DirectoryReadTicket))=_
  rw [solo_drives (by decide) rfl]
  rfl

theorem solo_polls : ((soloDirectory 2).pollLinearRead .standard soloTicket).1 =
    .ok (some ⟨(soloDirectory 2).view.sm.query (.resolve "n"),2,2,1⟩) := by
  have hst : (soloDirectory 2).proposalStatus .standard soloTicket.receipt=.ok .applied := by
    unfold DurableDirectory.proposalStatus
    rw [if_neg (by decide),if_neg (by decide)]
    change (if 1≠1 ∨ Sha256.digest readBarrierBytes≠Sha256.digest readBarrierBytes then _ else _)=_
    exact (if_neg (by simp)).trans (if_pos (by decide))
  unfold DurableDirectory.pollLinearRead
  rw [if_neg (by decide),if_neg (by decide),if_neg (by decide),hst]
  rfl

theorem solo_digest : directoryCommandDigest .standard (.remove "n") =
    .ok (Sha256.digest (cmdCodec.encode (.remove "n"))) := rfl

theorem solo_first : First .standard "c" "r" soloEntries 0 ⟨1,1,soloBytes⟩ :=
  ⟨rfl,⟨soloRequest,request_decoded,rfl,rfl⟩,nofun⟩

theorem solo_status (digest : Bytes) : (soloDirectory 1).requestStatus .standard "c" "r" digest =
    .ok (.ok (if Sha256.digest (cmdCodec.encode (.remove "n"))=digest then .applied 1 1 1
      else .conflict)) :=
  requestStatus_known rfl rfl (solo_first.table request_decoded solo_digest (by decide)) digest

theorem solo_requests : (soloDirectory 0).submitRequest .standard .standard "c" "r" (.remove "n") 1000
    (soloDisk 1)=.ok ⟨soloDisk 2,soloDirectory 1,.ok (.applied 1 1 1)⟩ := by
  have hfree : (soloDirectory 0).requestStatus .standard "c" "r"
      (Sha256.digest (cmdCodec.encode (.remove "n")))=.ok (.ok .unknown) := rfl
  unfold DurableDirectory.submitRequest
  rw [if_neg (by decide),request_encoded,solo_digest]
  dsimp only
  rw [hfree]
  dsimp only [DurableDirectory.resubmits]
  rw [solo_drives (by decide) rfl]
  dsimp only [bind,Except.bind]
  rw [solo_status,if_pos rfl]
  exact if_neg (by decide)

def soloGroup (k : ℕ) : Group := Group.start.set "a" ⟨soloDisk (k+1),some (soloDirectory k)⟩

theorem Group.set_set (g : Group) (i : NodeId) (s s' : Replica) : (g.set i s).set i s'=g.set i s' := by
  simp only [Group.set,Function.update_idem]

theorem solo_group_reachable : Reachable .standard .standard "solo" {"a"} (soloGroup 1) := by
  have h1 : Step .standard .standard "solo" {"a"} _ _ := .opened Group.start "a" soloClock [] 0 1000
    (Finset.mem_singleton_self "a") (by intro x hx; simp [hx]) rfl
  rw [show (Group.start.replica "a").disk=.empty from rfl,solo_dir_opened] at h1
  have h2 : Step .standard .standard "solo" {"a"} _ _ := .tick (Group.start.set "a"
    ⟨soloDisk 0,some soloStart⟩) "a" soloStart soloClock 1000 (by rw [Group.replica_set])
  rw [Group.replica_set,solo_dir_ticked,Group.set_set] at h2
  have h3 : Step .standard .standard "solo" {"a"} _ _ := .submitRequest (soloGroup 0) "a"
    (soloDirectory 0) "c" "r" (.remove "n") 1000 (by rw [soloGroup,Group.replica_set])
  rw [soloGroup,Group.replica_set,solo_requests,Group.set_set] at h3
  exact ((Relation.ReflTransGen.single h1).tail h2).tail h3

theorem barrier_covers (hs : Sound members a) (hg : Grows a a') (hs' : Sound members a') {T T0 : ℕ}
    {l l' : List LogEntry} (hlead : a.leader T≠none) (hl : Fixed members a T0 l) (hl' : Fixed members a' T l')
    {e : LogEntry} (he : l'[(a.lead T).length]? = some e) (hterm : e.term=T) (hp' : l'<+:a'.lead T) : l<+:l' := by
  obtain ⟨m,hcom,hpre⟩:=hl'.own_term hs' (List.mem_of_getElem? he) hterm
  have hlt:=(List.getElem?_eq_some_iff.mp he).1
  have hlen:=hpre.length_le
  rw [List.length_take] at hlen
  have hbefore:=Decided.before_barrier (majority_inter members) hs hg hl hlead hcom (by omega)
  exact List.prefix_of_prefix_length_le (hbefore.trans (hg.lead T)) hp' (by
    have:=hbefore.length_le
    omega)

theorem linear_read {g0 g1 g2 : Group} (h0 : Reachable codec storage name members g0)
    (h01 : Run codec storage name members g0 g1) (hhost : (g1.replica i).host=some h) {query : DirQuery} {budget : ℕ}
    {o : DirOutcome DirectoryReadTicket} {ticket : DirectoryReadTicket}
    (hbegin : h.beginLinearRead codec storage query budget (g1.replica i).disk=.ok o) (hticket : o.result=.ok ticket)
    (h12 : Run codec storage name members (g1.set i ⟨o.disk,some o.host⟩) g2) {y : DurableDirectory}
    (hy : (g2.replica j).host=some y) {read : DirectoryRead}
    (hpoll : (y.pollLinearRead codec ticket).1=.ok (some read)) : read.entry=y.view.sm.query query ∧
    y.view=replay codec (y.raft.log.take y.applied) ∧ ∀ k x, (g0.replica k).host=some x → ∀ e∈x.raft.log,
    e.index≤x.raft.commitIndex → (y.raft.log.take y.applied)[e.index-1]? = some e := by
  obtain ⟨a0,hinv0⟩:=group_reachable_inv h0
  obtain ⟨a1,hg01,hinv1⟩:=group_run_inv h01 hinv0
  have hstep : Step codec storage name members g1 (g1.set i ⟨o.disk,some o.host⟩) := by
    have hs : Step codec storage name members g1 _ := .beginLinearRead g1 i h query budget hhost
    rwa [hbegin] at hs
  obtain ⟨a2,hg12,hinv2⟩:=group_run_inv (Relation.ReflTransGen.head hstep h12) hinv1
  obtain ⟨handed1,hraft1⟩:=hinv1.raft
  obtain ⟨handed2,hraft2⟩:=hinv2.raft
  -- the reader led its term when it began
  have hok:=(hraft1.slot (slot_cluster hhost)).host h.raft rfl
  have hwf : WellFormed h.raft.node := by
    by_cases hf : h.raft.failed=false
    · exact (hok.live hf).1.wf
    · simp [DurableDirectory.beginLinearRead,DurableDirectory.isClosed,hf] at hbegin
      rw [← hbegin] at hticket
      contradiction
  obtain ⟨hlive,hrole,hindex,hterm,hquery⟩:=beginLinearRead_ticket hwf hbegin hticket
  obtain ⟨hn,hsaved,-⟩:=hok.live ((isClosed_false h).mp hlive).2
  obtain ⟨hlead,hlog⟩:=hraft1.leader (slot_cluster hhost) hrole
  have hlogn : h.raft.log=h.raft.node.log := by rw [DurableRaft.log,hsaved]; rfl
  have htermn : h.raft.currentTerm=h.raft.node.currentTerm := by
    rw [DurableRaft.currentTerm,hsaved]
    rfl
  rw [← htermn] at hterm
  -- and the answering directory leads the same term, with the barrier applied
  obtain ⟨hylive,hyrole,hyterm,happ,⟨b,hb,hbterm⟩,rfl⟩:=pollLinearRead_some hpoll
  obtain ⟨hylead,hylog⟩:=hraft2.leader (slot_cluster hy) hyrole
  have hcur:=hinv2.current j y hy
  obtain ⟨-,hcom⟩:=hcur.live hylive
  obtain ⟨hfix,-⟩:=hinv2.fixed hy
  rw [hyterm,hterm] at hylog hfix
  have hlen : (a1.lead h.raft.currentTerm).length=ticket.receipt.index-1 := by
    rw [hlog,hlogn,hindex]
    rfl
  have hcover : ∀ {T0 : ℕ} {l : List LogEntry}, Fixed members a1 T0 l → l<+:y.raft.log.take y.applied := by
    intro T0 l hl
    rw [hcom]
    refine barrier_covers hraft1.sound hg12 hraft2.sound (by simp [hlead]) hl hfix (e := b) ?_
      (hbterm.trans hterm) ?_
    · rw [hlen,List.getElem?_take_of_lt (by omega)]
      exact hb
    · rw [hylog]
      exact List.take_prefix _ _
  refine ⟨by rw [← hquery],hcur.view,?_⟩
  intro k x hx e he hle
  obtain ⟨hxfix,hxidx,-⟩:=hinv0.fixed hx
  obtain ⟨q,hq⟩:=List.getElem?_of_mem he
  have hidx:=hxidx q e hq
  refine getElem?_mono (hcover (hxfix.mono hg01 (le_rfl))) ?_
  rw [List.getElem?_take_of_lt (by omega),show e.index-1=q by omega]
  exact hq

theorem linear_read_solo : ∃ read,
    ((soloDirectory 2).pollLinearRead .standard soloTicket).1=.ok (some read) ∧
    read.entry=(replay .standard soloEntries).sm.query (.resolve "n") ∧
    ∀ e∈(soloDirectory 1).raft.log, e.index≤1 → soloEntries[e.index-1]? = some e := by
  have hhost : ((soloGroup 1).replica "a").host=some (soloDirectory 1) := by
    rw [soloGroup,Group.replica_set]
  have hdisk : ((soloGroup 1).replica "a").disk=soloDisk 2 := by rw [soloGroup,Group.replica_set]
  obtain ⟨h1,-,h2⟩:=linear_read solo_group_reachable .refl hhost (hdisk ▸ solo_begins) rfl .refl
    (by rw [Group.replica_set]) solo_polls
  exact ⟨_,solo_polls,h1,fun e he hle => h2 "a" _ hhost e he hle⟩

end Parrot.Directory
