import Parrot.Directory.Replica

/-! # Raft messages on the wire (`roles/directory/network.rs:89-119`, `506-523`)

The worker drains the outbox, encodes every message with the group's name and closes the
directory when the bytes pass the budget. -/

namespace Parrot.Directory
open Machine Parrot.Raft
open Bincode (Limited Fields Limits scalar)

inductive NetworkDirectoryError where
  | invalid (reason : String)
  | forbidden
  | capacity
  | operation (reason : String)

structure WireRpc where
  group : String
  rpc : RaftRpc

/-- The fields of a message, by the variant's number. -/
def rpcFields : ℕ → Type
  | 0 => ℕ × String × ℕ × ℕ
  | 1 => ℕ × Bool
  | 2 => ℕ × String × ℕ × ℕ × List LogEntry × ℕ
  | 3 => ℕ × Bool × ℕ
  | _ => Empty

def rpcCodecs : ∀ k, Bincode.Codec (rpcFields k)
  | 0 => Bincode.u64.pair (Bincode.string.pair (Bincode.u64.pair Bincode.u64))
  | 1 => Bincode.u64.pair Bincode.bool
  | 2 => Bincode.u64.pair (Bincode.string.pair (Bincode.u64.pair (Bincode.u64.pair
      (entryCodec.list.pair Bincode.u64))))
  | 3 => Bincode.u64.pair (Bincode.bool.pair Bincode.u64)
  | _+4 => Bincode.never

def rpcCodec : Bincode.Codec RaftRpc :=
  (Bincode.Codec.variant rpcCodecs).via
    (fun
      | .requestVote term candidate lastLogIndex lastLogTerm => ⟨0,term,candidate,lastLogIndex,lastLogTerm⟩
      | .requestVoteResp term voteGranted => ⟨1,term,voteGranted⟩
      | .appendEntries term leader prevLogIndex prevLogTerm entries leaderCommit =>
        ⟨2,term,leader,prevLogIndex,prevLogTerm,entries,leaderCommit⟩
      | .appendEntriesResp term success matchIndex => ⟨3,term,success,matchIndex⟩)
    (fun
      | ⟨0,term,candidate,lastLogIndex,lastLogTerm⟩ => some (.requestVote term candidate lastLogIndex lastLogTerm)
      | ⟨1,term,voteGranted⟩ => some (.requestVoteResp term voteGranted)
      | ⟨2,term,leader,prevLogIndex,prevLogTerm,entries,leaderCommit⟩ =>
        some (.appendEntries term leader prevLogIndex prevLogTerm entries leaderCommit)
      | ⟨3,term,success,matchIndex⟩ => some (.appendEntriesResp term success matchIndex)
      | ⟨_+4,_⟩ => none)
    (by intro rpc; cases rpc <;> rfl)

def wireCodec : Bincode.Codec WireRpc :=
  (Bincode.string.pair rpcCodec).via (fun w => (w.group,w.rpc)) (fun p => some ⟨p.1,p.2⟩) fun _ => rfl

def rpcVariants : ∀ k, Fields (rpcCodecs k)
  | 0 => .cons (scalar Bincode.u64) (.cons (scalar Bincode.string) (.cons (scalar Bincode.u64)
      (.one (scalar Bincode.u64))))
  | 1 => .cons (scalar Bincode.u64) (.one (scalar Bincode.bool))
  | 2 => .cons (scalar Bincode.u64) (.cons (scalar Bincode.string) (.cons (scalar Bincode.u64)
      (.cons (scalar Bincode.u64) (.cons entryLimited.list (.one (scalar Bincode.u64))))))
  | 3 => .cons (scalar Bincode.u64) (.cons (scalar Bincode.bool) (.one (scalar Bincode.u64)))
  | _+4 => .never

theorem rpcVariants_height : ∀ k, (rpcVariants k).height≤3
  | 0 => Nat.zero_le 3
  | 1 => Nat.zero_le 3
  | 2 => Nat.le_refl 3
  | 3 => Nat.zero_le 3
  | _+4 => Nat.zero_le 3

def rpcLimited : Limited rpcCodec := (Limited.variant rpcVariants 3 rpcVariants_height).via

def wireLimited : Limited wireCodec :=
  (Limited.struct (.cons (scalar Bincode.string) (.one rpcLimited))).via

def maxRpc : ℕ := 4*1024*1024

def rpcLimits : Limits := ⟨maxRpc,maxRpc+16384,12⟩

/-- What the worker makes of a message it drained. -/
def encodeRpc (group : String) (rpc : RaftRpc) : Except NetworkDirectoryError Bytes :=
  let payload:=wireCodec.encode ⟨group,rpc⟩
  if payload.length>maxRpc then .error (.operation "outbound Raft RPC exceeds wire budget")
  else .ok payload

/-- `decode`: the peer is the authenticated identity of the transport. -/
def decodeRpc (bytes : Bytes) (group : String) (peer : NodeId) : Except NetworkDirectoryError RaftRpc :=
  match wireLimited.decode rpcLimits bytes with
  | .error e => .error (.invalid e)
  | .ok wire =>
    if wire.group≠group then .error .forbidden
    else if wire.rpc.claimed.any fun id => decide (id≠peer) then .error .forbidden
    else
      match wire.rpc.validateShape with
      | .error e => .error (.invalid e)
      | .ok () => .ok wire.rpc

/-- `receive`, up to the message handed to `step`. -/
def receive (peers : List NodeId) (group : String) (peer : NodeId) (bytes : Bytes) :
    Except NetworkDirectoryError RaftRpc :=
  if peer∉peers then .error .forbidden
  else if bytes.length>maxRpc then .error .capacity
  else decodeRpc bytes group peer

theorem entry_batch (entries : List LogEntry) :
    (entries.map fun e => (entryCodec.encode e).length).sum≤batchBytes entries := by
  induction entries with
  | nil => exact Nat.le_refl 0
  | cons e entries ih =>
    have h1:=Bincode.u64_le_nine e.term
    have h2:=Bincode.u64_le_nine e.index
    have h3:=Bincode.u64_le_nine e.cmd.length
    simp only [batchBytes,List.map_cons,List.sum_cons] at ih ⊢
    rw [entry_length]
    omega

theorem entries_fit {entries : List LogEntry} (hfew : entries.length≤1024) (hrange : ∀ e∈entries, e.term≤u64Max ∧
    e.index≤u64Max) (hsmall : ∀ e∈entries, e.cmd.length ≤ maxCommand) : entryCodec.list.fits entries=true := by
  simp only [Bincode.Codec.list,Bool.and_eq_true,List.all_eq_true]
  refine ⟨Bincode.u64_fits (by omega),?_⟩
  intro e he
  have hterm : Bincode.u64.fits e.term=true := Bincode.u64_fits ((hrange e he).1.trans_lt (by decide))
  have hindex : Bincode.u64.fits e.index=true := Bincode.u64_fits ((hrange e he).2.trans_lt (by decide))
  have hcmd : Bincode.bytes.fits e.cmd=true := Bincode.bytes_fits ((hsmall e he).trans_lt (by decide))
  simp only [entryCodec,Bincode.Codec.via,Bincode.Codec.pair,hterm,hindex,hcmd,Bool.and_self]

variable {good : Bytes → Prop} {id : NodeId} {rpc : RaftRpc}

theorem sendable_bounds (h : Sendable good id rpc) (hid : id.utf8ByteSize≤1024) : rpcCodec.fits rpc=true ∧
    (rpcCodec.encode rpc).length≤3*1024*1024+2048 ∧ rpcLimited.cost rpc≤3*1024*1024+2048 := by
  have hu : ∀ {k : ℕ}, k≤u64Max → Bincode.u64.fits k=true := fun hk => Bincode.u64_fits (hk.trans_lt (by decide))
  have hname:=string_length_le hid
  have hnamefits : Bincode.string.fits id=true := Bincode.string_fits (hid.trans_lt (by decide))
  obtain ⟨-,hrange,hclaimed,hfew,hsmall,hcommands⟩:=h
  cases rpc with
  | requestVote term candidate lastLogIndex lastLogTerm =>
    obtain rfl:=hclaimed candidate rfl
    have h1:=Bincode.u64_le_nine term
    have h2:=Bincode.u64_le_nine lastLogIndex
    have h3:=Bincode.u64_le_nine lastLogTerm
    refine ⟨?_,?_,?_⟩
    · change (Bincode.u32.fits 0&&(Bincode.u64.fits term&&(Bincode.string.fits candidate &&
        (Bincode.u64.fits lastLogIndex&&Bincode.u64.fits lastLogTerm))))=true
      rw [hu hrange.1,hnamefits,hu hrange.2.1,hu hrange.2.2]
      rfl
    · change ([0]++(Bincode.u64.encode term++(Bincode.string.encode candidate++
        (Bincode.u64.encode lastLogIndex++Bincode.u64.encode lastLogTerm)))).length≤_
      simp only [List.length_append,List.length_singleton]
      omega
    · change 2+((1+0)+((1+0)+((1+0)+(1+0))))≤_
      omega
  | requestVoteResp term voteGranted =>
    have h1:=Bincode.u64_le_nine term
    refine ⟨?_,?_,?_⟩
    · change (Bincode.u32.fits 1&&(Bincode.u64.fits term&&true))=true
      rw [hu hrange]
      rfl
    · change ([1]++(Bincode.u64.encode term++[_])).length≤_
      simp only [List.length_append,List.length_singleton]
      omega
    · change 2+((1+0)+(1+0))≤_
      omega
  | appendEntries term leader prev prevTerm entries commit =>
    obtain rfl:=hclaimed leader rfl
    obtain ⟨hterm,hprev,hprevTerm,hcommit,hentries⟩:=hrange
    simp only [RaftRpc.entries] at hfew hsmall hcommands
    have h1:=Bincode.u64_le_nine term
    have h2:=Bincode.u64_le_nine prev
    have h3:=Bincode.u64_le_nine prevTerm
    have h4:=Bincode.u64_le_nine commit
    have h5:=Bincode.u64_le_nine entries.length
    have hbatch:=entry_batch entries
    have hcost:=entries_cost entries
    have hlen:=entries_length entries
    refine ⟨?_,?_,?_⟩
    · change (Bincode.u32.fits 2&&(Bincode.u64.fits term&&(Bincode.string.fits leader&&(Bincode.u64.fits prev &&
        (Bincode.u64.fits prevTerm&&(entryCodec.list.fits entries&&Bincode.u64.fits commit))))))=true
      rw [hu hterm,hnamefits,hu hprev,hu hprevTerm,entries_fit hfew hentries fun e he => (hcommands e he).1,hu hcommit]
      rfl
    · change ([2]++(Bincode.u64.encode term++(Bincode.string.encode leader++(Bincode.u64.encode prev++
        (Bincode.u64.encode prevTerm++(entryCodec.list.encode entries++Bincode.u64.encode commit)))))).length≤_
      simp only [List.length_append,List.length_singleton]
      omega
    · change 2+((1+0)+((1+0)+((1+0)+((1+0)+((1+entryLimited.costs entries)+(1+0))))))≤_
      omega
  | appendEntriesResp term success matchIndex =>
    have h1:=Bincode.u64_le_nine term
    have h2:=Bincode.u64_le_nine matchIndex
    refine ⟨?_,?_,?_⟩
    · change (Bincode.u32.fits 3&&(Bincode.u64.fits term&&(true&&Bincode.u64.fits matchIndex)))=true
      rw [hu hrange.1,hu hrange.2]
      rfl
    · change ([3]++(Bincode.u64.encode term++([_]++Bincode.u64.encode matchIndex))).length≤_
      simp only [List.length_append,List.length_singleton]
      omega
    · change 2+((1+0)+((1+0)+(1+0)))≤_
      omega

variable {name : String} {peers : List NodeId} {s : Replica} {x : DurableDirectory} {msgs : List (NodeId × RaftRpc)}

theorem group_length (hc : ValidConfig (groupName name) id peers) : name.utf8ByteSize≤1011 := by
  have hlen:=validId_length hc.1
  have hprefix : "directory-v1:".utf8ByteSize=13 := by decide
  rw [groupName,String.utf8ByteSize_append] at hlen
  omega

theorem sendable_delivered (h : Sendable good id rpc) (hid : id.utf8ByteSize≤1024) (hname : name.utf8ByteSize≤1011) :
    (wireCodec.encode ⟨name,rpc⟩).length ≤ maxRpc ∧ wireLimited.decode rpcLimits
    (wireCodec.encode ⟨name,rpc⟩)=.ok ⟨name,rpc⟩ ∧ decodeRpc (wireCodec.encode ⟨name,rpc⟩) name id=.ok rpc := by
  obtain ⟨hfits,hlen,hcost⟩:=sendable_bounds h hid
  have hgroup:=string_length_le (hname.trans (by decide))
  have hgroupfits : Bincode.string.fits name=true := Bincode.string_fits (hname.trans_lt (by decide))
  have hbytes : (wireCodec.encode ⟨name,rpc⟩).length ≤ maxRpc := by
    change (Bincode.string.encode name++rpcCodec.encode rpc).length≤_
    rw [List.length_append]
    unfold maxRpc
    omega
  have hdecode : wireLimited.decode rpcLimits (wireCodec.encode ⟨name,rpc⟩)=.ok ⟨name,rpc⟩ := by
    refine wireLimited.decode_encode ?_ hbytes ?_ (by decide) (by decide)
    · change (Bincode.string.fits name&&rpcCodec.fits rpc)=true
      rw [hgroupfits,hfits]
      rfl
    · change 1+((1+0)+(1+rpcLimited.cost rpc)) ≤ maxRpc+16384
      unfold maxRpc
      omega
  refine ⟨hbytes,hdecode,?_⟩
  have hclaim : (rpc.claimed.any fun c => decide (c≠id))=false := by
    cases hc : rpc.claimed with
    | none => rfl
    | some c =>
      rw [h.claimed c hc]
      simp
  unfold decodeRpc
  rw [hdecode]
  dsimp only
  rw [if_neg (by simp),if_neg (by rw [hclaim]; decide),h.shape]

/-- Every message a replica hands to its worker reaches the peers as it is. -/
theorem outbox_deliverable (hrun : ReplicaRun name id peers s) (hhost : s.host=some x) (hout : x.outbox.1=.ok msgs) :
    ∀ m∈msgs, m.2.validateShape=.ok () ∧ (∀ e∈m.2.entries, e.cmd.length≤1024*1024) ∧ ∃ payload,
    encodeRpc name m.2=.ok payload ∧ payload.length ≤ maxRpc ∧ wireLimited.decode rpcLimits payload=.ok ⟨name,m.2⟩ ∧
    ∀ others : List NodeId, id∈others → receive others name id payload=.ok m.2 := by
  have hx:=(replicaRun_sound hrun).host x hhost
  intro m hm
  have hsend:=outbox_sendable hx hout m hm
  obtain ⟨hbytes,hwire,hdecode⟩:=sendable_delivered hsend (validId_length hx.config.2.1) (group_length hx.config)
  refine ⟨hsend.shape,fun e he => (hsend.commands e he).1,_,if_neg (Nat.not_lt.mpr hbytes),hbytes,hwire,?_⟩
  intro others hid
  unfold receive
  rw [if_neg (not_not.mpr hid),if_neg (Nat.not_lt.mpr hbytes)]
  exact hdecode

def lateClock : Clock := ⟨fun _ => 10,1,1,1⟩

def firstVote : RaftRpc := .requestVote 1 "a" 0 0

def firstCandidate : RaftNode := (RaftNode.new freshClock "a" ["b"]).campaign lateClock

theorem fresh_peers : normalizePeers "a" ["b"]=["b"] := by
  have hfilter : (["b"].filter fun peer => peer ≠ "a")=["b"] := by decide
  rw [normalizePeers,hfilter,List.mergeSort_singleton]
  rfl

theorem fresh_campaign : (RaftNode.new freshClock "a" ["b"]).tick lateClock=.ok firstCandidate := by
  have hquorum : ¬ firstCandidate.votesReceived.length≥firstCandidate.quorum := by
    change ¬ 1≥((normalizePeers "a" ["b"]).length+1)/2+1
    rw [fresh_peers]
    decide
  unfold RaftNode.tick
  change (if _ then _ else _)=_
  rw [if_pos (by decide)]
  unfold RaftNode.startElection
  rw [if_pos (by decide)]
  exact if_neg hquorum

theorem firstCandidate_outbox : firstCandidate.outbox=[("b",firstVote)] := by
  change (normalizePeers "a" ["b"]).map _=_
  rw [fresh_peers]
  rfl

theorem fresh_ticked {d : CrashFs.Disk RaftFile} (hl : Live Stored (groupName "d") "a" ["b"] d freshHost) :
    ∃ d', freshDirectory.tick .bounded .bounded lateClock ample d=.ok ⟨d',
      {freshDirectory with raft := ⟨firstCandidate,snapshot firstCandidate (groupName "d"),false⟩},.ok ()⟩ := by
  obtain ⟨n',hn',hm⟩:=tick_moved hl.node.fit.wf lateClock
  obtain rfl : n'=firstCandidate := Except.ok.inj (hn'.symm.trans fresh_campaign)
  obtain ⟨hid,hpeers⟩:=moves_identity hm
  have hin : InputFit Stored .clock := trivial
  obtain ⟨hsane,hpub⟩:=sane_moved hl hin hm (hl.node.roomy.same_log hid hpeers (moves_log hm rfl))
  have hfinished:=finish_finished hl hsane hpub ample ()
  unfold DurableDirectory.tick
  rw [if_neg (by decide)]
  change ∃ d', freshDirectory.drive .bounded d (freshHost.tick .bounded lateClock ample d)=_
  unfold DurableRaft.tick
  rw [if_neg (by decide),show freshHost.node.tick lateClock=.ok firstCandidate from fresh_campaign]
  change ∃ d', Except.ok (freshDirectory.driven .bounded (DurableRaft.finish .bounded {freshHost with node:=firstCandidate}
    ample d ()))=_
  generalize DurableRaft.finish .bounded {freshHost with node:=firstCandidate} ample d ()=o at hfinished ⊢
  cases hfinished with
  | done d' hlive =>
    refine ⟨d',congrArg Except.ok ?_⟩
    unfold DurableDirectory.driven
    dsimp only
    rw [applyPending_ok rfl rfl (by decide)]
    rfl
  | stopped d' hbudget hbounded hsettled => exact absurd hbudget (Nat.lt_irrefl _)

theorem outbox_deliverable_vote : ∃ s x, ReplicaRun "d" "a" ["b"] s ∧ s.host=some x ∧
    x.outbox.1=.ok [("b",firstVote)] ∧
    receive ["a"] "d" "a" (wireCodec.encode ⟨"d",firstVote⟩)=.ok firstVote := by
  obtain ⟨d,hopen,hlive⟩:=fresh_opened
  obtain ⟨d',htick⟩:=fresh_ticked hlive
  have hopened : ReplicaStep "d" "a" ["b"] ⟨.empty,none⟩ (.opened (DurableDirectory.openDirectory .bounded .bounded
    freshClock "d" "a" ["b"] 0 ample .empty)) := .opened ⟨.empty,none⟩ freshClock 0 ample rfl
  rw [hopen] at hopened
  have hticked : ReplicaStep "d" "a" ["b"] ⟨d,some freshDirectory⟩ (.after (freshDirectory.tick .bounded .bounded lateClock
    ample d)) := .tick ⟨d,some freshDirectory⟩ freshDirectory lateClock ample rfl
  rw [htick] at hticked
  have hrun:=(Relation.ReflTransGen.single hopened).tail hticked
  have hout : ({freshDirectory with raft := ⟨firstCandidate,snapshot firstCandidate (groupName "d"),false⟩} :
      DurableDirectory).outbox.1=.ok [("b",firstVote)] := congrArg Except.ok firstCandidate_outbox
  obtain ⟨-,-,payload,hpayload,-,-,hreceive⟩:=outbox_deliverable hrun rfl hout _ (List.mem_singleton_self _)
  obtain rfl : wireCodec.encode ⟨"d",firstVote⟩=payload := by
    unfold encodeRpc at hpayload
    dsimp only at hpayload
    split at hpayload
    · contradiction
    · exact Except.ok.inj hpayload
  exact ⟨_,_,hrun,rfl,hout,hreceive ["a"] (List.mem_singleton_self _)⟩

end Parrot.Directory
