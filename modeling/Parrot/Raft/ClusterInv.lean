import Parrot.Raft.Cluster

/-! # The cluster invariant holds in every run

Each call of a host is matched by abstract steps of its node, made when the new snapshot is the
only one that can be read back. -/

namespace Parrot.Raft
open Machine CrashFs ReplicatedLog

variable {codec : SnapshotCodec} {name : String} {members : Finset NodeId}
variable {a a' : Ghost} {low : ℕ} {i j : NodeId} {c c' : Cluster} {n n' : RaftNode}
  {inp : Input}

variable {peers : List NodeId}

theorem mem_new_peers (clock : Clock) (hpeers : ∀ x, x≠i → (x∈peers ↔ x∈members)) (x : NodeId) :
    x∈(RaftNode.new clock i peers).peers ↔ x∈members ∧ x≠i := by
  change x∈normalizePeers i peers ↔ _
  rw [mem_normalizePeers]
  constructor
  · rintro ⟨h1,h2⟩
    exact ⟨(hpeers x h2).mp h1,h2⟩
  · rintro ⟨h1,h2⟩
    exact ⟨(hpeers x h2).mpr h1,h2⟩

theorem new_nodeOk (hi : i∈members) (clock : Clock)
    (hpeers : ∀ x, x≠i → (x∈peers ↔ x∈members)) (hterm : a.term i=0) (hlog : a.log i=[])
    (hvote : a.voted i 0=none) : NodeOk members a i (RaftNode.new clock i peers) where
  wf := wellFormed_new clock i peers
  published := ⟨[],rfl⟩
  id := rfl
  member := hi
  peers := mem_new_peers clock hpeers
  nodup := nodup_normalizePeers i peers
  term := hterm
  log := hlog
  vote := hvote
  campaigning := nofun
  leading := nofun
  committed := .inl rfl
  outbox := nofun

theorem recovered_nodeOk (name : String) (hn : NodeOk members a i n) (clock : Clock)
    (hpeers : ∀ x, x≠i → (x∈peers ↔ x∈members)) :
    NodeOk members a i (recovered (RaftNode.new clock i peers) (snapshot n name)) where
  wf := {hn.wf with applied:=rfl,active:=nofun,next_le:=nofun}
  published := ⟨[],rfl⟩
  id := rfl
  member := hn.member
  peers := mem_new_peers clock hpeers
  nodup := nodup_normalizePeers i peers
  term := hn.term
  log := hn.log
  vote := hn.vote
  campaigning := nofun
  leading := nofun
  committed := hn.committed
  outbox := nofun

variable {s : Slot}

theorem SlotOk.down (h : SlotOk codec name members a low i s) :
    SlotOk codec name members a low i ⟨s.disk,none⟩ := ⟨h.bounded,h.settled,noSome⟩

theorem syncParent_cases (host : DurableRaft) (r : Disk RaftFile × Option ℕ) : (∃ left, r.2=some left ∧
    Slot.opened (syncParent host r)=⟨r.1,some host⟩) ∨ Slot.opened (syncParent host r)=⟨r.1,none⟩ := by
  rcases r with ⟨d,_ | _ | left⟩
  · exact .inr rfl
  · exact .inr rfl
  · exact .inl ⟨left+1,rfl,rfl⟩

theorem reopen_slotOk (hs : Sound members a) (h : SlotOk codec name members a low i s)
    (clock : Clock) (hpeers : ∀ x, x≠i → (x∈peers ↔ x∈members))
    {validateCommand : Bytes → Except String Unit} {bytes : Bytes} {saved : Saved}
    (hread : s.disk.read .state=some bytes)
    (hacc : accept codec name (RaftNode.new clock i peers) validateCommand bytes=.ok saved)
    {stale : List (Effect RaftFile)} (hstale : ∀ e∈stale, e=.unlink .next) (budget : ℕ) :
    ∃ a', Acts members i a a' ∧ SlotOk codec name members a' low i (.opened
      (syncParent ⟨recovered (RaftNode.new clock i peers) saved,saved,false⟩
        (s.disk.exec budget (stale++[.sync .state,.syncDir])))) := by
  have hne : RaftFile.state≠RaftFile.next := by decide
  have hall : ∀ e∈stale++[Effect.sync RaftFile.state],Disk.Housekeeping RaftFile.next RaftFile.state e := by
    intro e he
    rcases List.mem_append.mp he with he | he
    · exact .inl (hstale e he)
    · exact .inr (.inl (List.mem_singleton.mp he))
  have hassoc : stale++[Effect.sync RaftFile.state,Effect.syncDir] =
      (stale++[Effect.sync RaftFile.state])++[Effect.syncDir] := by simp
  rcases hx : s.disk.exec budget (stale++[.sync .state,.syncDir]) with ⟨d',left⟩
  rcases syncParent_cases ⟨recovered (RaftNode.new clock i peers) saved,saved,false⟩ (d',left) with
    ⟨k,hk,heq⟩ | heq
  · -- the directory is synced: what was read is all that can be read
    obtain rfl : left=some k := hk
    have hdone:=Disk.exec_completed hx
    rw [hassoc] at hdone
    obtain ⟨hb,hd⟩:=Disk.housekeeping_completed h.bounded h.settled hne hall hdone
    rw [hread] at hd
    rcases hread ▸ h.settled.read with ⟨hnone,-⟩ | ⟨n,inp,n',hn,hlow,hin,hm,himg⟩
    · contradiction
    cases himg
    obtain ⟨a1,hacts,hn'⟩:=moves_simulated hs hn hin hm
    obtain ⟨rfl,hp⟩:=accept_image hacc
    have hsnap : snapshot n' name=snapshot (recovered (RaftNode.new clock i peers) (snapshot n' name)) name := by
      simp only [snapshot,recovered] at hp ⊢
      rw [hp,hn'.id]
      rfl
    refine ⟨a1,hacts,?_⟩
    rw [hx,heq]
    have hlow' : low≤n'.commitIndex := hlow.trans (moves_progress hm hn.wf).commit_le
    have hok:=NodeOk.live codec name (recovered_nodeOk name hn' clock hpeers) hlow' hb
      (by rw [← hsnap]; exact hd)
    rw [← hsnap] at hok
    exact hok
  · refine ⟨a,.refl,?_⟩
    rw [hx,heq]
    have hstop:=Disk.exec_stopped hx
    obtain ⟨hb,hd⟩:=Disk.housekeeping_stopped h.bounded h.settled hne (by
      intro e he
      rw [hassoc] at he
      rcases List.mem_append.mp he with he | he
      · exact hall e he
      · exact .inr (.inr (List.mem_singleton.mp he))) hstop
    exact ⟨hb,hd,noSome⟩

theorem create_slotOk (hi : i∈members) (h : SlotOk codec name members a low i s) (clock : Clock)
    (hpeers : ∀ x, x≠i → (x∈peers ↔ x∈members)) (hread : s.disk.read .state=none) {budget : ℕ} {d' : Disk RaftFile}
    {r : Except RaftStorageError ℕ}
    (hpub : publish codec budget (snapshot (RaftNode.new clock i peers) name) s.disk=(d',r)) :
    SlotOk codec name members a low i ⟨d',none⟩ ∧ ∀ left, r=.ok left → SlotOk codec name members a low i
    ⟨d',some ⟨RaftNode.new clock i peers, snapshot (RaftNode.new clock i peers) name,false⟩⟩ := by
  have hne : RaftFile.state≠RaftFile.next := by decide
  rcases hread ▸ h.settled.read with ⟨-,hlow,h1,h2,h3⟩ | ⟨n,inp,n',-,-,-,-,himg⟩
  · have hok:=new_nodeOk hi clock hpeers h1 h2 h3
    unfold publish at hpub
    split at hpub
    · cases hpub
      exact ⟨h.down,nofun⟩
    · split at hpub
      · rename_i d1 hx
        cases hpub
        obtain ⟨hb,hd⟩:=Disk.replace_stopped h.bounded h.settled hne (Disk.exec_stopped hx)
        refine ⟨⟨hb,hd.imp ?_,noSome⟩,nofun⟩
        rintro o (ho | rfl)
        · exact ho
        · exact recoverable_saved hok hlow.le
      · rename_i d1 left hx
        cases hpub
        obtain ⟨hb,hd⟩:=Disk.replace_completed h.bounded h.settled hne (Disk.exec_completed hx)
        have hlive:=NodeOk.live codec name hok hlow.le hb hd
        exact ⟨hlive.down,fun _ _ => hlive⟩
  · contradiction

theorem opened_slotOk (hs : Sound members a) (hi : i∈members) (h : SlotOk codec name members a low i s)
    (clock : Clock) (hpeers : ∀ x, x≠i → (x∈peers ↔ x∈members)) (validateCommand : Bytes → Except String Unit)
    (budget : ℕ) : ∃ a', Acts members i a a' ∧ SlotOk codec name members a' low i
    (.opened (DurableRaft.openValidated codec clock name i peers validateCommand budget s.disk)) := by
  unfold DurableRaft.openValidated
  split
  · exact ⟨a,.refl,h.down⟩
  · dsimp only
    split
    · rename_i bytes hread
      split
      · exact ⟨a,.refl,h.down⟩
      · rename_i saved hacc
        refine reopen_slotOk hs h clock hpeers hread hacc ?_ budget
        intro e he
        split at he
        · exact List.mem_singleton.mp he
        · contradiction
    · rename_i hread
      split
      · exact ⟨a,.refl,h.down⟩
      · split
        · rename_i d' e hpub
          exact ⟨a,.refl,(create_slotOk hi h clock hpeers hread hpub).1⟩
        · rename_i d' left hpub
          obtain ⟨h1,h2⟩:=create_slotOk hi h clock hpeers hread hpub
          refine ⟨a,.refl,?_⟩
          rcases syncParent_cases ⟨RaftNode.new clock i peers,
            snapshot (RaftNode.new clock i peers) name,false⟩ (d',some left) with ⟨k,-,heq⟩ | heq
          · rw [heq]
            exact h2 left rfl
          · rw [heq]
            exact h1

variable {h : DurableRaft} {d : Disk RaftFile}

theorem finish_slotOk {α : Type} (hs : Sound members a)
    (hslot : SlotOk codec name members a low i ⟨d,some h⟩) (hlive : h.failed=false)
    (hin : InputOk members a i inp) (hm : Moves inp h.node n') (budget : ℕ) (value : α) :
    ∃ a', Acts members i a a' ∧ SlotOk codec name members a' low i
      ((Slot.after ⟨d,some h⟩) (.ok (DurableRaft.finish codec {h with node:=n'} budget d value))) := by
  have hne : RaftFile.state≠RaftFile.next := by decide
  obtain ⟨hn,hsaved,hd⟩:=(hslot.host h rfl).live hlive
  obtain ⟨hid,hpeers⟩:=moves_identity hm
  have hlow:=(hslot.host h rfl).low_le
  have hlow0 : low≤h.node.commitIndex := by rwa [hsaved] at hlow
  have hlow1 : low≤n'.commitIndex := hlow0.trans (moves_progress hm hn.wf).commit_le
  have hnew : Recoverable codec name members a low i (some (image codec (snapshot n' name))) :=
    .inr ⟨h.node,inp,n',hn,hlow0,hin,hm,rfl⟩
  -- a failed host keeps reporting its last published state
  have hfail : ∀ {d' : Disk RaftFile} {node : RaftNode}, d'.Bounded →
      d'.Settled .state (Recoverable codec name members a low i) →
      SlotOk codec name members a low i ⟨d',some ⟨node,h.saved,true⟩⟩ := by
    intro d' node hb hd'
    refine ⟨hb,hd',?_⟩
    intro x hx
    cases hx
    exact ⟨⟨h.node,hn,hsaved⟩,hlow,nofun⟩
  obtain ⟨a1,hacts,hn1⟩:=moves_simulated hs hn hin hm
  unfold DurableRaft.finish
  split
  · rename_i hsame
    refine ⟨a1,hacts,?_⟩
    have hsnap : h.saved=snapshot n' name := by
      obtain ⟨h1,h2,h3,h4⟩:=hsame
      rw [hsaved] at h1 h2 h3 h4 ⊢
      simp only [snapshot] at h1 h2 h3 h4 ⊢
      rw [h1,h2,h3,h4,hid,hpeers]
    rw [hsnap] at hd
    have:=NodeOk.live codec name hn1 hlow1 hslot.bounded hd
    rw [← hsnap,← hlive] at this
    exact this
  · dsimp only
    have hcluster : h.saved.cluster=name := by rw [hsaved]; rfl
    rw [hcluster]
    split
    · exact ⟨a,.refl,hfail hslot.bounded hslot.settled⟩
    · split
      · rename_i d' e hpub
        refine ⟨a,.refl,?_⟩
        unfold publish at hpub
        split at hpub
        · obtain ⟨rfl,-⟩:=Prod.mk.inj hpub
          exact hfail hslot.bounded hslot.settled
        · split at hpub
          · rename_i d1 hx
            obtain ⟨rfl,-⟩:=Prod.mk.inj hpub
            obtain ⟨hb,hd1⟩:=Disk.replace_stopped hslot.bounded hslot.settled hne
              (Disk.exec_stopped hx)
            refine hfail hb (hd1.imp ?_)
            rintro o (ho | rfl)
            · exact ho
            · exact hnew
          · simp at hpub
      · rename_i d' left hpub
        refine ⟨a1,hacts,?_⟩
        unfold publish at hpub
        split at hpub
        · simp at hpub
        · split at hpub
          · simp at hpub
          · rename_i d1 left' hx
            obtain ⟨rfl,-⟩:=Prod.mk.inj hpub
            obtain ⟨hb,hd1⟩:=Disk.replace_completed hslot.bounded hslot.settled hne
              (Disk.exec_completed hx)
            have:=NodeOk.live codec name hn1 hlow1 hb hd1
            rw [← hlive] at this
            exact this

theorem inputOk_clock : InputOk members a i .clock := fun _ _ h => nomatch h

theorem inputOk_command (cmd : Bytes) : InputOk members a i (.command cmd) := fun _ _ h => nomatch h

theorem refused_slotOk {α : Type} (hslot : SlotOk codec name members a low i ⟨d,some h⟩) (e : RaftStorageError) :
    ∃ a', Acts members i a a' ∧
    SlotOk codec name members a' low i (Slot.after (α := α) ⟨d,some h⟩ (.ok (h.refused d e))) :=
  ⟨a,.refl,hslot⟩

section
variable (hs : Sound members a)
include hs

section
variable (hslot : SlotOk codec name members a low i ⟨d,some h⟩)
include hslot

theorem handled_slotOk {α : Type} (hlive : h.failed=false)
    (hin : InputOk members a i inp) {r : Except Panic RaftNode} (hr : Handled inp h.node r)
    (budget : ℕ) (value : α) :
    ∃ a', Acts members i a a' ∧ SlotOk codec name members a' low i (Slot.after ⟨d,some h⟩ (do
      let node ← r
      return DurableRaft.finish codec {h with node:=node} budget d value)) := by
  rcases hr with ⟨n',rfl,hm⟩ | rfl
  · exact finish_slotOk hs hslot hlive hin hm budget value
  · exact ⟨a,.refl,hslot.down⟩

theorem tick_slotOk (clock : Clock) (budget : ℕ) : ∃ a', Acts members i a a' ∧
    SlotOk codec name members a' low i (Slot.after ⟨d,some h⟩ (h.tick codec clock budget d)) := by
  unfold DurableRaft.tick
  split
  · exact refused_slotOk hslot .closed
  · rename_i hf
    have hlive : h.failed=false := by simpa using hf
    have hwf:=((hslot.host h rfl).live hlive).1.wf
    exact handled_slotOk hs hslot hlive inputOk_clock (.inl (tick_moved hwf clock)) budget ()

theorem step_slotOk (clock : Clock)
    {src : NodeId} {rpc : RaftRpc} (hmsg : MsgOk members a src i rpc) (budget : ℕ) : ∃ a', Acts members i a a' ∧
    SlotOk codec name members a' low i (Slot.after ⟨d,some h⟩ (h.step codec clock src rpc budget d)) := by
  unfold DurableRaft.step
  split
  · exact refused_slotOk hslot .closed
  · rename_i hf
    have hlive : h.failed=false := by simpa using hf
    have hwf:=((hslot.host h rfl).live hlive).1.wf
    split
    · exact refused_slotOk hslot _
    · split
      · exact refused_slotOk hslot .capacity
      · refine handled_slotOk hs hslot hlive ?_ (step_handled hwf clock src rpc) budget ()
        intro x y hxy
        obtain ⟨rfl,rfl⟩:=Input.message.inj hxy
        exact hmsg

theorem propose_slotOk (cmd : Bytes) (budget : ℕ) : ∃ a', Acts members i a a' ∧
    SlotOk codec name members a' low i (Slot.after ⟨d,some h⟩ (h.propose codec cmd budget d)) := by
  unfold DurableRaft.propose
  split
  · exact refused_slotOk hslot .closed
  · rename_i hf
    have hlive : h.failed=false := by simpa using hf
    have hwf:=((hslot.host h rfl).live hlive).1.wf
    split
    · exact refused_slotOk hslot .capacity
    · split
      · exact refused_slotOk hslot _
      · rename_i hrole
        split
        · exact refused_slotOk hslot .capacity
        · rcases propose_handled hwf cmd with ⟨r,n',heq,hm⟩ | heq
          · rw [heq]
            cases r with
            | ok index => exact finish_slotOk hs hslot hlive (inputOk_command cmd) hm budget index
            | error hint =>
              -- the role was checked: the core cannot refuse
              exact nomatch (propose_leader hwf (by simpa using hrole) heq).1
          · rw [heq]
            exact ⟨a,.refl,hslot.down⟩

end

end

theorem outbox_slotOk {msgs : List (NodeId × RaftRpc)}
    (hslot : SlotOk codec name members a low i ⟨d,some h⟩) (hout : h.outbox.1=.ok msgs) :
    SlotOk codec name members a low i ⟨d,some h.outbox.2⟩ ∧ ∀ m∈msgs, MsgOk members a i m.1 m.2 := by
  unfold DurableRaft.outbox at hout ⊢
  split at hout
  · contradiction
  · rename_i hf
    rw [if_neg hf]
    have hlive : h.failed=false := by simpa using hf
    obtain ⟨hn,hsaved,hd⟩:=(hslot.host h rfl).live hlive
    cases hout
    refine ⟨⟨hslot.bounded,hslot.settled,?_⟩,hn.outbox⟩
    intro x hx
    cases hx
    refine ⟨(hslot.host h rfl).saved,(hslot.host h rfl).low_le,fun _ => ⟨?_,hsaved,hd⟩⟩
    exact {hn with wf := {hn.wf with},published := hn.published,outbox := nofun}

theorem committed_slotOk {entries : List LogEntry} (hslot : SlotOk codec name members a low i ⟨d,some h⟩)
    (hout : h.committed.1=.ok entries) : SlotOk codec name members a low i ⟨d,some h.committed.2⟩ ∧ ∀ e∈entries,
    0<e.index ∧ ∃ T l, Fixed members a T l ∧ l[e.index-1]? = some e := by
  unfold DurableRaft.committed at hout ⊢
  split at hout
  · contradiction
  · rename_i hf
    rw [if_neg hf]
    have hlive : h.failed=false := by simpa using hf
    obtain ⟨hn,hsaved,hd⟩:=(hslot.host h rfl).live hlive
    cases hout
    obtain ⟨handed,hpub⟩:=hn.published
    constructor
    · refine ⟨hslot.bounded,hslot.settled,?_⟩
      intro x hx
      cases hx
      refine ⟨(hslot.host h rfl).saved,(hslot.host h rfl).low_le,fun _ => ⟨?_,hsaved,hd⟩⟩
      exact {hn with
        wf := {hn.wf with}
        published := ⟨handed++h.node.pendingApply,by simpa [Published,RaftNode.committed] using hpub⟩}
    · intro e he
      have hmem : e∈h.node.log.take h.node.commitIndex := by
        rw [← hpub]
        exact List.mem_append_right _ he
      obtain ⟨k,hk⟩:=List.getElem?_of_mem hmem
      have hklt:=(List.getElem?_eq_some_iff.mp hk).1
      rw [List.length_take] at hklt
      have hidx:=hn.wf.indexed k e (by rwa [List.getElem?_take_of_lt (by omega)] at hk)
      exact ⟨by omega,h.node.currentTerm,_,hn.committed,by rw [hidx]; exact hk⟩

variable {lows : NodeId → ℕ}

theorem cluster_start_inv : Inv codec name members ReplicatedLog.init (fun _ => 0) Cluster.start where
  sound := init_coherent
  slots := by
    intro i _
    exact ⟨Disk.empty_bounded,Disk.empty_settled (.inl ⟨rfl,rfl,rfl,rfl,rfl⟩),noSome⟩
  others := fun _ _ => rfl
  sent := nofun
  handed := nofun

section
variable (hinv : Inv codec name members a lows c)
include hinv

theorem Inv.set (hacts : Acts members i a a') (hi : i∈members) (hslot : SlotOk codec name members a' (lows i) i s) :
    Grows a a' ∧ Inv codec name members a' lows (c.set i s) := by
  have hl:=run_local hacts hinv.sound
  refine ⟨hl.grows,run_coherent hacts hinv.sound,?_,?_,fun m hm => (hinv.sent m hm).mono hl.grows,?_⟩
  · intro j hj
    by_cases hij : j=i
    · subst hij
      simpa [Cluster.set] using hslot
    · simp only [Cluster.set,Function.update_of_ne hij]
      exact (hinv.slots j hj).frame hl hij
  · intro j hj
    have hij : j≠i := by
      rintro rfl
      exact hj hi
    simp only [Cluster.set,Function.update_of_ne hij]
    exact hinv.others j hj
  · intro x hx
    obtain ⟨h1,T,l,hf,hl'⟩:=hinv.handed x hx
    exact ⟨h1,T,l,hf.mono hl.grows (le_rfl),hl'⟩

theorem Inv.set_other (hi : i∉members) (hdown : s.host=none) : Inv codec name members a lows (c.set i s) := by
  refine {hinv with slots:=?_,others:=?_}
  · intro j hj
    have hij : j≠i := by
      rintro rfl
      exact hi hj
    simp only [Cluster.set,Function.update_of_ne hij]
    exact hinv.slots j hj
  · intro j hj
    by_cases hij : j=i
    · subst hij
      simpa [Cluster.set] using hdown
    · simp only [Cluster.set,Function.update_of_ne hij]
      exact hinv.others j hj

theorem Inv.member (hhost : (c.slot i).host=some h) : i∈members := by
  by_contra hi
  rw [hinv.others i hi] at hhost
  contradiction

theorem Inv.slot (hhost : (c.slot i).host=some h) :
    SlotOk codec name members a (lows i) i ⟨(c.slot i).disk,some h⟩ := by
  have:=hinv.slots i (hinv.member hhost)
  rw [← hhost]
  exact this

end

theorem step_inv (hstep : Step codec name members c c') (hinv : Inv codec name members a lows c) :
    ∃ a', Grows a a' ∧ Inv codec name members a' lows c' := by
  have hcall : ∀ {α : Type} {i : NodeId} {h : DurableRaft} {r : Except Panic (Outcome α)},(c.slot i).host=some h →
      (∃ a', Acts members i a a' ∧ SlotOk codec name members a' (lows i) i
        (Slot.after ⟨(c.slot i).disk,some h⟩ r)) →
      ∃ a', Grows a a' ∧ Inv codec name members a' lows (c.set i ((c.slot i).after r)) := by
    rintro α i h r hhost ⟨a',hacts,hslot⟩
    refine ⟨a',hinv.set hacts (hinv.member hhost) ?_⟩
    rw [← hhost] at hslot
    exact hslot
  cases hstep with
  | opened i clock peers validateCommand budget hi hpeers hdown =>
    obtain ⟨a',hacts,hslot⟩:=opened_slotOk hinv.sound hi (hinv.slots i hi) clock hpeers
      validateCommand budget
    exact ⟨a',hinv.set hacts hi hslot⟩
  | tick i h clock budget hhost =>
    exact hcall hhost (tick_slotOk hinv.sound (hinv.slot hhost) clock budget)
  | propose i h cmd budget hhost =>
    exact hcall hhost (propose_slotOk hinv.sound (hinv.slot hhost) cmd budget)
  | step i h clock src rpc budget hhost hsent =>
    exact hcall hhost (step_slotOk hinv.sound (hinv.slot hhost) clock (hinv.sent _ hsent) budget)
  | outbox i h msgs hhost hout =>
    obtain ⟨hslot,hmsgs⟩:=outbox_slotOk (hinv.slot hhost) hout
    obtain ⟨hg,hinv'⟩:=hinv.set .refl (hinv.member hhost) hslot
    refine ⟨a,hg,{hinv' with sent:=?_}⟩
    intro m hm
    rcases List.mem_append.mp hm with hm | hm
    · exact hinv.sent m hm
    · obtain ⟨x,hx,rfl⟩:=List.mem_map.mp hm
      exact hmsgs x hx
  | committed i h entries hhost hout =>
    obtain ⟨hslot,hent⟩:=committed_slotOk (hinv.slot hhost) hout
    obtain ⟨hg,hinv'⟩:=hinv.set .refl (hinv.member hhost) hslot
    refine ⟨a,hg,{hinv' with handed:=?_}⟩
    intro x hx
    rcases List.mem_append.mp hx with hx | hx
    · exact hinv.handed x hx
    · obtain ⟨e,he,rfl⟩:=List.mem_map.mp hx
      exact hent e he
  | exit i =>
    by_cases hi : i∈members
    · exact ⟨a,hinv.set .refl hi (hinv.slots i hi).down⟩
    · exact ⟨a,Grows.refl a,hinv.set_other hi rfl⟩
  | crash i kept cut =>
    by_cases hi : i∈members
    · have hs:=hinv.slots i hi
      exact ⟨a,hinv.set .refl hi ⟨hs.bounded.crash kept cut,hs.settled.crash kept cut,noSome⟩⟩
    · exact ⟨a,Grows.refl a,hinv.set_other hi rfl⟩

theorem run_inv (hrun : Run codec name members c c') (hinv : Inv codec name members a lows c) :
    ∃ a', Grows a a' ∧ Inv codec name members a' lows c' := by
  induction hrun with
  | refl => exact ⟨a,Grows.refl a,hinv⟩
  | tail _ hstep ih =>
    obtain ⟨b,hab,hb⟩:=ih
    obtain ⟨d,hbd,hd⟩:=step_inv hstep hb
    exact ⟨d,hab.trans hbd,hd⟩

end Parrot.Raft
