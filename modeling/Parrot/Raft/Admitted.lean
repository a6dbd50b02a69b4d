import Parrot.Raft.LogSize
import Parrot.Raft.Persist
import Parrot.Raft.Safety

/-! # Logs that every member admits (`raft/storage.rs:224-282`, `raft/storage.rs:338-368`)

No host of a cluster ever holds a log that its capacity check would refuse. -/

namespace Parrot.Raft
open Machine CrashFs ReplicatedLog

theorem normalizePeers_sorted (id : NodeId) (peers : List NodeId) : (normalizePeers id peers).Pairwise (·≤·) := by
  rw [normalizePeers_eq]
  refine List.Pairwise.sublist (List.dedup_sublist _) ?_
  refine (List.pairwise_mergeSort ?_ ?_ _).imp (fun h => of_decide_eq_true h)
  · intro a b c hab hbc
    exact decide_eq_true (String.le_trans (of_decide_eq_true hab) (of_decide_eq_true hbc))
  · intro a b
    rcases String.le_total a b with h | h <;> simp [h]

theorem normalizePeers_congr {id : NodeId} {peers peers' : List NodeId}
    (h : ∀ x, x≠id → (x∈peers ↔ x∈peers')) : normalizePeers id peers=normalizePeers id peers' := by
  have hperm : (normalizePeers id peers).Perm (normalizePeers id peers') := by
    rw [List.perm_ext_iff_of_nodup (nodup_normalizePeers _ _) (nodup_normalizePeers _ _)]
    intro x
    rw [mem_normalizePeers,mem_normalizePeers]
    constructor
    · rintro ⟨hx,hne⟩
      exact ⟨(h x hne).mp hx,hne⟩
    · rintro ⟨hx,hne⟩
      exact ⟨(h x hne).mpr hx,hne⟩
  exact hperm.eq_of_pairwise (fun a b _ _ hab hba => String.le_antisymm hab hba) (normalizePeers_sorted _ _)
    (normalizePeers_sorted _ _)

section config
variable {good : Bytes → Prop} {name : String} {i : NodeId} {peers peers' : List NodeId} {d : Disk RaftFile}
  {h : DurableRaft} {n : RaftNode}

theorem Sane.config (hs : Sane good name i peers n) (heq : normalizePeers i peers=normalizePeers i peers') :
    Sane good name i peers' n := ⟨hs.fit,hs.roomy,hs.name,hs.members.trans heq⟩

theorem Live.config (hl : Live good name i peers d h) (heq : normalizePeers i peers=normalizePeers i peers') :
    Live good name i peers' d h := {hl with node:=hl.node.config heq}

theorem Restorable.config {allowed : Option Saved → Prop} {o : Option Bytes}
    (hr : Restorable good name i peers allowed o) (heq : normalizePeers i peers=normalizePeers i peers') :
    Restorable good name i peers' (fun _ => True) o := by
  obtain ⟨x,-,ho,hsane⟩:=hr
  refine ⟨x,trivial,ho,?_⟩
  intro s hs
  obtain ⟨n,hn,hsnap⟩:=hsane s hs
  exact ⟨n,hn.config heq,hsnap⟩

theorem Live.restorable (hl : Live good name i peers d h) :
    d.Settled .state (Restorable good name i peers fun _ => True) := by
  refine hl.settled.imp ?_
  rintro o rfl
  refine ⟨some h.saved,trivial,rfl,?_⟩
  intro s hs
  exact ⟨h.node,hl.node,(Option.some.inj hs).symm.trans hl.saved⟩

end config

section cluster
variable (name : String) (members : Finset NodeId)

def Carried (a : Ghost) : RaftRpc → Prop
  | .appendEntries term _ prev _ entries _ => entries≠[] →
    ∃ l, l<+:a.lead term ∧ prev+entries.length≤l.length ∧ Fits name members l
  | _ => True

structure SlotFits (a : Ghost) (i : NodeId) (s : Slot) : Prop where
  bounded : s.disk.Bounded
  settled : s.disk.Settled .state (Restorable Any name i members.toList fun _ => True)
  live : ∀ h, s.host=some h → h.failed=false → Live Any name i members.toList s.disk h
  outbox : ∀ h, s.host=some h → h.failed=false → ∀ m∈h.node.outbox, Carried name members a m.2

structure Admitted (a : Ghost) (c : Cluster) : Prop where
  slots : ∀ i∈members, SlotFits name members a i (c.slot i)
  sent : ∀ m∈c.sent, Sendable Any m.1 m.2.2 ∧ Carried name members a m.2.2

variable {name members} {a a' : Ghost} {i j : NodeId} {c c' : Cluster} {s : Slot} {d : Disk RaftFile}
  {h : DurableRaft} {lows : NodeId → ℕ} {low : ℕ}

variable {rpc : RaftRpc}

theorem Carried.mono (hg : Grows a a') (h : Carried name members a rpc) : Carried name members a' rpc := by
  cases rpc with
  | appendEntries term leader prev prevTerm entries commit =>
    intro hne
    obtain ⟨l,hl,hlen,hfits⟩:=h hne
    exact ⟨l,hl.trans (hg.lead term),hlen,hfits⟩
  | _ => trivial

theorem SlotFits.mono (hg : Grows a a') (h : SlotFits name members a i s) : SlotFits name members a' i s :=
  ⟨h.bounded,h.settled,h.live,fun x hx hf m hm => (h.outbox x hx hf m hm).mono hg⟩

theorem live_slotFits (hl : Live Any name i members.toList d h)
    (hout : ∀ m∈h.node.outbox, Carried name members a m.2) : SlotFits name members a i ⟨d,some h⟩ := by
  refine ⟨hl.bounded,hl.restorable,?_,?_⟩
  · intro x hx _
    cases hx
    exact hl
  · intro x hx _
    cases hx
    exact hout

theorem SlotFits.down (h : SlotFits name members a i s) : SlotFits name members a i {s with host:=none} :=
  ⟨h.bounded,h.settled,noSome,noSome⟩

theorem Live.whole (hl : Live Any name i members.toList d h) (hi : i∈members) :
    Normal h.saved ∧ h.saved.cluster=name ∧ membersOf h.saved=members := by
  have hid : h.saved.id=i := by
    rw [hl.saved]
    exact hl.node.name
  have hpeers : h.saved.peers=normalizePeers i members.toList := by
    rw [hl.saved]
    exact hl.node.members
  refine ⟨⟨by rw [hpeers]; exact nodup_normalizePeers _ _,?_⟩,by rw [hl.saved]; rfl,?_⟩
  · rw [hid,hpeers,mem_normalizePeers]
    simp
  · ext x
    rw [membersOf,hid,hpeers,Finset.mem_insert,List.mem_toFinset,mem_normalizePeers,Finset.mem_toList]
    by_cases hx : x=i
    · simp [hx,hi]
    · simp [hx]

theorem Live.fits (hl : Live Any name i members.toList d h) (hi : i∈members) : Fits name members h.node.log := by
  obtain ⟨hnormal,hcluster,hmembers⟩:=hl.whole hi
  have hroomy:=hl.node.roomy
  have hlen:=hnormal.reserved_length h.node.log []
  rw [hcluster,hmembers,List.append_nil,hl.saved] at hlen
  exact ⟨hroomy.count,hlen ▸ hroomy.room⟩

theorem getElem?_take_drop {l : List LogEntry} {prev k : ℕ} {entries : List LogEntry}
    (h : entries=(l.drop prev).take entries.length) (hk : k<entries.length) : l[prev+k]? = entries[k]? := by
  rw [h,List.getElem?_take_of_lt (by simpa using hk),List.getElem?_drop]

theorem backed_carried (hs : Sound members a) {n : RaftNode} (hn : NodeOk members a i n)
    (hfits : Fits name members n.log) {m : NodeId × RaftRpc} (hm : m∈n.outbox)
    (hb : Backed (snapshot n name) m.1 m.2) : Carried name members a m.2 := by
  have hmsg:=hn.outbox m hm
  obtain ⟨dest,rpc⟩:=m
  cases rpc with
  | appendEntries term leader prev prevTerm entries commit =>
    intro hne
    obtain ⟨-,-,hlen,hent,-⟩:=hmsg
    obtain ⟨-,-,hlen',hent',-⟩:=hb
    have hpos : 0<entries.length := List.length_pos_iff.mpr hne
    have hlast : entries[entries.length-1]? = some entries[entries.length-1] := List.getElem?_eq_getElem (by omega)
    have h1:=(getElem?_take_drop hent (by omega)).trans hlast
    have h2:=(getElem?_take_drop hent' (by omega)).trans hlast
    have htraced : Traced LogEntry.term a n.log := hn.log ▸ hs.log_traced i
    have hsame:=(hs.lead_traced term).matching htraced h1 h2 rfl
    have hindex : prev+(entries.length-1)+1=prev+entries.length := by omega
    rw [hindex] at hsame
    refine ⟨(a.lead term).take (prev+entries.length),List.take_prefix _ _,?_,?_⟩
    · rw [List.length_take]
      omega
    · rw [hsame]
      exact hfits.prefix (List.take_prefix _ _)
  | _ => trivial

theorem called_slotFits {α : Type} (hs : Sound members a') (hg : Grows a a') (hi : i∈members)
    (hfits : SlotFits name members a i ⟨d,some h⟩) (hlive : Live Any name i members.toList d h) {budget : ℕ}
    {o : Outcome α} (hserved : Served Any name i members.toList d h budget o)
    (hslot : SlotOk .bounded name members a' low i ⟨o.disk,some o.host⟩) :
    SlotFits name members a' i ⟨o.disk,some o.host⟩ := by
  have hout:=hfits.outbox h rfl hlive.healthy
  cases hserved with
  | refused e he => exact hfits.mono hg
  | moved inp n' value o hin hmoves hsane hspoken hfin =>
    cases hfin with
    | done d' hlive' =>
      refine live_slotFits hlive' ?_
      intro m hm
      have hn:=((hslot.host _ rfl).live rfl).1
      rcases hspoken m hm with hold | hnew
      · exact (hout m hold).mono hg
      · exact backed_carried hs hn (hlive'.fits hi) hm hnew
    | stopped d' hbudget hbounded hsettled =>
      refine ⟨hbounded,hsettled.imp ?_,?_,?_⟩
      · rintro x (rfl | rfl)
        · refine ⟨some h.saved,trivial,rfl,?_⟩
          intro t ht
          exact ⟨h.node,hlive.node,(Option.some.inj ht).symm.trans hlive.saved⟩
        · refine ⟨some (snapshot n' name),trivial,rfl,?_⟩
          intro t ht
          exact ⟨n',hsane,(Option.some.inj ht).symm⟩
      · intro x hx hf
        cases hx
        contradiction
      · intro x hx hf
        cases hx
        contradiction

theorem call_slotFits {α : Type} (hinv : Inv .bounded name members a lows c) (hcap : Admitted name members a c)
    (hhost : (c.slot i).host=some h) {r : Except Panic (Outcome α)} (budget : ℕ)
    (hfenced : h.failed=true → ∃ e, r=.ok (h.refused (c.slot i).disk e))
    (hserved : Live Any name i members.toList (c.slot i).disk h →
      ∃ o, r=.ok o ∧ Served Any name i members.toList (c.slot i).disk h budget o)
    (hg : Grows a a') (hinv' : Inv .bounded name members a' lows (c.set i ((c.slot i).after r))) :
    SlotFits name members a' i ((c.slot i).after r) := by
  have hi:=hinv.member hhost
  have hfits : SlotFits name members a i ⟨(c.slot i).disk,some h⟩ := by
    rw [← hhost]
    exact hcap.slots i hi
  by_cases hf : h.failed=true
  · obtain ⟨e,rfl⟩:=hfenced hf
    exact hfits.mono hg
  · have hf' : h.failed=false := by simpa using hf
    have hlive:=hfits.live h rfl hf'
    obtain ⟨o,rfl,hs⟩:=hserved hlive
    have hslot:=hinv'.slots i hi
    simp only [Cluster.set,Function.update_self] at hslot
    exact called_slotFits hinv'.sound hg hi hfits hlive hs hslot

theorem set_admitted (hg : Grows a a') (hcap : Admitted name members a c) (hslot : i∈members → SlotFits name members a' i s) :
    Admitted name members a' (c.set i s) := by
  refine ⟨?_,fun m hm => ⟨(hcap.sent m hm).1,(hcap.sent m hm).2.mono hg⟩⟩
  intro j hj
  by_cases hij : j=i
  · subst hij
    simpa [Cluster.set] using hslot hj
  · simp only [Cluster.set,Function.update_of_ne hij]
    exact (hcap.slots j hj).mono hg

theorem openValidated_cases (clock : Clock) (id : NodeId) (peers : List NodeId)
    (validateCommand : Bytes → Except String Unit) (budget : ℕ) (d : Disk RaftFile) :
    (∃ e, DurableRaft.openValidated .bounded clock name id peers validateCommand budget d=(d,.error e)) ∨
    DurableRaft.openValidated .bounded clock name id peers validateCommand budget d =
      DurableRaft.openHost name id peers clock budget d ∧ ValidConfig name id peers := by
  unfold DurableRaft.openHost DurableRaft.openValidated
  by_cases hvalid : validId name=false ∨ validId id=false ∨ peers.length>255 ∨ ∃ p∈peers, validId p=false
  · exact .inl ⟨_,if_pos hvalid⟩
  · rw [if_neg hvalid,if_neg hvalid]
    dsimp only
    have hconfig:=validConfig_iff.mpr hvalid
    cases hread : d.read .state with
    | none => exact .inr ⟨rfl,hconfig⟩
    | some bytes =>
      dsimp only
      cases haccept : accept .bounded name (RaftNode.new clock id peers) validateCommand bytes with
      | error e => exact .inl ⟨e,rfl⟩
      | ok saved =>
        have hall : accept .bounded name (RaftNode.new clock id peers) (fun _ => .ok ()) bytes=.ok saved := by
          unfold accept at haccept ⊢
          obtain ⟨loaded,hload,haccept⟩:=bind_eq_ok.mp haccept
          rw [hload]
          simp only [bind,Except.bind] at haccept ⊢
          split at haccept
          · contradiction
          · rename_i hsame
            rw [if_neg hsame]
            cases hval : loaded.validate with
            | error e =>
              rw [hval] at haccept
              contradiction
            | ok u =>
              rw [hval] at haccept
              dsimp only at haccept ⊢
              have hnone : validateCommands (fun _ => .ok ()) loaded.log=.ok () :=
                @validateCommands_good Any _ (fun _ _ => rfl) _ fun _ _ => trivial
              cases hcommands : validateCommands validateCommand loaded.log with
              | error e =>
                rw [hcommands] at haccept
                contradiction
              | ok u' =>
                rw [hcommands] at haccept
                rw [hnone]
                exact haccept
        rw [hall]
        exact .inr ⟨rfl,hconfig⟩

theorem opened_slotFits (hfits : SlotFits name members a i s) (clock : Clock) {peers : List NodeId}
    (hpeers : ∀ x, x≠i → (x∈peers ↔ x∈members)) (validateCommand : Bytes → Except String Unit) (budget : ℕ) :
    SlotFits name members a i
      (.opened (DurableRaft.openValidated .bounded clock name i peers validateCommand budget s.disk)) := by
  have hsame : normalizePeers i members.toList=normalizePeers i peers :=
    normalizePeers_congr fun x hx => by rw [Finset.mem_toList,hpeers x hx]
  rcases @openValidated_cases name clock i peers validateCommand budget s.disk with ⟨e,heq⟩ | ⟨heq,hconfig⟩
  · rw [heq]
    exact ⟨hfits.bounded,hfits.settled,noSome,noSome⟩
  · rw [heq]
    have hopened:=@open_opened Any _ _ _ _ _ hconfig hfits.bounded
      (hfits.settled.imp fun o ho => ho.config hsame) (fun _ => .ok ()) (fun _ _ => rfl) clock budget
    change Opened Any name i peers _ clock budget s.disk (DurableRaft.openHost name i peers clock budget s.disk) at hopened
    generalize DurableRaft.openHost name i peers clock budget s.disk=r at hopened
    cases hopened with
    | recovered d' saved hallowed hlive => exact live_slotFits (hlive.config hsame.symm) nofun
    | created d' hallowed hlive => exact live_slotFits (hlive.config hsame.symm) nofun
    | incomplete hallowed hread hnext => exact ⟨hfits.bounded,hfits.settled,noSome,noSome⟩
    | stopped d' hread hbudget hbounded hsettled =>
      exact ⟨hbounded,hsettled.imp fun o ho => ho.config hsame.symm,noSome,noSome⟩
    | halfway d' r hread hnext hallowed hbudget hpub hbounded hsettled =>
      exact ⟨hbounded,hsettled.imp fun o ho => ho.config hsame.symm,noSome,noSome⟩

theorem outbox_admitted (hcap : Admitted name members a c) (hi : i∈members) (hhost : (c.slot i).host=some h)
    {msgs : List (NodeId × RaftRpc)} (hout : h.outbox.1=.ok msgs) :
    Admitted name members a {c.set i {c.slot i with host:=some h.outbox.2} with
      sent := c.sent++msgs.map fun m => (i,m.1,m.2)} := by
  have hf : h.failed=false := by
    by_contra hf
    rw [DurableRaft.outbox,if_pos (by simpa using hf)] at hout
    contradiction
  have hfits:=hcap.slots i hi
  have hlive:=hfits.live h hhost hf
  obtain ⟨heq,hlive',-,hnone⟩:=outbox_live hlive
  rw [heq] at hout
  cases hout
  have hset : Admitted name members a (c.set i {c.slot i with host:=some h.outbox.2}) :=
    set_admitted (Grows.refl a) hcap fun _ => live_slotFits hlive' (by rw [hnone]; simp)
  refine ⟨hset.slots,?_⟩
  intro m hm
  rcases List.mem_append.mp hm with hm | hm
  · exact hcap.sent m hm
  · obtain ⟨x,hx,rfl⟩:=List.mem_map.mp hm
    have hsend:=hlive.node.fit.outbox x hx
    rw [hlive.node.name] at hsend
    exact ⟨hsend,hfits.outbox h hhost hf x hx⟩

theorem committed_admitted (hcap : Admitted name members a c) (hi : i∈members) (hhost : (c.slot i).host=some h)
    {entries : List LogEntry} (hout : h.committed.1=.ok entries) :
    Admitted name members a {c.set i {c.slot i with host:=some h.committed.2} with
      handed := c.handed++entries.map fun e => (i,e)} := by
  have hf : h.failed=false := by
    by_contra hf
    rw [DurableRaft.committed,if_pos (by simpa using hf)] at hout
    contradiction
  have hfits:=hcap.slots i hi
  obtain ⟨-,hlive',-,hkept⟩:=committed_live (hfits.live h hhost hf)
  have hset : Admitted name members a (c.set i {c.slot i with host:=some h.committed.2}) :=
    set_admitted (Grows.refl a) hcap fun _ => live_slotFits hlive' (by rw [hkept]; exact hfits.outbox h hhost hf)
  exact ⟨hset.slots,hset.sent⟩

theorem step_admitted (hinv : Inv .bounded name members a lows c) (hcap : Admitted name members a c)
    (hstep : Step .bounded name members c c') (hg : Grows a a') (hinv' : Inv .bounded name members a' lows c') :
    Admitted name members a' c' := by
  cases hstep with
  | opened i clock peers validateCommand budget hi hpeers hdown =>
    exact set_admitted hg hcap fun _ => opened_slotFits ((hcap.slots i hi).mono hg) clock hpeers validateCommand budget
  | tick i h clock budget hhost =>
    refine set_admitted hg hcap fun _ => call_slotFits hinv hcap hhost budget ?_ ?_ hg hinv'
    · exact fun hf => ⟨.closed,if_pos hf⟩
    · exact fun hlive => tick_served hlive clock budget
  | propose i h cmd budget hhost =>
    refine set_admitted hg hcap fun _ => call_slotFits hinv hcap hhost budget ?_ ?_ hg hinv'
    · exact fun hf => ⟨.closed,if_pos hf⟩
    · exact fun hlive => propose_served hlive trivial budget
  | step i h clock src rpc budget hhost hsent =>
    refine set_admitted hg hcap fun _ => call_slotFits hinv hcap hhost budget ?_ ?_ hg hinv'
    · exact fun hf => ⟨.closed,if_pos hf⟩
    · exact fun hlive => step_served hlive clock src (hcap.sent _ hsent).1.range (fun _ _ => trivial) budget
  | outbox i h msgs hhost hout =>
    have hnext:=outbox_admitted hcap (hinv.member hhost) hhost hout
    exact ⟨fun j hj => (hnext.slots j hj).mono hg,fun m hm => ⟨(hnext.sent m hm).1,(hnext.sent m hm).2.mono hg⟩⟩
  | committed i h entries hhost hout =>
    have hnext:=committed_admitted hcap (hinv.member hhost) hhost hout
    exact ⟨fun j hj => (hnext.slots j hj).mono hg,fun m hm => ⟨(hnext.sent m hm).1,(hnext.sent m hm).2.mono hg⟩⟩
  | exit i => exact set_admitted hg hcap fun hi => ((hcap.slots i hi).mono hg).down
  | crash i kept cut =>
    refine set_admitted hg hcap fun hi => ?_
    have hs:=hcap.slots i hi
    exact ⟨hs.bounded.crash kept cut,hs.settled.crash kept cut,noSome,noSome⟩

theorem start_admitted : Admitted name members ReplicatedLog.init Cluster.start := by
  refine ⟨fun i _ => ⟨Disk.empty_bounded,?_,noSome,noSome⟩,nofun⟩
  exact Disk.empty_settled ⟨none,trivial,rfl,noSome⟩

theorem reachable_admitted (hr : Reachable .bounded name members c) :
    ∃ a, Inv .bounded name members a (fun _ => 0) c ∧ Admitted name members a c := by
  induction hr with
  | refl => exact ⟨_,cluster_start_inv,start_admitted⟩
  | tail _ hstep ih =>
    obtain ⟨a,hinv,hcap⟩:=ih
    obtain ⟨a',hg,hinv'⟩:=step_inv hstep hinv
    exact ⟨a',hinv',step_admitted hinv hcap hstep hg hinv'⟩

variable {l entries : List LogEntry}

theorem slice_fits {n : RaftNode} {prev : ℕ} {plan : ℕ × ℕ} (hl : Traced LogEntry.term a l)
    (hn : Traced LogEntry.term a n.log) (hfl : Fits name members l) (hfn : Fits name members n.log)
    (hprev : prev≤l.length) (hent : entries=(l.drop prev).take entries.length) (hindex : ∀ k e, entries[k]? = some e →
    e.index=prev+k+1) (hplan : n.appendPlan prev (termAt l prev) entries=some plan) :
    Fits name members (n.log.take plan.1++entries.drop plan.2) := by
  obtain ⟨hlen,hterm,-⟩:=appendPlan_spec hindex hplan
  have htake : n.log.take prev=l.take prev := by
    refine take_of_termAt hn hl hlen hprev ?_
    by_cases h0 : prev=0
    · rw [h0]
      rfl
    · simp [termAt,h0,hterm h0]
  have hbatch : n.log.take prev++entries=l.take (prev+entries.length) := by
    rw [htake,List.take_add,← hent]
  rw [applied_log hindex hplan,hbatch]
  split
  · exact hfn
  · exact hfl.prefix (List.take_prefix _ _)

theorem slice_admitted (hlive : Live Any name i members.toList d h) (hi : i∈members) {prev prevTerm term commit : ℕ}
    {src leader : NodeId} (hl : Traced LogEntry.term a l) (hn : Traced LogEntry.term a h.node.log)
    (hfl : Fits name members l) (hprev : prev≤l.length) (hent : entries=(l.drop prev).take entries.length)
    (hterm : prevTerm=termAt l prev) (hindex : ∀ k e, entries[k]? = some e → e.index=prev+k+1) :
    DurableRaft.overflows .bounded h src (.appendEntries term leader prev prevTerm entries commit)=false := by
  obtain ⟨hnormal,hcluster,hmembers⟩:=hlive.whole hi
  subst hterm
  simp only [DurableRaft.overflows]
  split
  · cases hplan : h.node.appendPlan prev (termAt l prev) entries with
    | none => rfl
    | some plan =>
      have hroom : DurableRaft.checkLogCapacity .bounded h (h.node.log.take plan.1) (entries.drop plan.2)=true := by
        rw [checkLogCapacity_iff h hnormal,hcluster,hmembers]
        exact slice_fits hl hn hfl (hlive.fits hi) hprev hent hindex hplan
      simp [hroom]
  · rfl

theorem commands_length (l : List LogEntry) :
    (l.map fun e => e.cmd.length).sum≤(entryCodec.list.encode l).length := by
  have hsum : (l.map fun e => e.cmd.length).sum≤(l.map fun e => (entryCodec.encode e).length).sum := by
    induction l with
    | nil => simp
    | cons e l ih =>
      have:=entry_length e
      simp only [List.map_cons,List.sum_cons]
      omega
  have:=entries_length l
  omega

theorem slice_small (hfits : Fits name members l) (hsub : entries <:+: l)
    (hcmd : ∀ e∈l, e.cmd.length ≤ maxCommand) {term prev prevTerm commit : ℕ} {leader : NodeId} :
    DurableRaft.oversized (.appendEntries term leader prev prevTerm entries commit)=false := by
  have hcount:=hsub.length_le.trans hfits.1
  have hsum : (entries.map fun e => e.cmd.length).sum≤(l.map fun e => e.cmd.length).sum := by
    obtain ⟨s,t,rfl⟩:=hsub
    simp only [List.map_append,List.sum_append]
    omega
  have hlog:=commands_length l
  have hsize:=hfits.2
  unfold logSize at hsize
  simp only [DurableRaft.oversized,Bool.or_eq_false_iff,decide_eq_false_iff_not,List.any_eq_false,decide_eq_true_eq]
  refine ⟨⟨by omega,?_⟩,by omega⟩
  intro e he
  have:=hcmd e (hsub.subset he)
  omega

theorem commands_bytes (l : List LogEntry) : (l.map fun e => e.cmd.length).sum≤batchBytes l := by
  induction l with
  | nil => simp
  | cons e l ih =>
    simp only [batchBytes,List.map_cons,List.sum_cons] at ih ⊢
    omega

theorem sendable_small {good : Bytes → Prop} {src : NodeId} (h : Sendable good src rpc) :
    DurableRaft.oversized rpc=false := by
  cases rpc with
  | appendEntries term leader prev prevTerm entries commit =>
    have hfew : entries.length≤1024 := h.few
    have hsmall : batchBytes entries≤3*1024*1024 := h.small
    have hsum:=commands_bytes entries
    have hcount : maxEntries=65536 := rfl
    have hlimit : maxSnapshot=16*1024*1024 := rfl
    simp only [DurableRaft.oversized,Bool.or_eq_false_iff,decide_eq_false_iff_not,List.any_eq_false,
      decide_eq_true_eq]
    refine ⟨⟨by omega,?_⟩,by omega⟩
    intro e he
    have:=(h.commands e he).1
    omega
  | _ => rfl

/-- The message was taken in: no error but that of a disk which gives out. -/
def Taken (budget : ℕ) (r : Except Panic (Outcome Unit)) : Prop :=
  ∃ o, r=.ok o ∧ (o.result=.ok () ∨ o.result=.error .storage ∧ budget<ample)

theorem step_taken (hlive : Live Any name i members.toList d h) (clock : Clock) (src : NodeId)
    (hrange : rpc.InRange) (hshape : rpc.validateShape=.ok ()) (hsize : DurableRaft.oversized rpc=false)
    (hcap : DurableRaft.overflows .bounded h src rpc=false) (budget : ℕ) :
    Taken budget (h.step .bounded clock src rpc budget d) := by
  obtain ⟨n',o,ho,hfin,-⟩:=step_finished hlive clock src hrange (fun _ _ => trivial) hshape hsize hcap budget
  refine ⟨o,ho,?_⟩
  cases hfin with
  | done d' hlive' => exact .inl rfl
  | stopped d' hbudget hbounded hsettled => exact .inr ⟨rfl,hbudget⟩

section
variable (hinv : Inv .bounded name members a lows c)
include hinv

theorem sent_taken (hcap : Admitted name members a c) {src : NodeId} (hsent : (src,i,rpc)∈c.sent) (hhost : (c.slot i).host=some h) (hf : h.failed=false)
    (clock : Clock) (budget : ℕ) : Taken budget (h.step .bounded clock src rpc budget (c.slot i).disk) := by
  have hi:=hinv.member hhost
  have hlive:=(hcap.slots i hi).live h hhost hf
  have hn:=(((hinv.slot hhost).host h rfl).live hf).1
  obtain ⟨hsend,hcarried⟩:=hcap.sent _ hsent
  have hmsg:=hinv.sent _ hsent
  refine step_taken hlive clock src hsend.range hsend.shape (sendable_small hsend) ?_ budget
  cases rpc with
  | appendEntries term leader prev prevTerm entries commit =>
    by_cases hne : entries=[]
    · subst hne
      simp only [DurableRaft.overflows]
      split
      · cases h.node.appendPlan prev prevTerm [] <;> simp
      · rfl
    · obtain ⟨l,hpre,hlen,hfits⟩:=hcarried hne
      obtain ⟨-,-,hlead,hent,hterm,-⟩:=hmsg
      have htraced:=hinv.sound.lead_traced term
      have hprev : prev≤l.length := by omega
      have hentl : entries=(l.drop prev).take entries.length := by
        obtain ⟨r,hr⟩:=hpre
        rw [← hr,List.drop_append_of_le_length hprev,
          List.take_append_of_le_length (by rw [List.length_drop]; omega)] at hent
        exact hent
      have hval:=(validateShape_append hsend.shape).2
      exact slice_admitted hlive hi (htraced.shorter hpre) (hn.log ▸ hinv.sound.log_traced i) hfits hprev hentl
        (hterm.trans (termAt_mono hpre hprev)) fun k e he => (validateEntries_get hval k e he).1
  | _ => rfl

theorem leader_taken (hcap : Admitted name members a c)
    {x : DurableRaft} (hx : (c.slot j).host=some x) (hrole : x.role=.leader)
    (hhost : (c.slot i).host=some h) (hf : h.failed=false) {prev commit : ℕ} {entries : List LogEntry}
    (hlen : prev+entries.length≤x.log.length) (hent : entries=(x.log.drop prev).take entries.length)
    (hcommit : commit≤x.log.length) (clock : Clock) (budget : ℕ) :
    Taken budget (h.step .bounded clock j
      (.appendEntries x.currentTerm j prev (termAt x.log prev) entries commit) budget (c.slot i).disk) := by
  have hi:=hinv.member hhost
  have hj:=hinv.member hx
  have hxf : x.failed=false := by
    by_contra hxf
    rw [DurableRaft.role,if_pos (by simpa using hxf)] at hrole
    contradiction
  have hxrole : x.node.role=.leader := by rwa [DurableRaft.role,if_neg (by simp [hxf])] at hrole
  have hlive:=(hcap.slots i hi).live h hhost hf
  have hxlive:=(hcap.slots j hj).live x hx hxf
  have hn:=(((hinv.slot hhost).host h rfl).live hf).1
  have hxn:=(((hinv.slot hx).host x rfl).live hxf).1
  have hlog : x.log=x.node.log := by rw [DurableRaft.log,hxlive.saved]; rfl
  have hterm : x.currentTerm=x.node.currentTerm := by rw [DurableRaft.currentTerm,hxlive.saved]; rfl
  rw [hlog] at hlen hent hcommit ⊢
  rw [hterm]
  have hactive:=hxlive.node.fit.wf.active (by rw [hxrole]; simp)
  obtain ⟨hshape,hrange⟩:=slice_shape hxlive.node.fit hactive hlen hent hcommit
  rw [hxlive.node.name] at hshape hrange
  have hsub : entries <:+: x.node.log := by
    rw [hent]
    exact (List.take_prefix _ _).isInfix.trans (List.drop_suffix _ _).isInfix
  refine step_taken hlive clock j hrange hshape
    (slice_small (hxlive.fits hj) hsub fun e he => (hxlive.node.fit.commands e he).1) ?_ budget
  exact slice_admitted hlive hi (hxn.log ▸ hinv.sound.log_traced j) (hn.log ▸ hinv.sound.log_traced i)
    (hxlive.fits hj) (by omega) hent rfl (validated_index (validateShape_append hshape).2)

theorem Inv.whole (hhost : (c.slot i).host=some h) :
    Normal h.saved ∧ h.saved.cluster=name ∧ membersOf h.saved=members := by
  obtain ⟨n,hn,hsaved⟩:=((hinv.slot hhost).host h rfl).saved
  rw [hsaved]
  refine ⟨⟨hn.nodup,?_⟩,rfl,?_⟩
  · change n.id∉n.peers
    rw [hn.peers,hn.id]
    simp
  · ext x
    simp only [membersOf,snapshot,Finset.mem_insert,List.mem_toFinset,hn.peers,hn.id]
    by_cases hx : x=i
    · simp [hx,hn.member]
    · simp [hx]

end

theorem capacity_shared (hr : Reachable .bounded name members c) :
    (∀ i h, (c.slot i).host=some h → ∀ kept added,
      40+(SnapshotCodec.bounded.encode (DurableRaft.reserved h.saved kept added)).length =
        logSize name members (kept++added) ∧
      (DurableRaft.checkLogCapacity .bounded h kept added=true ↔ Fits name members (kept++added))) ∧
    (∀ i h, (c.slot i).host=some h → h.failed=false → Fits name members h.log) ∧
    (∀ i j x h, (c.slot j).host=some x → x.role=.leader → (c.slot i).host=some h → h.failed=false →
      ∀ prev entries commit, prev+entries.length≤x.log.length →
      entries=(x.log.drop prev).take entries.length → commit≤x.log.length → ∀ clock budget,
      Taken budget (h.step .bounded clock j
        (.appendEntries x.currentTerm j prev (termAt x.log prev) entries commit) budget (c.slot i).disk)) ∧
    ∀ src i rpc h, (src,i,rpc)∈c.sent → (c.slot i).host=some h → h.failed=false → ∀ clock budget,
      Taken budget (h.step .bounded clock src rpc budget (c.slot i).disk) := by
  obtain ⟨a,hinv,hcap⟩:=reachable_admitted hr
  refine ⟨?_,?_,?_,?_⟩
  · intro i h hhost kept added
    obtain ⟨hnormal,hcluster,hmembers⟩:=hinv.whole hhost
    have hlen:=hnormal.reserved_length kept added
    rw [hcluster,hmembers] at hlen
    refine ⟨hlen,?_⟩
    rw [checkLogCapacity_iff h hnormal,hcluster,hmembers]
  · intro i h hhost hf
    have hi:=hinv.member hhost
    have hlive:=(hcap.slots i hi).live h hhost hf
    have hlog : h.log=h.node.log := by rw [DurableRaft.log,hlive.saved]; rfl
    rw [hlog]
    exact hlive.fits hi
  · intro i j x h hx hrole hhost hf prev entries commit hlen hent hcommit clock budget
    exact leader_taken hinv hcap hx hrole hhost hf hlen hent hcommit clock budget
  · intro src i rpc h hsent hhost hf clock budget
    exact sent_taken hinv hcap hsent hhost hf clock budget

end cluster

/- A member that was just opened, on a directory of its own. -/
theorem capacity_shared_solo : ∃ c h, Reachable .bounded "c" {"a"} c ∧ (c.slot "a").host=some h ∧
    h.failed=false ∧ (∀ kept added, DurableRaft.checkLogCapacity .bounded h kept added=true ↔
      Fits "c" {"a"} (kept++added)) ∧ Fits "c" {"a"} h.log := by
  have hstep : Step .bounded "c" {"a"} _ _ := .opened Cluster.start "a" ⟨fun _ => 0,1,1,1⟩ [] (fun _ => .ok ()) ample
    (Finset.mem_singleton_self "a") (by intro x hx; simp [hx]) rfl
  have hopened:=openHost_opened config_solo start_fine ⟨fun _ => 0,1,1,1⟩ ample
  change Opened Any "c" "a" [] _ _ ample _ (DurableRaft.openValidated .bounded ⟨fun _ => 0,1,1,1⟩ "c" "a" []
    (fun _ => .ok ()) ample (Cluster.start.slot "a").disk) at hopened
  generalize DurableRaft.openValidated .bounded ⟨fun _ => 0,1,1,1⟩ "c" "a" [] (fun _ => .ok ()) ample
    (Cluster.start.slot "a").disk=r at hstep hopened
  have hall : ∀ d h, Slot.opened r=⟨d,some h⟩ → h.failed=false → ∃ c h, Reachable .bounded "c" {"a"} c ∧
      (c.slot "a").host=some h ∧ h.failed=false ∧
      (∀ kept added, DurableRaft.checkLogCapacity .bounded h kept added=true ↔ Fits "c" {"a"} (kept++added)) ∧
      Fits "c" {"a"} h.log := by
    intro d h hr hf
    rw [hr] at hstep
    have hhost : ((Cluster.start.set "a" ⟨d,some h⟩).slot "a").host=some h :=
      congrArg Slot.host (Cluster.slot_set Cluster.start "a" ⟨d,some h⟩)
    obtain ⟨h1,h2,-⟩:=capacity_shared (Relation.ReflTransGen.single hstep)
    exact ⟨_,h,.single hstep,hhost,hf,fun kept added => (h1 "a" h hhost kept added).2,h2 "a" h hhost hf⟩
  cases hopened with
  | recovered d s hallowed hlive => exact hall d _ rfl rfl
  | created d hallowed hlive => exact hall d _ rfl rfl
  | incomplete hallowed hread hnext => contradiction
  | stopped d hread hbudget hbounded hsettled => exact absurd hbudget (Nat.lt_irrefl _)
  | halfway d r hread hnext hallowed hbudget hpub hbounded hsettled => exact absurd hbudget (Nat.lt_irrefl _)

end Parrot.Raft
