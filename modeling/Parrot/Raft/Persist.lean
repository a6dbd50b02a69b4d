import Parrot.Raft.Host

/-! # A durable host persists before it speaks

The life of one directory: hosts are opened on it, called, fail, exit or crash, in any order. -/

namespace Parrot.Raft
open Machine CrashFs

inductive Call where
  | tick (clock : Clock)
  | step (clock : Clock) (sender : NodeId) (rpc : RaftRpc)
  | propose (cmd : Bytes)

def Call.InRange : Call → Prop
  | .step _ _ rpc => rpc.InRange
  | _ => True

def Outcome.forget {α : Type} (o : Outcome α) : Outcome Unit := ⟨o.disk,o.host,o.result.map fun _ => ()⟩

def DurableRaft.serve (h : DurableRaft) (budget : ℕ) (d : Disk RaftFile) : Call → Except Panic (Outcome Unit)
  | .tick clock => h.tick .bounded clock budget d
  | .step clock sender rpc => h.step .bounded clock sender rpc budget d
  | .propose cmd => (h.propose .bounded cmd budget d).map Outcome.forget

structure Life where
  disk : Disk RaftFile
  host : Option DurableRaft
  published : List Saved
  interrupted : Option Saved
  sent : List (NodeId × RaftRpc)
  handed : List LogEntry

namespace Life

def start : Life := ⟨.empty,none,[],none,[],[]⟩

/-- An open that failed may have published the first snapshot, or begun to. -/
def failedOpen (l : Life) (d' : Disk RaftFile) (first : Saved) (budget : ℕ) : Life :=
  if l.disk.read .state=none ∧ l.disk.read .next=none then
    match (publish .bounded budget first l.disk).2 with
    | .ok _ => {l with disk:=d',published:=first::l.published,interrupted:=none}
    | .error _ => {l with disk:=d',interrupted:=some first}
  else {l with disk:=d'}

/-- After a call: the host's `saved` is what was published last. -/
def called (l : Life) (cluster : String) (o : Outcome Unit) : Life :=
  {l with
    disk := o.disk
    host := some o.host
    published := o.host.saved::l.published
    interrupted := if o.host.failed then some (snapshot o.host.node cluster) else none}

end Life

section config
variable (cluster : String) (id : NodeId) (peers : List NodeId)

/-- `DurableRaft::open`, which accepts every command. -/
def DurableRaft.openHost (clock : Clock) (budget : ℕ) (d : Disk RaftFile) :
    Disk RaftFile × Except RaftStorageError DurableRaft :=
  openValidated .bounded clock cluster id peers (fun _ => .ok ()) budget d

inductive Lives : Life → Life → Prop where
  | opened (l : Life) (clock : Clock) (budget : ℕ) (d' : Disk RaftFile) (h : DurableRaft) (hdown : l.host=none)
      (hopen : DurableRaft.openHost cluster id peers clock budget l.disk=(d',.ok h)) :
      Lives l {l with disk:=d',host:=some h,published:=h.saved::l.published,interrupted:=none}
  | failedOpen (l : Life) (clock : Clock) (budget : ℕ) (d' : Disk RaftFile) (e : RaftStorageError)
      (hdown : l.host=none)
      (hopen : DurableRaft.openHost cluster id peers clock budget l.disk=(d',.error e)) :
      Lives l (l.failedOpen d' (snapshot (RaftNode.new clock id peers) cluster) budget)
  | called (l : Life) (h : DurableRaft) (call : Call) (budget : ℕ) (o : Outcome Unit) (hhost : l.host=some h)
      (hrange : call.InRange) (hcall : h.serve budget l.disk call=.ok o) : Lives l (l.called cluster o)
  | aborted (l : Life) (h : DurableRaft) (call : Call) (budget : ℕ) (p : Panic) (hhost : l.host=some h)
      (hrange : call.InRange) (hcall : h.serve budget l.disk call=.error p) : Lives l {l with host:=none}
  | outbox (l : Life) (h : DurableRaft) (msgs : List (NodeId × RaftRpc)) (hhost : l.host=some h)
      (hout : h.outbox.1=.ok msgs) : Lives l {l with host:=some h.outbox.2,sent:=l.sent++msgs}
  | committed (l : Life) (h : DurableRaft) (entries : List LogEntry) (hhost : l.host=some h)
      (hout : h.committed.1=.ok entries) :
      Lives l {l with host:=some h.committed.2,handed:=l.handed++entries}
  | exit (l : Life) : Lives l {l with host:=none}
  | crash (l : Life) (kept : ℕ) (cut : ℕ → ℕ) : Lives l {l with disk:=l.disk.crash kept cut,host:=none}

abbrev Lived (l : Life) : Prop := Relation.ReflTransGen (Lives cluster id peers) Life.start l

def Life.Allowed (l : Life) (x : Option Saved) : Prop :=
  x=l.published.head? ∨ (∃ s, x=some s ∧ l.interrupted=some s)

def firstSaved : Saved := ⟨1,cluster,id,normalizePeers id peers,0,none,[],0⟩

abbrev Any : Bytes → Prop := fun _ => True

structure HostFine (l : Life) (h : DurableRaft) : Prop where
  last : l.published.head? = some h.saved
  live : h.failed=false → Live Any cluster id peers l.disk h ∧ l.interrupted=none ∧
    ∀ m∈h.node.outbox, ∃ s∈l.published, Backed s m.1 m.2
  fenced : h.failed=true → l.interrupted=some (snapshot h.node cluster)

structure LifeFine (l : Life) : Prop where
  bounded : l.disk.Bounded
  settled : l.disk.Settled .state (Restorable Any cluster id peers l.Allowed)
  untouched : l.published=[] → l.interrupted=none → l.disk.durable=[] ∧ l.disk.pending=[]
  first : l.published=[] → ∀ s, l.interrupted=some s → s=firstSaved cluster id peers
  host : ∀ h, l.host=some h → HostFine cluster id peers l h
  sent : ∀ m∈l.sent, ∃ s∈l.published, Backed s m.1 m.2
  handed : ∀ e∈l.handed, ∃ s∈l.published, e∈s.log.take s.commit

variable {cluster id peers} {l l' : Life} {h : DurableRaft}

theorem start_fine : LifeFine cluster id peers Life.start where
  bounded := Disk.empty_bounded
  settled := Disk.empty_settled ⟨none,.inl rfl,rfl,noSome⟩
  untouched := fun _ _ => ⟨rfl,rfl⟩
  first := nofun
  host := noSome
  sent := nofun
  handed := nofun

theorem older {P : Saved → Prop} {published : List Saved} (s : Saved) (h : ∃ t∈published, P t) :
    ∃ t∈s::published, P t := by
  obtain ⟨t,ht,hp⟩:=h
  exact ⟨t,List.mem_cons_of_mem s ht,hp⟩

theorem LifeFine.down (hl : LifeFine cluster id peers l) : LifeFine cluster id peers {l with host:=none} :=
  ⟨hl.bounded,hl.settled,hl.untouched,hl.first,noSome,hl.sent,hl.handed⟩

theorem live_fine {d : Disk RaftFile} {published : List Saved} {sent : List (NodeId × RaftRpc)}
    {handed : List LogEntry} (hlive : Live Any cluster id peers d h)
    (hout : ∀ m∈h.node.outbox, ∃ s∈h.saved::published, Backed s m.1 m.2)
    (hsent : ∀ m∈sent, ∃ s∈published, Backed s m.1 m.2)
    (hhanded : ∀ e∈handed, ∃ s∈published, e∈s.log.take s.commit) :
    LifeFine cluster id peers ⟨d,some h,h.saved::published,none,sent,handed⟩ where
  bounded := hlive.bounded
  settled := hlive.settled.imp fun o ho => ⟨some h.saved,.inl rfl,ho,fun s hs =>
    ⟨h.node,hlive.node,(Option.some.inj hs).symm.trans hlive.saved⟩⟩
  untouched := nofun
  first := nofun
  host := by
    intro x hx
    cases hx
    refine ⟨rfl,fun _ => ⟨hlive,rfl,hout⟩,?_⟩
    intro hf
    rw [hlive.healthy] at hf
    contradiction
  sent := fun m hm => older _ (hsent m hm)
  handed := fun e he => older _ (hhanded e he)

variable {good : Bytes → Prop} {d : Disk RaftFile} {budget : ℕ}

theorem Served.forget {α : Type} {o : Outcome α} (hs : Served good cluster id peers d h budget o) :
    Served good cluster id peers d h budget o.forget := by
  cases hs with
  | refused e he => exact .refused e he
  | moved inp n' value o hin hmoves hsane hspoken hfin =>
    refine .moved inp n' () _ hin hmoves hsane hspoken ?_
    cases hfin with
    | done d' hlive => exact .done d' hlive
    | stopped d' hbudget hbounded hsettled => exact .stopped d' hbudget hbounded hsettled

theorem serve_served (hl : Live Any cluster id peers d h) {call : Call} (hrange : call.InRange) (budget : ℕ) :
    ∃ o, h.serve budget d call=.ok o ∧ Served Any cluster id peers d h budget o := by
  cases call with
  | tick clock => exact tick_served hl clock budget
  | step clock sender rpc => exact step_served hl clock sender hrange (fun _ _ => trivial) budget
  | propose cmd =>
    have hany : Any cmd := trivial
    obtain ⟨o,ho,hs⟩:=propose_served hl hany budget
    refine ⟨o.forget,?_,hs.forget⟩
    change (h.propose .bounded cmd budget d).map Outcome.forget=_
    rw [ho]
    rfl

theorem serve_fenced (hf : h.failed=true) (call : Call) (budget : ℕ) (d : Disk RaftFile) :
    h.serve budget d call=.ok ⟨d,h,.error .closed⟩ := by
  cases call with
  | tick | step => exact if_pos hf
  | propose cmd =>
    have hp : h.propose .bounded cmd budget d=.ok (h.refused d .closed) := if_pos hf
    change (h.propose .bounded cmd budget d).map Outcome.forget=_
    rw [hp]
    rfl

section
variable (hl : LifeFine cluster id peers l)
include hl

section
variable (hhost : l.host=some h)
include hhost

theorem called_fine {call : Call} (hrange : call.InRange) {o : Outcome Unit}
    (hcall : h.serve budget l.disk call=.ok o) : LifeFine cluster id peers (l.called cluster o) := by
  have hfine:=hl.host h hhost
  obtain ⟨rest,hpub⟩ : ∃ rest, l.published=h.saved::rest := by
    cases hp : l.published with
    | nil =>
      have:=hfine.last
      rw [hp] at this
      contradiction
    | cons s rest =>
      have:=hfine.last
      rw [hp] at this
      cases this
      exact ⟨rest,rfl⟩
  have hsent:=hl.sent
  have hhanded:=hl.handed
  by_cases hf : h.failed=true
  · -- a fenced host refuses: its last snapshot and the interrupted one are as before
    rw [serve_fenced hf] at hcall
    cases hcall
    have hint:=hfine.fenced hf
    have heq : l.called cluster ⟨l.disk,h,.error .closed⟩ =
        {l with host:=some h,published:=h.saved::l.published} := by
      simp only [Life.called,hf,if_true,← hint]
    rw [heq]
    refine ⟨hl.bounded,hl.settled.imp ?_,nofun,nofun,?_,fun m hm => older _ (hsent m hm),
      fun e he => older _ (hhanded e he)⟩
    · rintro x ⟨y,hy,hx⟩
      refine ⟨y,hy.imp_left fun he => ?_,hx⟩
      rw [he,hpub]
      rfl
    · intro x hx
      cases hx
      refine ⟨rfl,?_,fun _ => hint⟩
      intro hlive
      rw [hf] at hlive
      contradiction
  · have hf' : h.failed=false := by simpa using hf
    obtain ⟨hlive,hint,hout⟩:=hfine.live hf'
    obtain ⟨o',ho',hs⟩:=serve_served hlive hrange budget
    obtain rfl:=Except.ok.inj (ho'.symm.trans hcall)
    cases hs with
    | refused e he =>
      have heq : l.called cluster (h.refused l.disk e) =
          ⟨l.disk,some h,h.saved::l.published,none,l.sent,l.handed⟩ := by
        simp [Life.called,DurableRaft.refused,hf']
      rw [heq]
      exact live_fine hlive (fun m hm => older _ (hout m hm)) hsent hhanded
    | moved inp n' value o hin hmoves hsane hspoken hfin =>
      cases hfin with
      | done d' hlive' =>
        have heq : l.called cluster ⟨d',⟨n',snapshot n' cluster,false⟩,.ok value⟩ =
            ⟨d',some ⟨n',snapshot n' cluster,false⟩,snapshot n' cluster::l.published,none,l.sent,l.handed⟩ := by
          simp [Life.called]
        rw [heq]
        refine live_fine hlive' ?_ hsent hhanded
        intro m hm
        rcases hspoken m hm with hm | hb
        · exact older _ (hout m hm)
        · exact ⟨_,List.mem_cons_self,hb⟩
      | stopped d' hbudget hbounded hsettled =>
        refine ⟨hbounded,hsettled.imp ?_,fun hp => absurd hp (List.cons_ne_nil _ _),
        fun hp => absurd hp (List.cons_ne_nil _ _),?_,fun m hm => older _ (hsent m hm),
          fun e he => older _ (hhanded e he)⟩
        · rintro x (rfl | rfl)
          · refine ⟨some h.saved,.inl rfl,rfl,?_⟩
            intro s hs
            exact ⟨h.node,hlive.node,(Option.some.inj hs).symm.trans hlive.saved⟩
          · refine ⟨some (snapshot n' cluster),.inr ⟨_,rfl,rfl⟩,rfl,?_⟩
            intro s hs
            exact ⟨n',hsane,(Option.some.inj hs).symm⟩
        · intro x hx
          cases hx
          exact ⟨rfl,nofun,fun _ => rfl⟩

theorem LifeFine.saved : h.saved∈l.published :=
  List.mem_of_mem_head? ((hl.host h hhost).last ▸ rfl)

theorem outbox_fine {msgs : List (NodeId × RaftRpc)}
    (hout : h.outbox.1=.ok msgs) :
    LifeFine cluster id peers {l with host:=some h.outbox.2,sent:=l.sent++msgs} := by
  have hfine:=hl.host h hhost
  have hf : h.failed=false := by
    by_contra hf
    rw [DurableRaft.outbox,if_pos (by simpa using hf)] at hout
    contradiction
  obtain ⟨hlive,hint,hbacked⟩:=hfine.live hf
  obtain ⟨heq,hlive',hsaved,hnone⟩:=outbox_live hlive
  rw [heq] at hout
  cases hout
  refine {hl with host:=?_,sent:=?_}
  · intro x hx
    cases hx
    refine ⟨by rw [hsaved]; exact hfine.last,fun _ => ⟨hlive',hint,by rw [hnone]; nofun⟩,?_⟩
    intro hx
    rw [hlive'.healthy] at hx
    contradiction
  · intro m hm
    rcases List.mem_append.mp hm with hm | hm
    · exact hl.sent m hm
    · exact hbacked m hm

theorem committed_fine {entries : List LogEntry}
    (hout : h.committed.1=.ok entries) :
    LifeFine cluster id peers {l with host:=some h.committed.2,handed:=l.handed++entries} := by
  have hfine:=hl.host h hhost
  have hf : h.failed=false := by
    by_contra hf
    rw [DurableRaft.committed,if_pos (by simpa using hf)] at hout
    contradiction
  obtain ⟨hlive,hint,hbacked⟩:=hfine.live hf
  obtain ⟨heq,hlive',hsaved,hkept⟩:=committed_live hlive
  rw [heq] at hout
  cases hout
  refine {hl with host:=?_,handed:=?_}
  · intro x hx
    cases hx
    refine ⟨by rw [hsaved]; exact hfine.last,fun _ => ⟨hlive',hint,by rw [hkept]; exact hbacked⟩,?_⟩
    intro hx
    rw [hlive'.healthy] at hx
    contradiction
  · intro e he
    rcases List.mem_append.mp he with he | he
    · exact hl.handed e he
    · -- what is pending is the end of the committed log, which is in the snapshot
      obtain ⟨handed,hpub⟩:=hlive.pending
      refine ⟨h.saved,hl.saved hhost,?_⟩
      rw [hlive.saved]
      change e∈h.node.log.take h.node.commitIndex
      rw [← hpub]
      exact List.mem_append_right _ he

end

end

theorem openHost_opened (hc : ValidConfig cluster id peers) (hl : LifeFine cluster id peers l) (clock : Clock)
    (budget : ℕ) : Opened Any cluster id peers l.Allowed clock budget l.disk
      (DurableRaft.openHost cluster id peers clock budget l.disk) :=
  open_opened hc hl.bounded hl.settled (fun _ _ => rfl) clock budget

theorem allowed_none (h : l.Allowed none) : l.published=[] := by
  rcases h with h | ⟨s,hs,-⟩
  · exact List.head?_eq_none_iff.mp h.symm
  · contradiction

section
variable (hc : ValidConfig cluster id peers)
include hc

theorem opened_fine (hl : LifeFine cluster id peers l) {clock : Clock}
    {d' : Disk RaftFile} (hopen : DurableRaft.openHost cluster id peers clock budget l.disk=(d',.ok h)) :
    LifeFine cluster id peers
      {l with disk:=d',host:=some h,published:=h.saved::l.published,interrupted:=none} := by
  have hopened:=openHost_opened hc hl clock budget
  rw [hopen] at hopened
  have hsent:=hl.sent
  have hhanded:=hl.handed
  cases hopened with
  | recovered _ s hallowed hlive => exact live_fine hlive nofun hsent hhanded
  | created _ hallowed hlive => exact live_fine hlive nofun hsent hhanded

theorem failedOpen_fine (hl : LifeFine cluster id peers l) (hdown : l.host=none) {clock : Clock} {d' : Disk RaftFile}
    {e : RaftStorageError} (hopen : DurableRaft.openHost cluster id peers clock budget l.disk=(d',.error e)) :
    LifeFine cluster id peers (l.failedOpen d' (snapshot (RaftNode.new clock id peers) cluster) budget) := by
  have hopened:=openHost_opened hc hl clock budget
  rw [hopen] at hopened
  cases hopened with
  | incomplete hallowed hread hnext =>
    have heq : l.failedOpen l.disk (snapshot (RaftNode.new clock id peers) cluster) budget=l := by
      unfold Life.failedOpen
      rw [if_neg]
      rintro ⟨-,hnone⟩
      rw [hnone] at hnext
      contradiction
    rw [heq]
    exact hl
  | stopped _ hread hbudget hbounded hsettled =>
    have heq : l.failedOpen d' (snapshot (RaftNode.new clock id peers) cluster) budget={l with disk:=d'} := by
      unfold Life.failedOpen
      rw [if_neg]
      rintro ⟨hnone,-⟩
      rw [hnone] at hread
      contradiction
    rw [heq]
    -- something is stored, so something was published or begun
    have hsome : ¬ (l.published=[] ∧ l.interrupted=none) := by
      rintro ⟨hp,hi⟩
      obtain ⟨hdur,hpend⟩:=hl.untouched hp hi
      simp [Disk.read,Disk.file,Disk.dir,hdur,hpend] at hread
    refine ⟨hbounded,hsettled,fun hp hi => absurd ⟨hp,hi⟩ hsome,hl.first,?_,hl.sent,hl.handed⟩
    intro h hh
    rw [hdown] at hh
    contradiction
  | halfway _ r hread hnext hallowed hbudget hpub hbounded hsettled =>
    have hnone : l.disk.read .next=none := by
      rwa [Option.isSome_eq_false_iff,Option.isNone_iff_eq_none] at hnext
    have hempty:=allowed_none hallowed
    cases r with
    | ok left =>
      have heq : l.failedOpen d' (snapshot (RaftNode.new clock id peers) cluster) budget={l with
          disk := d'
          published := snapshot (RaftNode.new clock id peers) cluster::l.published
          interrupted := none} := by
        unfold Life.failedOpen
        rw [if_pos ⟨hread,hnone⟩,hpub]
      rw [heq]
      refine ⟨hbounded,hsettled.imp ?_,fun hp => absurd hp (List.cons_ne_nil _ _),
        fun hp => absurd hp (List.cons_ne_nil _ _),?_,fun m hm => older _ (hl.sent m hm),
        fun e he => older _ (hl.handed e he)⟩
      · rintro o ⟨x,rfl | ⟨⟨e,he⟩,-⟩,hx⟩
        · exact ⟨_,.inl rfl,hx⟩
        · contradiction
      · intro h hh
        rw [hdown] at hh
        contradiction
    | error e =>
      have heq : l.failedOpen d' (snapshot (RaftNode.new clock id peers) cluster) budget={l with
          disk := d'
          interrupted := some (snapshot (RaftNode.new clock id peers) cluster)} := by
        unfold Life.failedOpen
        rw [if_pos ⟨hread,hnone⟩,hpub]
      rw [heq]
      refine ⟨hbounded,hsettled.imp ?_,?_,?_,?_,hl.sent,hl.handed⟩
      · rintro o ⟨x,hx,ho,hsane⟩
        refine ⟨x,?_,ho,hsane⟩
        rcases hx with rfl | ⟨-,hx | ⟨s,rfl,hs⟩⟩
        · exact .inr ⟨_,rfl,rfl⟩
        · exact .inl hx
        · -- an earlier attempt wrote the same first snapshot
          refine .inr ⟨s,rfl,?_⟩
          rw [hl.first hempty s hs]
          rfl
      · intro _ hi
        contradiction
      · intro _ s hs
        exact (Option.some.inj hs).symm
      · intro h hh
        rw [hdown] at hh
        contradiction

theorem lives_fine (hstep : Lives cluster id peers l l')
    (hl : LifeFine cluster id peers l) : LifeFine cluster id peers l' := by
  cases hstep with
  | opened clock budget d' h hdown hopen => exact opened_fine hc hl hopen
  | failedOpen clock budget d' e hdown hopen => exact failedOpen_fine hc hl hdown hopen
  | called h call budget o hhost hrange hcall => exact called_fine hl hhost hrange hcall
  | aborted | exit => exact hl.down
  | outbox h msgs hhost hout => exact outbox_fine hl hhost hout
  | committed h entries hhost hout => exact committed_fine hl hhost hout
  | crash kept cut =>
    refine ⟨hl.bounded.crash kept cut,hl.settled.crash kept cut,?_,hl.first,noSome,hl.sent,hl.handed⟩
    intro hp hi
    obtain ⟨hdur,hpend⟩:=hl.untouched hp hi
    simp [Disk.crash,Disk.view,hdur,hpend]

theorem lived_fine (hr : Lived cluster id peers l) : LifeFine cluster id peers l := by
  induction hr with
  | refl => exact start_fine
  | tail _ hstep ih => exact lives_fine hc hstep ih

end

/-- The host came back with exactly the persistent state `s`. -/
structure Restored (h : DurableRaft) (s : Saved) : Prop where
  saved : h.saved=s
  term : h.node.currentTerm=s.term
  vote : h.node.votedFor=s.vote
  log : h.node.log=s.log
  commit : h.node.commitIndex=s.commit

/-- The outcomes of opening the directory of `l`, and when each is possible. -/
inductive Reopened (cluster : String) (id : NodeId) (peers : List NodeId) (l : Life) (budget : ℕ) :
    Disk RaftFile × Except RaftStorageError DurableRaft → Prop where
  | restored (d : Disk RaftFile) (h : DurableRaft) (s : Saved) (hrestored : Restored h s)
      (hfrom : l.published.head? = some s ∨ l.interrupted=some s ∨
        l.published=[] ∧ l.interrupted=none ∧ s=firstSaved cluster id peers) :
      Reopened cluster id peers l budget (d,.ok h)
  | refused (hpublished : l.published=[]) (hinterrupted : l.interrupted=some (firstSaved cluster id peers)) :
      Reopened cluster id peers l budget (l.disk,.error (.invalid "incomplete initial snapshot; refusing reset"))
  | ioError (d : Disk RaftFile) (hbudget : budget<ample) : Reopened cluster id peers l budget (d,.error .storage)

end config

theorem config_solo : ValidConfig "c" "a" [] := ⟨by decide,by decide,by decide,nofun⟩

/-- Calls of an open host whose file operations all succeed. -/
inductive Serves : Disk RaftFile × DurableRaft → Disk RaftFile × DurableRaft → Prop where
  | call (d : Disk RaftFile) (h : DurableRaft) (call : Call) (budget : ℕ) (o : Outcome Unit) (hrange : call.InRange)
      (hbudget : ample≤budget) (hcall : h.serve budget d call=.ok o) : Serves (d,h) (o.disk,o.host)
  | outbox (d : Disk RaftFile) (h : DurableRaft) : Serves (d,h) (d,h.outbox.2)
  | committed (d : Disk RaftFile) (h : DurableRaft) : Serves (d,h) (d,h.committed.2)

section config
variable {cluster : String} {id : NodeId} {peers : List NodeId} {l : Life} {d d' : Disk RaftFile} {h h' : DurableRaft}

theorem served_live {budget : ℕ} {o : Outcome Unit} (hl : Live Any cluster id peers d h) (hbudget : ample≤budget)
    (hs : Served Any cluster id peers d h budget o) : Live Any cluster id peers o.disk o.host := by
  cases hs with
  | refused e he => exact hl
  | moved inp n' value o hin hmoves hsane hspoken hfin =>
    cases hfin with
    | done d' hlive => exact hlive
    | stopped d' hshort hbounded hsettled => exact absurd hshort (Nat.not_lt.mpr hbudget)

theorem served_sane {budget : ℕ} {o : Outcome Unit} (hl : Live Any cluster id peers d h)
    (hs : Served Any cluster id peers d h budget o) : (snapshot o.host.node cluster).validate=.ok () ∧
    40+(SnapshotCodec.bounded.encode (snapshot o.host.node cluster)).length ≤ maxSnapshot ∧ ∀ e, o.result=.error e →
    e ≠ .storage → o.disk=d ∧ o.host=h := by
  cases hs with
  | refused e he =>
    exact ⟨snapshot_valid hl.node.fit hl.node.roomy,snapshot_length hl.node.fit hl.node.roomy,fun _ _ _ => ⟨rfl,rfl⟩⟩
  | moved inp n' value o hin hmoves hsane hspoken hfin =>
    have hvalid:=snapshot_valid hsane.fit hsane.roomy
    have hlength:=snapshot_length hsane.fit hsane.roomy
    cases hfin with
    | done d' hlive => exact ⟨hvalid,hlength,nofun⟩
    | stopped d' hshort hbounded hsettled =>
      refine ⟨hvalid,hlength,?_⟩
      intro e he hne
      exact absurd (Except.error.inj he).symm hne

theorem serves_live (hrun : Relation.ReflTransGen Serves (d,h) (d',h')) (hl : Live Any cluster id peers d h) :
    Live Any cluster id peers d' h' := by
  have hall : ∀ x, Relation.ReflTransGen Serves (d,h) x → Live Any cluster id peers x.1 x.2 := by
    intro x hx
    induction hx with
    | refl => exact hl
    | tail _ hstep ih =>
      cases hstep with
      | call d h call budget o hrange hbudget hcall =>
        obtain ⟨o',ho',hs⟩:=serve_served ih hrange budget
        obtain rfl:=Except.ok.inj (ho'.symm.trans hcall)
        exact served_live ih hbudget hs
      | outbox d h => exact (outbox_live ih).2.1
      | committed d h => exact (committed_live ih).2.1
  exact hall _ hrun

theorem peer_cannot_fence (hc : ValidConfig cluster id peers) (hr : Lived cluster id peers l) {clock : Clock}
    {budget : ℕ} (hopen : DurableRaft.openHost cluster id peers clock budget l.disk=(d,.ok h))
    (hrun : Relation.ReflTransGen Serves (d,h) (d',h')) : h'.failed=false ∧ ∀ call : Call, call.InRange → ∀ budget,
    ∃ o, h'.serve budget d' call=.ok o ∧ (ample≤budget → o.host.failed=false) ∧
    (snapshot o.host.node cluster).validate=.ok () ∧
    40+(SnapshotCodec.bounded.encode (snapshot o.host.node cluster)).length ≤ maxSnapshot ∧ ∀ e, o.result=.error e →
    e ≠ .storage → o.disk=d' ∧ o.host=h' := by
  have hlive : Live Any cluster id peers d h := by
    have hopened:=openHost_opened hc (lived_fine hc hr) clock budget
    rw [hopen] at hopened
    cases hopened with
    | recovered _ s hallowed hlive => exact hlive
    | created _ hallowed hlive => exact hlive
  have hlive':=serves_live hrun hlive
  refine ⟨hlive'.healthy,?_⟩
  intro call hrange budget
  obtain ⟨o,ho,hs⟩:=serve_served hlive' hrange budget
  exact ⟨o,ho,fun hbudget => (served_live hlive' hbudget hs).healthy,served_sane hlive' hs⟩

end config

theorem peer_cannot_fence_new : ∃ d h, DurableRaft.openHost "c" "a" [] ⟨fun _ => 0,1,1,1⟩ ample Life.start.disk =
    (d,.ok h) ∧ ∀ rpc : RaftRpc, rpc.InRange → ∃ o, h.serve ample d (.step ⟨fun _ => 0,1,1,1⟩ "b" rpc)=.ok o ∧
      o.host.failed=false := by
  have hopened:=openHost_opened config_solo start_fine ⟨fun _ => 0,1,1,1⟩ ample
  generalize hx : DurableRaft.openHost "c" "a" [] ⟨fun _ => 0,1,1,1⟩ ample Life.start.disk=x at hopened ⊢
  have hserve : ∀ {d h}, x=(d,.ok h) → ∀ rpc : RaftRpc, rpc.InRange →
      ∃ o, h.serve ample d (.step ⟨fun _ => 0,1,1,1⟩ "b" rpc)=.ok o ∧ o.host.failed=false := by
    intro d h hdh rpc hrange
    obtain ⟨-,hall⟩:=peer_cannot_fence config_solo .refl (hx.trans hdh) .refl
    obtain ⟨o,ho,hf,-⟩:=hall (.step ⟨fun _ => 0,1,1,1⟩ "b" rpc) hrange ample
    exact ⟨o,ho,hf (le_rfl)⟩
  cases hopened with
  | recovered d s hallowed hlive => exact ⟨d,_,rfl,hserve rfl⟩
  | created d hallowed hlive => exact ⟨d,_,rfl,hserve rfl⟩
  | incomplete hallowed hread hnext => contradiction
  | stopped d hread hbudget hbounded hsettled => exact absurd hbudget (Nat.lt_irrefl _)
  | halfway d r hread hnext hallowed hbudget hpub hbounded hsettled => exact absurd hbudget (Nat.lt_irrefl _)

end Parrot.Raft
