import Parrot.Inbox.Durable
import Parrot.Outbox.Accepted

/-! # Durable delivery

One outbox stream and the inbox of its receiver. -/

namespace Parrot.Delivery
open Machine Wal
open Bincode (Bytes)
open CrashFs (Disk)
open SegmentLog (Fresh start)
open Outbox (Worker Move Content Command BoundIdentity Assigned content)
open Inbox (DurableEnvelope InboxCodec InboxLimits InboxFile Saved Store StreamKey Transition Verdict)

structure Config where
  env : WalEnv
  walLimits : WalLimits
  segmentMax : ℕ
  identity : BoundIdentity
  codec : InboxCodec
  inboxLimits : InboxLimits
  transition : Transition
  initial : Bytes

/-- Both sides, and what happened so far: the requests that were sent, those that were
completed, the contents that a ready outbox has in its log and the sequences that
`enqueue` returned. -/
structure Sys where
  log : Disk ℕ
  worker : Option Worker
  snapshots : Disk InboxFile
  store : Option Store
  requests : List DurableEnvelope
  completions : List DurableEnvelope
  accepted : List (ℕ × Content)
  replied : List (ℕ × Command)

def Sys.initial : Sys := ⟨Disk.empty,none,Disk.empty,none,[],[],[],[]⟩

def assignments : Option Worker → List (ℕ × Content)
  | some ⟨wal,_,.ready⟩ => wal.pending.map fun p => (p.record.seq,content p.record)
  | _ => []

namespace Config
variable (c : Config)

/-- A record is acknowledged when the request that carries it was completed. -/
def Confirmed (s : Sys) (worker : Worker) : Move → Prop
  | .ack _ _ => ∃ p, worker.wal.pending.head? = some p ∧ c.identity.envelope p.record∈s.completions
  | _ => True

def openStore (budget : ℕ) (s : Sys) : Disk InboxFile × Except Inbox.InboxError Store :=
  Store.open c.codec c.inboxLimits c.identity.receiver c.identity.path c.initial budget s.snapshots

def deliver (budget : ℕ) (s : Sys) (store : Store) (e : DurableEnvelope) : Inbox.Outcome :=
  store.apply c.codec c.inboxLimits c.transition budget e s.snapshots

inductive Step : Sys → Sys → Prop where
  | openOutbox {s : Sys} {plan : Plan Unit} {budget left : ℕ} {d' : Disk ℕ} {worker : Option Worker}
    (hworker : s.worker=none) (hopen : openWithLimits c.env c.walLimits c.segmentMax s.log=.ok plan)
    (hrun : s.log.exec budget plan.effects=(d',some left))
    (hbind : worker=(Outbox.bindAndRecover c.identity plan.wal).toOption.map fun status =>
      ⟨plan.wal,status,.ready⟩) :
    Step s {s with log:=d',worker:=worker,accepted:=s.accepted++assignments worker}
  | crashOpening {s : Sys} {plan : Plan Unit} {budget kept : ℕ} {cut : ℕ → ℕ} (hworker : s.worker=none)
    (hopen : openWithLimits c.env c.walLimits c.segmentMax s.log=.ok plan) :
    Step s {s with log:=(s.log.exec budget plan.effects).1.crash kept cut}
  | work {s : Sys} {worker : Worker} {m : Move} {o : Outbox.Outcome} {budget left : ℕ} {d' : Disk ℕ}
    (hworker : s.worker=some worker)
    (ho : m.outcome c.env c.walLimits c.segmentMax c.identity s.log worker=some o)
    (hconfirmed : c.Confirmed s worker m) (hrun : s.log.exec budget o.effects=(d',some left)) :
    Step s {s with
      log := d'
      worker := o.worker
      accepted := s.accepted++assignments o.worker
      replied := s.replied++o.replies}
  | crash {s : Sys} {worker : Worker} {m : Move} {o : Outbox.Outcome} {budget kept : ℕ} {cut : ℕ → ℕ}
    (hworker : s.worker=some worker)
    (ho : m.outcome c.env c.walLimits c.segmentMax c.identity s.log worker=some o)
    (hconfirmed : c.Confirmed s worker m) :
    Step s {s with log:=(s.log.exec budget o.effects).1.crash kept cut,worker:=none}
  | send {s : Sys} {worker : Worker} {p : PendingRecord} (hworker : s.worker=some worker)
    (hphase : worker.phase=.ready) (hp : worker.wal.pending.head? = some p) :
    Step s {s with requests:=s.requests++[c.identity.envelope p.record]}
  | openInbox {s : Sys} {budget : ℕ} (hstore : s.store=none) :
    Step s {s with snapshots:=(c.openStore budget s).1,store:=(c.openStore budget s).2.toOption}
  | deliver {s : Sys} {store : Store} {e : DurableEnvelope} {budget : ℕ} (hstore : s.store=some store)
    (he : e∈s.requests) :
    Step s {s with
      snapshots := (c.deliver budget s store e).disk
      store := if (c.deliver budget s store e).store.failed then none else some (c.deliver budget s store e).store
      completions := s.completions++if (c.deliver budget s store e).result.toBool then [e] else []}
  | closeInbox {s : Sys} : Step s {s with store:=none}
  | crashInbox {s : Sys} {kept : ℕ} {cut : ℕ → ℕ} :
    Step s {s with snapshots:=s.snapshots.crash kept cut,store:=none}

abbrev Run (s : Sys) : Prop := Relation.ReflTransGen c.Step Sys.initial s

def streamKey : StreamKey := toLex (c.identity.source,c.identity.sender)

/-- The deliveries of these contents in order, from sequence one. -/
def deliveries (cs : List Content) : List DurableEnvelope :=
  (c.identity.records 0 cs).map c.identity.envelope

def folded (es : List DurableEnvelope) : Option Bytes :=
  es.foldlM (fun state e => (c.transition state e).state) c.initial

/-- What the inbox has in memory or finds on its disk. -/
def Snapshot (s : Sys) (saved : Saved) : Prop :=
  (∃ store, s.store=some store ∧ store.saved=saved) ∨
    ∃ bytes, s.snapshots.read .state=some bytes ∧ Inbox.load c.codec c.inboxLimits bytes=.ok saved

/-- The watermark that the outbox has in memory or finds on its disk. -/
def Acked (s : Sys) (n : ℕ) : Prop :=
  (∃ worker, s.worker=some worker ∧ worker.wal.acked.lookup c.identity.stream=some n) ∨
    s.worker=none ∧ ∃ plan, openWithLimits c.env c.walLimits c.segmentMax s.log=.ok plan ∧
      plan.wal.acked.lookup c.identity.stream=some n

structure ExactlyOnce (s : Sys) : Prop where
  state : ∀ saved, c.Snapshot s saved → ∃ cs, cs.length=saved.watermark c.streamKey ∧
    (∀ i x, cs[i]? = some x → (i+1,x)∈s.accepted) ∧ c.folded (c.deliveries cs)=some saved.state
  acked : ∀ n, c.Acked s n → (s.snapshots.read .state).isSome ∧
    ∀ saved, c.Snapshot s saved → n ≤ saved.watermark c.streamKey
  unique : ∀ n x y, (n,x)∈s.accepted → (n,y)∈s.accepted → x=y
  replied : ∀ n cmd, (n,cmd)∈s.replied → ∃ x, (n,x)∈s.accepted ∧ (cmd.requestId=none → x=cmd.content)
  assigned : ∀ worker p, s.worker=some worker → p∈worker.wal.pending →
    ∀ x, (p.record.seq,x)∈s.accepted → x=content p.record

structure Stands (acc : List Content) (top : ℕ) (saved : Saved) (w : ℕ) : Prop where
  node : saved.node=c.identity.receiver
  path : saved.path=c.identity.path
  streams : saved.streams=if w=0 then [] else [(c.streamKey,w)]
  le : w≤acc.length
  top_le : top≤w
  state : c.folded (c.deliveries (acc.take w))=some saved.state

def Good (acc : List Content) (top : ℕ) : Option Saved → Prop
  | none => top=0
  | some saved => ∃ w, c.Stands acc top saved w

def InboxInv (acc : List Content) (top : ℕ) (d : Disk InboxFile) : Option Store → Prop
  | none => Inbox.Keeps c.codec d (c.Good acc top)
  | some store => Inbox.Keeps c.codec d (· = some store.saved) ∧ ∃ w, c.Stands acc top store.saved w

structure Inv (s : Sys) (acc : List Content) (top : ℕ) : Prop where
  outbox : Outbox.OutboxInv c.env c.walLimits c.identity acc top s.log s.worker
  inbox : c.InboxInv acc top s.snapshots s.store
  top_le : top≤acc.length
  completions : ∀ e∈s.completions, e.sequence≤top
  requests : ∀ e∈s.requests, ∃ i x, acc[i]? = some x ∧ e=c.identity.envelope (c.identity.recordOf x (i+1))
  accepted : ∀ n x, (n,x)∈s.accepted ↔ ∃ i, n=i+1 ∧ acc[i]? = some x
  replied : ∀ x∈s.replied, Assigned acc x

variable {c} {s s' : Sys} {acc acc' : List Content} {top w : ℕ} {saved : Saved}

theorem deliveries_snoc (cs : List Content) (x : Content) : c.deliveries (cs++[x]) =
    c.deliveries cs++[c.identity.envelope (c.identity.recordOf x (cs.length+1))] := by
  simp only [deliveries,Outbox.records_append,List.map_append,Nat.zero_add]
  rfl

theorem Stands.watermark (h : c.Stands acc top saved w) : saved.watermark c.streamKey=w := by
  unfold Saved.watermark
  rw [h.streams]
  split
  · rename_i hzero
    exact hzero.symm
  · simp

theorem Stands.extend (h : c.Stands acc top saved w) (hgrow : acc<+:acc') : c.Stands acc' top saved w := by
  refine ⟨h.node,h.path,h.streams,h.le.trans hgrow.length_le,h.top_le,?_⟩
  obtain ⟨t,rfl⟩:=hgrow
  rw [List.take_append_of_le_length h.le]
  exact h.state

theorem Good.extend {o : Option Saved} (h : c.Good acc top o) (hgrow : acc<+:acc') : c.Good acc' top o := by
  cases o with
  | none => exact h
  | some saved =>
    obtain ⟨w,hstands⟩:=h
    exact ⟨w,hstands.extend hgrow⟩

variable {d : Disk InboxFile} {store : Option Store}

theorem InboxInv.extend (h : c.InboxInv acc top d store) (hgrow : acc<+:acc') : c.InboxInv acc' top d store := by
  cases store with
  | none => exact Inbox.Keeps.imp h fun _ ho => ho.extend hgrow
  | some store =>
    obtain ⟨hkeeps,w,hstands⟩:=h
    exact ⟨hkeeps,w,hstands.extend hgrow⟩

theorem Stands.advance {saved' : Saved} {e : DurableEnvelope} (h : c.Stands acc top saved w)
    (hadvances : Inbox.Advances c.transition saved e saved') {i : ℕ} {x : Content} (hx : acc[i]? = some x)
    (he : e=c.identity.envelope (c.identity.recordOf x (i+1))) : e.sequence=w+1 ∧ c.Stands acc top saved' (w+1) := by
  have hkey : e.key=c.streamKey := by rw [he]; rfl
  have hseq : e.sequence=w+1 := by
    rw [hadvances.sequence,hkey,h.watermark]
  have hi : i=w := by
    rw [he] at hseq
    exact Nat.succ.inj hseq
  rw [hi] at hx he
  obtain ⟨hlt,-⟩:=List.getElem?_eq_some_iff.mp hx
  have htake : acc.take (w+1)=acc.take w++[x] := by
    rw [List.take_add_one,hx]
    rfl
  refine ⟨hseq,⟨hadvances.node_eq.trans h.node,hadvances.path_eq.trans h.path,?_,hlt,
    h.top_le.trans (Nat.le_succ w),?_⟩⟩
  · rw [hadvances.streams,hkey,hseq,h.streams,if_neg (Nat.succ_ne_zero w)]
    split
    · rfl
    · simp [SortedMap.insert]
  · have hlen : (acc.take w).length=w := List.length_take_of_le h.le
    have hfold:=h.state
    unfold folded at hfold ⊢
    rw [htake,deliveries_snoc,List.foldlM_append,hfold,hlen,← he]
    simp [hadvances.transition,Verdict.state]

theorem initial_inv : c.Inv Sys.initial [] 0 where
  outbox := .inl ⟨⟨Disk.empty_named,Disk.empty_history⟩,rfl⟩
  inbox := Inbox.empty_keeps rfl
  top_le := le_rfl
  completions := fun e he => by contradiction
  requests := fun e he => by contradiction
  accepted := fun n x => by simp [Sys.initial]
  replied := fun x hx => by contradiction

theorem accepted_grows {accepted : List (ℕ × Content)} {v : Value} {a : ℕ}
    (haccepted : ∀ n x, (n,x)∈accepted ↔ ∃ i, n=i+1 ∧ acc[i]? = some x) (hgrow : acc<+:acc')
    (hspells : Outbox.Spells c.identity.toIdentity v acc' a) (ha : a≤acc.length) (n : ℕ) (x : Content) :
    (n,x)∈accepted++v.pending.map (fun p => (p.record.seq,content p.record)) ↔ ∃ i, n=i+1 ∧ acc'[i]? = some x := by
  rw [List.mem_append,haccepted]
  constructor
  · intro h
    rcases h with ⟨i,hn,hi⟩ | h
    · exact ⟨i,hn,Outbox.prefix_get hgrow hi⟩
    · obtain ⟨p,hp,heq⟩:=List.mem_map.mp h
      cases heq
      obtain ⟨i,hi,hrec⟩:=hspells.mem_pending hp
      exact ⟨i,by rw [hrec]; rfl,hi⟩
  · intro h
    obtain ⟨i,rfl,hi⟩:=h
    rcases Nat.lt_or_ge i acc.length with hlt | hge
    · obtain ⟨t,rfl⟩:=hgrow
      rw [List.getElem?_append_left hlt] at hi
      exact .inl ⟨i,rfl,hi⟩
    · obtain ⟨p,hp,hrec⟩:=hspells.pending_of hi (ha.trans hge)
      refine .inr (List.mem_map.mpr ⟨p,hp,?_⟩)
      rw [hrec]
      rfl

theorem accepted_assigned {d : Disk ℕ} {worker : Option Worker} {accepted : List (ℕ × Content)}
    (haccepted : ∀ n x, (n,x)∈accepted ↔ ∃ i, n=i+1 ∧ acc[i]? = some x) (hgrow : acc<+:acc')
    (hinv : Outbox.OutboxInv c.env c.walLimits c.identity acc' top d worker) (htop : top≤acc.length)
    (hready : acc'=acc ∨ ∃ worker', worker=some worker' ∧ worker'.phase=.ready) (n : ℕ) (x : Content) :
    (n,x)∈accepted++assignments worker ↔ ∃ i, n=i+1 ∧ acc'[i]? = some x := by
  have hidle : assignments worker=[] → (∀ worker', worker=some worker' → worker'.phase ≠ .ready) →
      ((n,x)∈accepted++assignments worker ↔ ∃ i, n=i+1 ∧ acc'[i]? = some x) := by
    intro hnil hbusy
    rcases hready with rfl | ⟨worker',hworker,hphase⟩
    · rw [hnil,List.append_nil]
      exact haccepted n x
    · exact absurd hphase (hbusy worker' hworker)
  cases worker with
  | none => exact hidle rfl fun _ h => by contradiction
  | some worker =>
    obtain ⟨wal,status,phase⟩:=worker
    cases phase with
    | ready =>
      obtain ⟨L,values,-,-,-,a,ha,hspells⟩:=hinv
      exact accepted_grows haccepted hgrow hspells (ha.trans htop) n x
    | group | acked =>
      refine hidle rfl fun worker' h hphase => ?_
      cases h
      contradiction

theorem Inv.moved (h : c.Inv s acc top) (hgrow : acc<+:acc') {d : Disk ℕ} {worker : Option Worker}
    {replied : List (ℕ × Command)} (hinv : Outbox.OutboxInv c.env c.walLimits c.identity acc' top d worker)
    (hready : acc'=acc ∨ ∃ worker', worker=some worker' ∧ worker'.phase=.ready)
    (hreplied : ∀ x∈replied, Assigned acc' x) :
    c.Inv {s with
      log := d
      worker := worker
      accepted := s.accepted++assignments worker
      replied := replied} acc' top where
  outbox := hinv
  inbox := h.inbox.extend hgrow
  top_le := h.top_le.trans hgrow.length_le
  completions := h.completions
  requests := by
    intro e he
    obtain ⟨i,x,hx,heq⟩:=h.requests e he
    exact ⟨i,x,Outbox.prefix_get hgrow hx,heq⟩
  accepted := accepted_assigned h.accepted hgrow hinv h.top_le hready
  replied := hreplied

theorem Inv.stopped (h : c.Inv s acc top) {d : Disk ℕ}
    (hdormant : Outbox.Dormant c.env c.walLimits c.identity.toIdentity acc top d) :
    c.Inv {s with log:=d,worker:=none} acc top :=
  ⟨hdormant,h.inbox,h.top_le,h.completions,h.requests,h.accepted,h.replied⟩

theorem open_inv (hlimits : c.walLimits.validate c.segmentMax=.ok ()) (h : c.Inv s acc top)
    (hworker : s.worker=none) {plan : Plan Unit} {budget left : ℕ} {d' : Disk ℕ}
    (hopen : openWithLimits c.env c.walLimits c.segmentMax s.log=.ok plan)
    (hrun : s.log.exec budget plan.effects=(d',some left)) {worker : Option Worker}
    (hbind : worker=(Outbox.bindAndRecover c.identity plan.wal).toOption.map fun status =>
      ⟨plan.wal,status,.ready⟩) :
    ∃ acc', c.Inv {s with log:=d',worker:=worker,accepted:=s.accepted++assignments worker} acc' top := by
  have hdormant:=h.outbox
  rw [hworker] at hdormant
  obtain ⟨L,htelling,hsynced⟩:=Outbox.open_telling hlimits hdormant hopen hrun
  cases hstatus : Outbox.bindAndRecover c.identity plan.wal with
  | error e =>
    rw [hstatus] at hbind
    subst hbind
    exact ⟨acc,h.moved (List.prefix_refl _) (htelling.dormant hsynced) (.inl rfl) h.replied⟩
  | ok status =>
    rw [hstatus] at hbind
    subst hbind
    obtain ⟨cs,a,hspells,hgrow,ha⟩:=htelling.fair _ (List.mem_singleton_self _)
    have htelling' : Outbox.Telling c.env c.walLimits c.identity.toIdentity cs top d' plan.wal L
        [plan.wal.value] := by
      refine ⟨htelling.up,htelling.within,?_⟩
      intro v hv
      obtain rfl:=List.mem_singleton.mp hv
      exact ⟨cs,a,hspells,List.prefix_refl _,ha⟩
    have hbusy : Outbox.Busy c.env c.walLimits c.identity cs top d' ⟨plan.wal,status,.ready⟩ :=
      ⟨L,_,htelling',Outbox.bindAndRecover_spells hspells hstatus,hsynced,a,ha,hspells⟩
    exact ⟨cs,h.moved hgrow hbusy (.inr ⟨_,rfl,rfl⟩) fun x hx => (h.replied x hx).mono hgrow⟩

variable {worker : Worker}

theorem Inv.confirmed (h : c.Inv s acc top) {m : Move} (hconfirmed : c.Confirmed s worker m) :
    ∀ acks receipts p, m=.ack acks receipts → worker.wal.pending.head? = some p → p.record.seq≤top := by
  intro acks receipts p hm hp
  subst hm
  obtain ⟨q,hq,hmem⟩:=hconfirmed
  obtain rfl:=Option.some.inj (hq.symm.trans hp)
  exact h.completions _ hmem

theorem work_inv (hlimits : c.walLimits.validate c.segmentMax=.ok ()) (h : c.Inv s acc top)
    (hworker : s.worker=some worker) {m : Move} {o : Outbox.Outcome}
    (ho : m.outcome c.env c.walLimits c.segmentMax c.identity s.log worker=some o)
    (hconfirmed : c.Confirmed s worker m) {budget left : ℕ} {d' : Disk ℕ}
    (hrun : s.log.exec budget o.effects=(d',some left)) :
    ∃ acc', c.Inv {s with
      log := d'
      worker := o.worker
      accepted := s.accepted++assignments o.worker
      replied := s.replied++o.replies} acc' top := by
  have hbusy:=h.outbox
  rw [hworker] at hbusy
  obtain ⟨acc',hgrow,hinv,hreplies,hready⟩:=Outbox.move_inv hlimits hbusy ho (h.confirmed hconfirmed) hrun
  refine ⟨acc',h.moved hgrow hinv hready ?_⟩
  intro x hx
  rcases List.mem_append.mp hx with hx | hx
  · exact (h.replied x hx).mono hgrow
  · exact hreplies x hx

theorem send_inv (h : c.Inv s acc top) (hworker : s.worker=some worker)
    (hphase : worker.phase=.ready) {p : PendingRecord} (hp : worker.wal.pending.head? = some p) :
    c.Inv {s with requests:=s.requests++[c.identity.envelope p.record]} acc top := by
  refine ⟨h.outbox,h.inbox,h.top_le,h.completions,?_,h.accepted,h.replied⟩
  intro e he
  rcases List.mem_append.mp he with he | he
  · exact h.requests e he
  · have hbusy:=h.outbox
    rw [hworker] at hbusy
    obtain ⟨L,values,-,-,hholds⟩:=hbusy
    rw [hphase] at hholds
    obtain ⟨-,a,-,hspells⟩:=hholds
    obtain ⟨i,hi,hrec⟩:=hspells.mem_pending (List.mem_of_head? hp)
    refine ⟨i,content p.record,hi,?_⟩
    rw [List.mem_singleton.mp he]
    exact congrArg c.identity.envelope hrec

theorem Good.of_stands {o : Option Saved} (heq : o=some saved) (h : c.Stands acc top saved w) : c.Good acc top o := by
  rw [heq]
  exact ⟨w,h⟩

theorem InboxInv.keeps (h : c.InboxInv acc top d store) : Inbox.Keeps c.codec d (c.Good acc top) := by
  cases store with
  | none => exact h
  | some store =>
    obtain ⟨hkeeps,w,hstands⟩:=h
    exact hkeeps.imp fun o heq => Good.of_stands heq hstands

theorem initial_stands (htop : top=0) :
    c.Stands acc top (Saved.initial c.identity.receiver c.identity.path c.initial) 0 :=
  ⟨rfl,rfl,rfl,Nat.zero_le _,htop.le,rfl⟩

theorem openStore_inv (h : c.Inv s acc top) (hstore : s.store=none) (budget : ℕ) :
    c.InboxInv acc top (c.openStore budget s).1 (c.openStore budget s).2.toOption := by
  have hinbox:=h.inbox
  rw [hstore] at hinbox
  obtain ⟨hkeeps,hopened⟩:=@Inbox.open_keeps c.codec c.inboxLimits s.snapshots (c.Good acc top)
    c.identity.receiver c.identity.path c.initial budget hinbox
  change Inbox.Keeps c.codec (c.openStore budget s).1 _ at hkeeps
  change ∀ store, (c.openStore budget s).2=.ok store →
    Inbox.Keeps c.codec (c.openStore budget s).1 (· = some store.saved) ∧ _ at hopened
  cases hresult : (c.openStore budget s).2 with
  | error e =>
    refine hkeeps.imp ?_
    intro o ho
    rcases ho with ho | ⟨htop,heq⟩
    · exact ho
    · exact Good.of_stands heq (initial_stands htop)
  | ok store =>
    obtain ⟨hkeeps',hsaved⟩:=hopened store hresult
    refine ⟨hkeeps',?_⟩
    rcases hsaved with hgood | ⟨htop,heq⟩
    · exact hgood
    · rw [heq]
      exact ⟨0,initial_stands htop⟩

theorem Inv.received (h : c.Inv s acc top) {top' : ℕ} (hle : top≤top') (hacc : top'≤acc.length) {completions : List DurableEnvelope}
    (hinbox : c.InboxInv acc top' d store) (hcompletions : ∀ e∈completions, e.sequence≤top') :
    c.Inv {s with snapshots:=d,store:=store,completions:=completions} acc top' :=
  ⟨h.outbox.mono hle,hinbox,hacc,hcompletions,h.requests,h.accepted,h.replied⟩

theorem Stands.raise (h : c.Stands acc top saved w) {n : ℕ} (hn : n≤w) : c.Stands acc (max top n) saved w :=
  ⟨h.node,h.path,h.streams,h.le,Nat.max_le.mpr ⟨h.top_le,hn⟩,h.state⟩

theorem InboxInv.of_stands {store : Store} (hkeeps : Inbox.Keeps c.codec d (· = some store.saved))
    (h : c.Stands acc top store.saved w) : c.InboxInv acc top d (if store.failed then none else some store) := by
  split
  · exact hkeeps.imp fun o heq => Good.of_stands heq h
  · exact ⟨hkeeps,w,h⟩

theorem completed_le {completions : List DurableEnvelope} (h : ∀ e∈completions, e.sequence≤top)
    (e : DurableEnvelope) : ∀ x∈completions++[e], x.sequence ≤ max top e.sequence := by
  intro x hx
  rcases List.mem_append.mp hx with hx | hx
  · exact (h x hx).trans (Nat.le_max_left ..)
  · rw [List.mem_singleton.mp hx]
    exact Nat.le_max_right ..

theorem deliver_inv (h : c.Inv s acc top) {store : Store} (hstore : s.store=some store)
    {e : DurableEnvelope} (he : e∈s.requests) (budget : ℕ) :
    ∃ top', c.Inv {s with
      snapshots := (c.deliver budget s store e).disk
      store := if (c.deliver budget s store e).store.failed then none else some (c.deliver budget s store e).store
      completions := s.completions++if (c.deliver budget s store e).result.toBool then [e] else []} acc top' := by
  have hinbox:=h.inbox
  rw [hstore] at hinbox
  obtain ⟨hkeeps,w,hstands⟩:=hinbox
  obtain ⟨i,x,hx,heq⟩:=h.requests e he
  have hkey : e.key=c.streamKey := by rw [heq]; rfl
  have hnone : ∀ y∈s.completions++[], y.sequence≤top := by
    rw [List.append_nil]
    exact h.completions
  rcases Inbox.apply_cases c.transition budget e hkeeps with
    ⟨err,hrefused⟩ | ⟨hknown,hle⟩ | ⟨saved',hadvances,⟨d',hfailed,hkeeps'⟩ | ⟨d',hdone,hkeeps'⟩⟩
  · change c.deliver budget s store e=_ at hrefused
    rw [hrefused]
    exact ⟨top,h.received (le_rfl) h.top_le (InboxInv.of_stands hkeeps hstands) hnone⟩
  · -- a duplicate is confirmed on the strength of the stored watermark
    change c.deliver budget s store e=_ at hknown
    rw [hknown]
    rw [hkey,hstands.watermark] at hle
    have hraised:=hstands.raise hle
    exact ⟨max top e.sequence,h.received (Nat.le_max_left ..) (hraised.top_le.trans hstands.le)
      (InboxInv.of_stands hkeeps hraised) (completed_le h.completions e)⟩
  · change c.deliver budget s store e=_ at hfailed
    rw [hfailed]
    obtain ⟨-,hstands'⟩:=hstands.advance hadvances hx heq
    refine ⟨top,h.received (le_rfl) h.top_le ?_ hnone⟩
    refine hkeeps'.imp ?_
    intro o ho
    rcases ho with ho | ho
    · exact Good.of_stands ho hstands
    · exact Good.of_stands ho hstands'
  · change c.deliver budget s store e=_ at hdone
    rw [hdone]
    obtain ⟨hseq,hstands'⟩:=hstands.advance hadvances hx heq
    have hraised:=hstands'.raise hseq.le
    exact ⟨max top e.sequence,h.received (Nat.le_max_left ..) (hraised.top_le.trans hstands'.le)
      (InboxInv.of_stands hkeeps' hraised) (completed_le h.completions e)⟩

theorem step_inv (hlimits : c.walLimits.validate c.segmentMax=.ok ()) (h : c.Inv s acc top)
    (hstep : c.Step s s') : ∃ acc' top', c.Inv s' acc' top' := by
  cases hstep with
  | openOutbox hworker hopen hrun hbind =>
    obtain ⟨acc',hinv⟩:=open_inv hlimits h hworker hopen hrun hbind
    exact ⟨acc',top,hinv⟩
  | @crashOpening plan budget kept cut hworker hopen =>
    have hdormant:=h.outbox
    rw [hworker] at hdormant
    have hinv:=h.stopped (Outbox.open_dormant hlimits hdormant hopen budget kept cut)
    rw [← hworker] at hinv
    exact ⟨acc,top,hinv⟩
  | work hworker ho hconfirmed hrun =>
    obtain ⟨acc',hinv⟩:=work_inv hlimits h hworker ho hconfirmed hrun
    exact ⟨acc',top,hinv⟩
  | crash hworker ho hconfirmed =>
    have hbusy:=h.outbox
    rw [hworker] at hbusy
    exact ⟨acc,top,h.stopped (Outbox.move_crash hlimits hbusy ho (h.confirmed hconfirmed) _ _ _)⟩
  | send hworker hphase hp => exact ⟨acc,top,send_inv h hworker hphase hp⟩
  | openInbox hstore =>
    exact ⟨acc,top,h.received (le_rfl) h.top_le (openStore_inv h hstore _) h.completions⟩
  | deliver hstore he =>
    obtain ⟨top',hinv⟩:=deliver_inv h hstore he _
    exact ⟨acc,top',hinv⟩
  | closeInbox => exact ⟨acc,top,h.received (le_rfl) h.top_le h.inbox.keeps h.completions⟩
  | crashInbox =>
    exact ⟨acc,top,h.received (le_rfl) h.top_le (h.inbox.keeps.crash _ _) h.completions⟩

theorem run_inv (hlimits : c.walLimits.validate c.segmentMax=.ok ()) (hrun : c.Run s) :
    ∃ acc top, c.Inv s acc top := by
  induction hrun with
  | refl => exact ⟨[],0,initial_inv⟩
  | tail _ hstep ih =>
    obtain ⟨acc,top,h⟩:=ih
    exact step_inv hlimits h hstep

theorem Inv.snapshot (h : c.Inv s acc top) (hsaved : c.Snapshot s saved) : ∃ w, c.Stands acc top saved w := by
  rcases hsaved with ⟨store,hstore,rfl⟩ | ⟨bytes,hread,hload⟩
  · have hinbox:=h.inbox
    rw [hstore] at hinbox
    exact hinbox.2
  · obtain ⟨o,hgood,ho⟩:=h.inbox.keeps.read
    rw [hread] at ho
    cases o with
    | none => contradiction
    | some x =>
      rw [Option.some.inj ho] at hload
      rw [Inbox.load_image hload]
      exact hgood

theorem Inv.worker_spells (h : c.Inv s acc top) (hworker : s.worker=some worker) :
    ∃ cs a, Outbox.Spells c.identity.toIdentity worker.wal.value cs a ∧ acc<+:cs ∧ a≤top := by
  have hbusy:=h.outbox
  rw [hworker] at hbusy
  obtain ⟨L,values,-,hholds⟩:=hbusy
  exact hholds.spells

theorem Inv.acked_le (hlimits : c.walLimits.validate c.segmentMax=.ok ()) (h : c.Inv s acc top) {n : ℕ}
    (hn : c.Acked s n) : n≠0 ∧ n≤top := by
  have hfair : ∀ w : WalInner, Outbox.Fair c.identity.toIdentity acc top w.value →
      w.acked.lookup c.identity.stream=some n → n≠0 ∧ n≤top := by
    intro w hfair hl
    obtain ⟨cs,a,hspells,-,ha⟩:=hfair
    obtain ⟨rfl,hne⟩:=hspells.acked_eq hl
    exact ⟨hne,ha⟩
  rcases hn with ⟨worker,hworker,hl⟩ | ⟨hworker,plan,hopen,hl⟩
  · exact hfair worker.wal (h.worker_spells hworker) hl
  · have hdormant:=h.outbox
    rw [hworker] at hdormant
    exact hfair plan.wal (Outbox.dormant_fair hlimits hdormant hopen) hl

theorem delivered_exactly_once (hlimits : c.walLimits.validate c.segmentMax=.ok ()) (hrun : c.Run s) :
    c.ExactlyOnce s := by
  obtain ⟨acc,top,h⟩:=run_inv hlimits hrun
  constructor
  · intro saved hsaved
    obtain ⟨w,hstands⟩:=h.snapshot hsaved
    refine ⟨acc.take w,?_,?_,hstands.state⟩
    · rw [hstands.watermark]
      exact List.length_take_of_le hstands.le
    · intro i x hx
      exact (h.accepted _ _).mpr ⟨i,rfl,Outbox.prefix_get (List.take_prefix ..) hx⟩
  · intro n hn
    obtain ⟨hne,hle⟩:=h.acked_le hlimits hn
    constructor
    · obtain ⟨o,hgood,ho⟩:=h.inbox.keeps.read
      cases o with
      | none =>
        have hzero : top=0 := hgood
        omega
      | some x =>
        rw [ho]
        rfl
    · intro saved hsaved
      obtain ⟨w,hstands⟩:=h.snapshot hsaved
      rw [hstands.watermark]
      exact hle.trans hstands.top_le
  · intro n x y hx hy
    obtain ⟨i,rfl,hi⟩:=(h.accepted _ _).mp hx
    obtain ⟨j,hij,hj⟩:=(h.accepted _ _).mp hy
    obtain rfl:=Nat.succ.inj hij
    exact Option.some.inj (hi.symm.trans hj)
  · intro n cmd hmem
    obtain ⟨hpos,hle,hplain⟩:=h.replied _ hmem
    obtain ⟨k,rfl⟩:=Nat.exists_eq_succ_of_ne_zero hpos
    have hlt : k<acc.length := hle
    refine ⟨acc[k],(h.accepted _ _).mpr ⟨k,rfl,List.getElem?_eq_getElem hlt⟩,?_⟩
    intro hid
    exact Option.some.inj ((List.getElem?_eq_getElem hlt).symm.trans (hplain hid))
  · intro worker p hworker hp x hx
    obtain ⟨cs,a,hspells,hgrow,-⟩:=h.worker_spells hworker
    obtain ⟨i,hi,hrec⟩:=hspells.mem_pending hp
    obtain ⟨j,hj,hx⟩:=(h.accepted _ _).mp hx
    have hseq : p.record.seq=i+1 := by rw [hrec]; rfl
    obtain rfl : i=j := by omega
    exact Option.some.inj ((Outbox.prefix_get hgrow hx).symm.trans hi)

end Config

/- The state is the number of messages, in unary. -/
def sampleConfig : Config where
  env := WalEnv.standard
  walLimits := smallLimits
  segmentMax := 4096
  identity := ⟨⟨"node","/user/a","session"⟩,3,true,"client"⟩
  codec := InboxCodec.standard
  inboxLimits := ⟨64,512,4,128⟩
  transition := fun state _ => .next (1::state)
  initial := []

def sampleCommand : Command := ⟨none,none,"app::Order",[7]⟩

def inboxOpened : Sys := {Sys.initial with
  snapshots := (sampleConfig.openStore 300 Sys.initial).1
  store := (sampleConfig.openStore 300 Sys.initial).2.toOption}

def readyWorker : Worker := ⟨smallWal,⟨0,0,0,0,0,0⟩,.ready⟩
def outboxOpened : Sys := {inboxOpened with log:=smallSys.disk,worker:=some readyWorker}

def groupWorker : Worker := {readyWorker with phase:=.group 0 0 []}
def groupBegun : Sys := {outboxOpened with worker:=some groupWorker}

def appended : Outbox.Outcome :=
  groupWorker.persist WalEnv.standard smallLimits 4096 sampleConfig.identity 0 0 [] sampleCommand
def appendedWorker : Worker := appended.worker.getD groupWorker
def recordAppended : Sys := {groupBegun with
  log := (groupBegun.log.exec 100 appended.effects).1
  worker := some appendedWorker}

def committed : Outbox.Outcome := appendedWorker.commit 1 1 [(1,sampleCommand)]
def committedWorker : Worker := committed.worker.getD appendedWorker
def groupCommitted : Sys := {recordAppended with
  log := (recordAppended.log.exec 1 committed.effects).1
  worker := some committedWorker
  accepted := assignments (some committedWorker)
  replied := [(1,sampleCommand)]}

def sampleEnvelope : DurableEnvelope := ⟨"client","session","node","/user/a",1,"app::Order",[7]⟩
def requestSent : Sys := {groupCommitted with requests:=[sampleEnvelope]}

def inboxStore : Store := (requestSent.store).getD ⟨Saved.initial "" "" [],true⟩
def received : Inbox.Outcome := sampleConfig.deliver 300 requestSent inboxStore sampleEnvelope
def messageReceived : Sys := {requestSent with
  snapshots := received.disk
  store := some received.store
  completions := [sampleEnvelope]}

theorem some_getD {α : Type} {o : Option α} {x : α} (h : o.isSome=true) : o=some (o.getD x) := by
  obtain ⟨a,rfl⟩:=Option.isSome_iff_exists.mp h
  rfl

theorem outboxOpened_run : sampleConfig.Run outboxOpened := by
  have hinbox : sampleConfig.Run inboxOpened := Relation.ReflTransGen.single (.openInbox rfl)
  have hopen:=@open_fresh WalEnv.standard smallLimits 4096 _ smallLimits_valid
    (⟨Disk.empty_named,Disk.empty_history⟩ : Fresh (Disk.empty : Disk ℕ))
  have hrun : inboxOpened.log.exec 2 start=(smallSys.disk,some 0) := rfl
  have hbind : (Outbox.bindAndRecover sampleConfig.identity smallWal).toOption=some ⟨0,0,0,0,0,0⟩ := by
    decide +kernel
  have hworker : some readyWorker=(Outbox.bindAndRecover sampleConfig.identity smallWal).toOption.map
      fun status => (⟨smallWal,status,.ready⟩ : Worker) := by
    rw [hbind]
    rfl
  exact hinbox.tail (.openOutbox rfl hopen hrun hworker)

theorem groupCommitted_run : sampleConfig.Run groupCommitted := by
  have hbegun : sampleConfig.Run groupBegun := by
    have hrun : outboxOpened.log.exec 0 []=(outboxOpened.log,some 0) := rfl
    exact outboxOpened_run.tail (@Config.Step.work sampleConfig outboxOpened readyWorker .begin
      ⟨[],some groupWorker,[]⟩ 0 0 _ rfl rfl trivial hrun)
  have hsome : appended.worker=some appendedWorker := some_getD (by decide +kernel)
  have happended : sampleConfig.Run recordAppended := by
    have hleft : (groupBegun.log.exec 100 appended.effects).2=some 57 := by decide +kernel
    have hrun : groupBegun.log.exec 100 appended.effects=(recordAppended.log,some 57) := by
      rw [← hleft]
      rfl
    have hstep:=@Config.Step.work sampleConfig groupBegun groupWorker (.persist sampleCommand) appended 100 57 _
      rfl rfl trivial hrun
    rw [hsome] at hstep
    exact hbegun.tail hstep
  have hready : committed.worker=some committedWorker := some_getD (by decide +kernel)
  have hphase : appendedWorker.phase=.group 1 1 [(1,sampleCommand)] := by decide +kernel
  have hout : Move.commit.outcome WalEnv.standard smallLimits 4096 sampleConfig.identity recordAppended.log
      appendedWorker=some committed := by
    simp only [Move.outcome,hphase]
    rfl
  have hleft : (recordAppended.log.exec 1 committed.effects).2=some 0 := by decide +kernel
  have hrun : recordAppended.log.exec 1 committed.effects=(groupCommitted.log,some 0) := by
    rw [← hleft]
    rfl
  have hreplies : committed.replies=[(1,sampleCommand)] := by decide +kernel
  have hstep:=@Config.Step.work sampleConfig recordAppended appendedWorker .commit committed 1 0 _
    rfl hout trivial hrun
  rw [hready,hreplies] at hstep
  exact happended.tail hstep

theorem messageReceived_run : sampleConfig.Run messageReceived := by
  have hphase : committedWorker.phase=.ready := by decide +kernel
  have hhead : (committedWorker.wal.pending.head?.map fun p => sampleConfig.identity.envelope p.record) =
      some sampleEnvelope := by decide +kernel
  obtain ⟨p,hp,henvelope⟩:=Option.map_eq_some_iff.mp hhead
  have hsent : sampleConfig.Run requestSent := by
    have hstep:=@Config.Step.send sampleConfig groupCommitted committedWorker p rfl hphase hp
    rw [henvelope] at hstep
    exact groupCommitted_run.tail hstep
  have hstore : requestSent.store=some inboxStore := some_getD (by decide +kernel)
  have hresult : (sampleConfig.deliver 300 requestSent inboxStore sampleEnvelope).result.toBool=true := by
    decide +kernel
  have hfailed : (sampleConfig.deliver 300 requestSent inboxStore sampleEnvelope).store.failed=false := by
    decide +kernel
  have hstep:=@Config.Step.deliver sampleConfig requestSent inboxStore sampleEnvelope 300 hstore
    (List.mem_singleton_self _)
  rw [hresult,hfailed] at hstep
  exact hsent.tail hstep

theorem delivered_exactly_once_one : sampleConfig.ExactlyOnce messageReceived ∧
    messageReceived.completions=[sampleEnvelope] ∧ messageReceived.replied=[(1,sampleCommand)] :=
  ⟨Config.delivered_exactly_once smallLimits_valid messageReceived_run,rfl,rfl⟩

end Parrot.Delivery
