import Parrot.Outbox.Ordered

/-! # The worker keeps what it accepted

A worker that is ready has synced all it knows, and its log spells exactly the accepted
contents. -/

namespace Parrot.Outbox
open List (prefix_refl prefix_append)
open Machine Wal
open CrashFs (Disk Effect)
open SegmentLog

theorem prefix_get {α : Type} {xs ys : List α} (h : xs<+:ys) {i : ℕ} {x : α} (hx : xs[i]? = some x) :
    ys[i]? = some x := by
  obtain ⟨t,rfl⟩:=h
  obtain ⟨hlt,-⟩:=List.getElem?_eq_some_iff.mp hx
  rw [List.getElem?_append_left hlt]
  exact hx

structure Assigned (cs : List Content) (x : ℕ × Command) : Prop where
  pos : x.1≠0
  le : x.1≤cs.length
  plain : x.2.requestId=none → cs[x.1-1]? = some x.2.content

theorem Assigned.mono {cs cs' : List Content} {x : ℕ × Command} (h : Assigned cs x) (hgrow : cs<+:cs') :
    Assigned cs' x :=
  ⟨h.pos,h.le.trans hgrow.length_le,fun hid => prefix_get hgrow (h.plain hid)⟩

section worker
variable (env : WalEnv) (limits : WalLimits) (identity : BoundIdentity) (acc : List Content) (top : ℕ)

def Holds (L : Layout (Stored env limits)) (worker : Worker) : Prop :=
  worker.status.lastEnqueued=acc.length ∧
  match worker.phase with
  | .ready => L.synced=L.active.length ∧ ∃ a≤top, Spells identity.toIdentity worker.wal.value acc a
  | .group last _ staged => ∃ cs a, Spells identity.toIdentity worker.wal.value cs a ∧ acc<+:cs ∧ a≤top ∧
    last=cs.length ∧ (∀ x∈staged, Assigned cs x) ∧
    (staged=[] → cs=acc ∧ L.synced=L.active.length)
  | .acked _ => ∃ a≤top, Spells identity.toIdentity worker.wal.value acc a

def Busy (d : Disk ℕ) (worker : Worker) : Prop :=
  ∃ L values, Telling env limits identity.toIdentity acc top d worker.wal L values ∧
    Holds env limits identity acc top L worker

def OutboxInv (d : Disk ℕ) : Option Worker → Prop
  | none => Dormant env limits identity.toIdentity acc top d
  | some worker => Busy env limits identity acc top d worker

variable {env limits identity acc top} {segmentMax : ℕ} {d d' : Disk ℕ} {worker : Worker} {budget left : ℕ}
  {last appended : ℕ} {staged : List (ℕ × Command)} {cs : List Content} {a : ℕ}
  {L : Layout (Stored env limits)} {values : List Value}

theorem exec_nil (h : d.exec budget []=(d',some left)) : d'=d := (congrArg Prod.fst h).symm

theorem sync_live (h : Up env limits d worker.wal L) : worker.wal.sync=.ok ⟨[.sync worker.wal.segId],worker.wal,.ok ()⟩ := by
  simp only [WalInner.sync,WalInner.healthy,h.live.healthy]
  rfl

theorem Holds.spells (h : Holds env limits identity acc top L worker) :
    ∃ cs a, Spells identity.toIdentity worker.wal.value cs a ∧ acc<+:cs ∧ a≤top := by
  obtain ⟨-,h⟩:=h
  split at h
  · obtain ⟨-,a,ha,hspells⟩:=h
    exact ⟨acc,a,hspells,prefix_refl _,ha⟩
  · obtain ⟨cs,a,hspells,hgrow,ha,-⟩:=h
    exact ⟨cs,a,hspells,hgrow,ha⟩
  · obtain ⟨a,ha,hspells⟩:=h
    exact ⟨acc,a,hspells,prefix_refl _,ha⟩

theorem OutboxInv.mono {top' : ℕ} {worker : Option Worker} (h : OutboxInv env limits identity acc top d worker)
    (hle : top≤top') : OutboxInv env limits identity acc top' d worker := by
  cases worker with
  | none => exact Dormant.mono h hle
  | some worker =>
    obtain ⟨L,values,htelling,henqueued,hholds⟩:=h
    refine ⟨L,values,htelling.mono hle,henqueued,?_⟩
    cases hphase : worker.phase with
    | ready =>
      rw [hphase] at hholds
      obtain ⟨hsynced,a,ha,hspells⟩:=hholds
      exact ⟨hsynced,a,ha.trans hle,hspells⟩
    | group last appended staged =>
      rw [hphase] at hholds
      obtain ⟨cs,a,hspells,hgrow,ha,hrest⟩:=hholds
      exact ⟨cs,a,hspells,hgrow,ha.trans hle,hrest⟩
    | acked seq =>
      rw [hphase] at hholds
      obtain ⟨a,ha,hspells⟩:=hholds
      exact ⟨a,ha.trans hle,hspells⟩

section
variable (hlimits : limits.validate segmentMax=.ok ())
include hlimits

theorem persist_cases (hup : Up env limits d worker.wal L)
    (hspells : Spells identity.toIdentity worker.wal.value cs a) (cmd : Command) :
    worker.persist env limits segmentMax identity cs.length appended staged cmd=⟨[],some worker,[]⟩ ∨
    (∃ n, Assigned cs (n,cmd) ∧ worker.persist env limits segmentMax identity cs.length appended staged cmd =
      ⟨[],some {worker with phase:=.group cs.length appended (staged++[(n,cmd)])},[]⟩) ∨
    ∃ (op : WalOp) (wal : WalInner) (effects : List (Effect ℕ)), op.InRange ∧ op ≠ .sync ∧
      (∀ crashed, ¬ Exposed d worker.wal op crashed) ∧
      op.plan env limits segmentMax d worker.wal=(effects,wal) ∧
      Spells identity.toIdentity wal.value (cs++[cmd.content]) a ∧
      worker.persist env limits segmentMax identity cs.length appended staged cmd=⟨effects,some {worker with
          wal := wal
          phase := .group (cs.length+1) (appended+1) (staged++[(cs.length+1,cmd)])},[]⟩ := by
  unfold Worker.persist
  cases hplan : appendForGroup env limits segmentMax worker.wal identity.toIdentity cmd
      ((checkedAdd cs.length 1).getD 0) with
  | error e =>
    refine .inl ?_
    dsimp only
    rw [if_neg (by simp [hup.live.healthy])]
  | ok plan =>
    rcases appendForGroup_split hplan with ⟨n,hknown,rfl⟩ | ⟨hunknown,hseq,happend⟩
    · obtain ⟨hid,hpos,hle⟩:=known_spells hspells hknown
      exact .inr (.inl ⟨n,⟨hpos,hle,fun hnone => absurd hnone hid⟩,rfl⟩)
    · cases hnext : checkedAdd cs.length 1 with
      | none =>
        rw [hnext] at hseq
        exact absurd rfl hseq
      | some next =>
        obtain ⟨rfl,hle⟩:=checkedAdd_eq_some.mp hnext
        rw [hnext,Option.getD_some] at hunknown happend
        obtain ⟨hresult,hspells'⟩:=append_spells hlimits hup hspells hle hunknown happend
        refine .inr (.inr ⟨.append (identity.toIdentity.record cmd (cs.length+1)) cmd.requestId cmd.parent,
          plan.wal,plan.effects,hle,fun h => by contradiction,fun _ hexposed => hexposed.1,?_,hspells',?_⟩)
        · simp only [WalOp.plan,happend]
          rfl
        · dsimp only
          rw [hresult]
          rfl

theorem persist_inv (h : Busy env limits identity acc top d worker)
    (hphase : worker.phase=.group last appended staged) (cmd : Command)
    (hrun : d.exec budget (worker.persist env limits segmentMax identity last appended staged cmd).effects =
    (d',some left)) : OutboxInv env limits identity acc top d'
    (worker.persist env limits segmentMax identity last appended staged cmd).worker := by
  obtain ⟨L,values,htelling,henqueued,hholds⟩:=h
  rw [hphase] at hholds
  obtain ⟨cs,a,hspells,hgrow,ha,rfl,hstaged,hnone⟩:=hholds
  rcases @persist_cases env limits identity segmentMax d worker appended staged cs a L hlimits htelling.up hspells cmd with
    hrefused | ⟨n,hassigned,hknown⟩ | ⟨op,wal,effects,hop,hsync,-,hplan,hspells',hnew⟩
  · rw [hrefused] at hrun ⊢
    obtain rfl:=exec_nil hrun
    refine ⟨L,values,htelling,henqueued,?_⟩
    rw [hphase]
    exact ⟨cs,a,hspells,hgrow,ha,rfl,hstaged,hnone⟩
  · rw [hknown] at hrun ⊢
    obtain rfl:=exec_nil hrun
    refine ⟨L,values,htelling,henqueued,cs,a,hspells,hgrow,ha,rfl,?_,fun hnil => by simp at hnil⟩
    intro x hx
    rcases List.mem_append.mp hx with hx | hx
    · exact hstaged x hx
    · exact List.mem_singleton.mp hx ▸ hassigned
  · rw [hnew] at hrun ⊢
    have hgrow' : acc<+:cs++[cmd.content] := hgrow.trans (prefix_append ..)
    have hrun' : d.exec budget (op.plan env limits segmentMax d worker.wal).1=(d',some left) := by
      rw [hplan]
      exact hrun
    obtain ⟨L',values',htelling'⟩:=htelling.call hlimits hop hsync hrun'
      (by rw [hplan]; exact ⟨_,a,hspells',hgrow',ha⟩)
    rw [hplan] at htelling'
    refine ⟨L',values',htelling',henqueued,cs++[cmd.content],a,hspells',hgrow',ha,?_,?_,
      fun hnil => by simp at hnil⟩
    · simp
    · intro x hx
      rcases List.mem_append.mp hx with hx | hx
      · exact (hstaged x hx).mono (prefix_append ..)
      · obtain rfl:=List.mem_singleton.mp hx
        refine ⟨Nat.succ_ne_zero _,by simp,?_⟩
        intro _
        simp

theorem commit_inv (h : Busy env limits identity acc top d worker) (hphase : worker.phase=.group last appended staged)
    (hrun : d.exec budget (worker.commit last appended staged).effects=(d',some left)) : ∃ acc', acc<+:acc' ∧
    (∀ x∈(worker.commit last appended staged).replies, Assigned acc' x) ∧ ∃ worker',
    (worker.commit last appended staged).worker=some worker' ∧ worker'.phase=.ready ∧
    Busy env limits identity acc' top d' worker' := by
  obtain ⟨L,values,htelling,henqueued,hholds⟩:=h
  rw [hphase] at hholds
  obtain ⟨cs,a,hspells,hgrow,ha,rfl,hstaged,hnone⟩:=hholds
  unfold Worker.commit at hrun ⊢
  split at hrun
  · -- nothing was staged, so nothing was appended
    rename_i hempty
    obtain ⟨rfl,hsynced⟩:=hnone (List.isEmpty_iff.mp hempty)
    obtain rfl:=exec_nil hrun
    rw [if_pos hempty]
    exact ⟨cs,hgrow,fun x hx => by contradiction,_,rfl,rfl,L,values,htelling,henqueued,hsynced,a,ha,hspells⟩
  · rename_i hempty
    rw [if_neg hempty]
    rw [sync_live htelling.up] at hrun ⊢
    obtain ⟨L',htelling',hsynced⟩:=htelling.sync hlimits hrun
      (show Fair identity.toIdentity cs top worker.wal.value from ⟨cs,a,hspells,prefix_refl _,ha⟩)
    exact ⟨cs,hgrow,hstaged,_,rfl,rfl,L',_,htelling',rfl,hsynced,a,ha,hspells⟩

theorem ack_outcome (hup : Up env limits d worker.wal L)
    (hsynced : L.synced=L.active.length) (hspells : Spells identity.toIdentity worker.wal.value acc a)
    {p : PendingRecord} (hp : worker.wal.pending.head? = some p) (acks : Order (Stream × ℕ))
    (receipts : Order Receipt) :
    worker.ack env limits identity d acks receipts p.record=⟨[],none,[]⟩ ∨
    ∃ (op : WalOp) (wal : WalInner) (effects : List (Effect ℕ)), op.InRange ∧ op ≠ .sync ∧
      (∀ crashed, ¬ Exposed d worker.wal op crashed) ∧
      op.plan env limits segmentMax d worker.wal=(effects,wal) ∧
      (∃ a'≤p.record.seq, Spells identity.toIdentity wal.value acc a') ∧
      worker.ack env limits identity d acks receipts p.record =
        ⟨effects,some {worker with wal:=wal,phase:=.acked p.record.seq},[]⟩ := by
  unfold Worker.ack
  cases hplan : Wal.ack env limits (d.dir.map Prod.fst) acks receipts worker.wal identity.receiver identity.sender
      p.record.seq with
  | error e => exact .inl rfl
  | ok plan =>
    obtain ⟨hresult,hspells'⟩:=ack_spells hlimits hup hspells hp hplan
    refine .inr ⟨.ack identity.receiver identity.sender p.record.seq acks receipts,plan.wal,plan.effects,
      (pending_sound hup (List.mem_of_head? hp)).2.1,fun h => by contradiction,?_,?_,hspells',?_⟩
    · intro crashed hexposed
      exact up_synced hup hsynced hexposed.2.1
    · simp only [WalOp.plan,hplan]
      rfl
    · dsimp only
      rw [hresult]

section
variable (h : Busy env limits identity acc top d worker)
include h

theorem ack_inv (hphase : worker.phase=.ready) {p : PendingRecord} (hp : worker.wal.pending.head? = some p)
    (hseq : p.record.seq≤top) (acks : Order (Stream × ℕ)) (receipts : Order Receipt)
    (hrun : d.exec budget (worker.ack env limits identity d acks receipts p.record).effects=(d',some left)) :
    OutboxInv env limits identity acc top d' (worker.ack env limits identity d acks receipts p.record).worker := by
  obtain ⟨L,values,htelling,henqueued,hholds⟩:=h
  rw [hphase] at hholds
  obtain ⟨hsynced,a,ha,hspells⟩:=hholds
  rcases ack_outcome hlimits htelling.up hsynced hspells hp acks receipts with
    hrefused | ⟨op,wal,effects,hop,hsync,-,hplan,⟨a',ha',hspells'⟩,hnew⟩
  · rw [hrefused] at hrun ⊢
    obtain rfl:=exec_nil hrun
    exact htelling.dormant hsynced
  · rw [hnew] at hrun ⊢
    have hrun' : d.exec budget (op.plan env limits segmentMax d worker.wal).1=(d',some left) := by
      rw [hplan]
      exact hrun
    obtain ⟨L',values',htelling'⟩:=htelling.call hlimits hop hsync hrun'
      (by rw [hplan]; exact ⟨acc,a',hspells',prefix_refl _,ha'.trans hseq⟩)
    rw [hplan] at htelling'
    exact ⟨L',values',htelling',henqueued,a',ha'.trans hseq,hspells'⟩

theorem settle_inv
    {seq : ℕ} (hphase : worker.phase=.acked seq) (hrun : d.exec budget (worker.settle seq).effects=(d',some left)) :
    OutboxInv env limits identity acc top d' (worker.settle seq).worker := by
  obtain ⟨L,values,htelling,henqueued,hholds⟩:=h
  rw [hphase] at hholds
  obtain ⟨a,ha,hspells⟩:=hholds
  unfold Worker.settle at hrun ⊢
  rw [sync_live htelling.up] at hrun ⊢
  obtain ⟨L',htelling',hsynced⟩:=htelling.sync hlimits hrun
    (show Fair identity.toIdentity acc top worker.wal.value from ⟨acc,a,hspells,prefix_refl _,ha⟩)
  exact ⟨L',_,htelling',henqueued,hsynced,a,ha,hspells⟩

theorem stop_inv (hrun : d.exec budget worker.stop.effects=(d',some left)) :
    OutboxInv env limits identity acc top d' worker.stop.worker := by
  obtain ⟨L,values,htelling,hholds⟩:=h
  unfold Worker.stop at hrun ⊢
  rw [sync_live htelling.up] at hrun ⊢
  obtain ⟨L',htelling',hsynced⟩:=htelling.sync hlimits hrun
    (show Fair identity.toIdentity acc top worker.wal.value from hholds.spells)
  exact htelling'.dormant hsynced

end

end

theorem begin_inv (h : Busy env limits identity acc top d worker) (hphase : worker.phase=.ready) :
    Busy env limits identity acc top d {worker with phase:=.group worker.status.lastEnqueued 0 []} := by
  obtain ⟨L,values,htelling,henqueued,hholds⟩:=h
  rw [hphase] at hholds
  obtain ⟨hsynced,a,ha,hspells⟩:=hholds
  exact ⟨L,values,htelling,henqueued,acc,a,hspells,prefix_refl _,ha,henqueued,
    fun x hx => by contradiction,fun _ => ⟨rfl,hsynced⟩⟩

section
variable (hlimits : limits.validate segmentMax=.ok ())
include hlimits

theorem move_inv (h : Busy env limits identity acc top d worker)
    {m : Move} {o : Outcome} (ho : m.outcome env limits segmentMax identity d worker=some o)
    (hconfirmed : ∀ acks receipts p, m=.ack acks receipts → worker.wal.pending.head? = some p → p.record.seq≤top)
    (hrun : d.exec budget o.effects=(d',some left)) : ∃ acc', acc<+:acc' ∧
    OutboxInv env limits identity acc' top d' o.worker ∧ (∀ x∈o.replies, Assigned acc' x) ∧
    (acc'=acc ∨ ∃ worker', o.worker=some worker' ∧ worker'.phase=.ready) := by
  have hsame : OutboxInv env limits identity acc top d' o.worker → o.replies=[] →
      ∃ acc', acc<+:acc' ∧ OutboxInv env limits identity acc' top d' o.worker ∧ (∀ x∈o.replies, Assigned acc' x) ∧
        (acc'=acc ∨ ∃ worker', o.worker=some worker' ∧ worker'.phase=.ready) := by
    intro hinv hnil
    refine ⟨acc,prefix_refl _,hinv,?_,.inl rfl⟩
    intro x hx
    rw [hnil] at hx
    contradiction
  cases m with
  | begin =>
    simp only [Move.outcome] at ho
    split at ho
    · rename_i hphase
      cases ho
      obtain rfl:=exec_nil hrun
      exact hsame (begin_inv h hphase) rfl
    · contradiction
  | persist cmd =>
    simp only [Move.outcome] at ho
    split at ho
    · rename_i hphase
      cases ho
      exact hsame (persist_inv hlimits h hphase cmd hrun) (persist_replies ..)
    · contradiction
  | commit =>
    simp only [Move.outcome] at ho
    split at ho
    · rename_i hphase
      cases ho
      obtain ⟨acc',hgrow,hreplies,worker',hworker,hready,hbusy⟩:=commit_inv hlimits h hphase hrun
      refine ⟨acc',hgrow,?_,hreplies,.inr ⟨worker',hworker,hready⟩⟩
      rw [hworker]
      exact hbusy
    · contradiction
  | ack acks receipts =>
    simp only [Move.outcome] at ho
    split at ho
    · rename_i hphase hp
      cases ho
      exact hsame (ack_inv hlimits h hphase hp (hconfirmed acks receipts _ rfl hp) acks receipts hrun)
        (ack_replies ..)
    · contradiction
  | settle =>
    simp only [Move.outcome] at ho
    split at ho
    · rename_i hphase
      cases ho
      exact hsame (settle_inv hlimits h hphase hrun) (settle_replies ..)
    · contradiction
  | stop =>
    simp only [Move.outcome] at ho
    split at ho
    · cases ho
      exact hsame (stop_inv hlimits h hrun) (stop_replies ..)
    · contradiction

theorem move_effects (htelling : Telling env limits identity.toIdentity acc top d worker.wal L values)
    (hholds : Holds env limits identity acc top L worker) {m : Move} {o : Outcome}
    (ho : m.outcome env limits segmentMax identity d worker=some o)
    (hconfirmed : ∀ acks receipts p, m=.ack acks receipts → worker.wal.pending.head? = some p → p.record.seq≤top) :
    o.effects=[] ∨ ∃ op : WalOp, op.InRange ∧ (∀ crashed, ¬ Exposed d worker.wal op crashed) ∧
    (op.plan env limits segmentMax d worker.wal).1=o.effects ∧
    Fair identity.toIdentity acc top (op.plan env limits segmentMax d worker.wal).2.value := by
  have hsync : o.effects=[.sync worker.wal.segId] → ∃ op : WalOp, op.InRange ∧
      (∀ crashed, ¬ Exposed d worker.wal op crashed) ∧
      (op.plan env limits segmentMax d worker.wal).1=o.effects ∧
      Fair identity.toIdentity acc top (op.plan env limits segmentMax d worker.wal).2.value := by
    intro heff
    refine ⟨.sync,trivial,fun _ hexposed => hexposed.1,?_,?_⟩
    · rw [heff,sync_plan htelling.up.live.healthy]
    · rw [sync_plan htelling.up.live.healthy]
      exact hholds.spells
  cases m with
  | begin =>
    simp only [Move.outcome] at ho
    split at ho
    · cases ho
      exact .inl rfl
    · contradiction
  | persist cmd =>
    simp only [Move.outcome] at ho
    split at ho
    · rename_i last appended staged hphase
      cases ho
      obtain ⟨-,hholds⟩:=hholds
      rw [hphase] at hholds
      obtain ⟨cs,a,hspells,hgrow,ha,rfl,-⟩:=hholds
      rcases @persist_cases env limits identity segmentMax d worker appended staged cs a L hlimits htelling.up
        hspells cmd with hrefused | ⟨n,-,hknown⟩ | ⟨op,wal,effects,hop,-,hsafe,hplan,hspells',hnew⟩
      · exact .inl (by rw [hrefused])
      · exact .inl (by rw [hknown])
      · refine .inr ⟨op,hop,hsafe,by rw [hplan,hnew],?_⟩
        rw [hplan]
        exact ⟨_,a,hspells',hgrow.trans (prefix_append ..),ha⟩
    · contradiction
  | commit =>
    simp only [Move.outcome] at ho
    split at ho
    · cases ho
      unfold Worker.commit at hsync ⊢
      split
      · exact .inl rfl
      · rename_i hempty
        rw [if_neg hempty,sync_live htelling.up] at hsync
        rw [sync_live htelling.up]
        exact .inr (hsync rfl)
    · contradiction
  | ack acks receipts =>
    simp only [Move.outcome] at ho
    split at ho
    · rename_i p hphase hp
      cases ho
      obtain ⟨-,hholds⟩:=hholds
      rw [hphase] at hholds
      obtain ⟨hsynced,a,ha,hspells⟩:=hholds
      rcases @ack_outcome env limits identity acc segmentMax d worker a L hlimits htelling.up hsynced hspells p hp
        acks receipts with hrefused | ⟨op,wal,effects,hop,-,hsafe,hplan,⟨a',ha',hspells'⟩,hnew⟩
      · exact .inl (by rw [hrefused])
      · refine .inr ⟨op,hop,hsafe,by rw [hplan,hnew],?_⟩
        rw [hplan]
        exact ⟨acc,a',hspells',prefix_refl _,ha'.trans (hconfirmed acks receipts p rfl hp)⟩
    · contradiction
  | settle =>
    simp only [Move.outcome] at ho
    split at ho
    · cases ho
      unfold Worker.settle at hsync ⊢
      rw [sync_live htelling.up] at hsync ⊢
      exact .inr (hsync rfl)
    · contradiction
  | stop =>
    simp only [Move.outcome] at ho
    split at ho
    · cases ho
      unfold Worker.stop at hsync ⊢
      rw [sync_live htelling.up] at hsync ⊢
      exact .inr (hsync rfl)
    · contradiction

theorem move_crash (h : Busy env limits identity acc top d worker) {m : Move} {o : Outcome}
    (ho : m.outcome env limits segmentMax identity d worker=some o) (hconfirmed : ∀ acks receipts p,
    m=.ack acks receipts → worker.wal.pending.head? = some p → p.record.seq≤top) (budget kept : ℕ) (cut : ℕ → ℕ) :
    Dormant env limits identity.toIdentity acc top ((d.exec budget o.effects).1.crash kept cut) := by
  obtain ⟨L,values,htelling,hholds⟩:=h
  rcases move_effects hlimits htelling hholds ho hconfirmed with hnone | ⟨op,hop,hsafe,heff,hfair⟩
  · rw [hnone]
    exact htelling.idle hlimits kept cut
  · rw [← heff]
    exact htelling.crash hlimits hop budget kept cut (hsafe _) hfair

end

end worker
end Parrot.Outbox
