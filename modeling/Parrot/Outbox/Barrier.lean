import Parrot.Outbox.GapFree
import Parrot.Wal.Tail

/-! # Answers behind the barrier (`durable/outbox.rs:480-595,657-781`, `durable/outbox/group.rs:62-123`)

A run of the worker over its directory: groups, completions of the first pending record, I/O
errors, ends of the process, crashes of the machine and openings. -/

namespace Parrot.Outbox
open Machine Wal
open CrashFs (Disk Effect)

section worker
variable (identity : Identity)

structure Answers (w : WalInner) (last : ℕ) (x : ℕ × Command) : Prop where
  le : x.1≤last
  plain : x.2.requestId=none → ∃ p∈w.pending, p.record=identity.record x.2 x.1

def Orderly (worker : Worker) : Prop :=
  match worker.phase with
  | .ready => Gapless identity worker.wal worker.status.lastAcked worker.status.lastEnqueued ∧
    worker.status.pending=worker.wal.pending.length
  | .group last appended staged => Gapless identity worker.wal worker.status.lastAcked last ∧
    worker.status.pending+appended=worker.wal.pending.length ∧
    (∀ x∈staged, Answers identity worker.wal last x) ∧
    (staged=[] → appended=0 ∧ last=worker.status.lastEnqueued)
  | .acked seq => Gapless identity worker.wal seq worker.status.lastEnqueued ∧
    worker.status.pending=worker.wal.pending.length+1

variable {identity} {env : WalEnv} {limits : WalLimits} {segmentMax : ℕ} {worker : Worker}

theorem Answers.mono {w w' : WalInner} {last last' : ℕ} {x : ℕ × Command} (h : Answers identity w last x)
    (hle : last≤last') (hsub : ∀ p∈w.pending, p∈w'.pending) : Answers identity w' last' x := by
  refine ⟨h.le.trans hle,?_⟩
  intro hid
  obtain ⟨p,hp,heq⟩:=h.plain hid
  exact ⟨p,hsub p hp,heq⟩

theorem Gapless.known {w : WalInner} {acked last n : ℕ} (h : Gapless identity w acked last) {r : WalRecord}
    {id : Option String} (hknown : lookupSubmission env w.receipts r id=.ok (some n)) : id≠none ∧ n≤last := by
  cases id with
  | none =>
    have hnone:=Except.ok.inj hknown
    contradiction
  | some id =>
    obtain ⟨_,-,hlook⟩:=bind_eq_ok.mp hknown
    cases hl : w.receipts.entries.lookup (r.endpoint,r.sender,id) with
    | none =>
      rw [hl] at hlook
      have hnone:=Except.ok.inj hlook
      contradiction
    | some receipt =>
      rw [hl] at hlook
      dsimp only at hlook
      split at hlook
      · obtain rfl:=Option.some.inj (Except.ok.inj hlook)
        exact ⟨Option.some_ne_none _,h.receipts _ _ hl⟩
      · contradiction

end worker

section env
variable {env : WalEnv} {limits : WalLimits} {segmentMax : ℕ} {identity : BoundIdentity} {worker worker' : Worker}
  {d d' : Disk ℕ} {last appended : ℕ} {staged : List (ℕ × Command)}

theorem persist_orderly (hphase : worker.phase=.group last appended staged)
    (h : Orderly identity.toIdentity worker) (cmd : Command)
    (hw : (worker.persist env limits segmentMax identity last appended staged cmd).worker=some worker') :
    Orderly identity.toIdentity worker' := by
  have hgroup:=h
  unfold Orderly at hgroup
  rw [hphase] at hgroup
  obtain ⟨hgap,hcount,hstaged,hempty⟩:=hgroup
  unfold Worker.persist at hw
  cases hplan : appendForGroup env limits segmentMax worker.wal identity.toIdentity cmd
      ((checkedAdd last 1).getD 0) with
  | error e =>
    rw [hplan] at hw
    dsimp only at hw
    split at hw
    · contradiction
    · cases hw
      exact h
  | ok plan =>
    rw [hplan] at hw
    dsimp only at hw
    rcases appendForGroup_split hplan with ⟨n,hknown,rfl⟩ | ⟨hunknown,hseq,happend⟩
    · obtain ⟨hid,hle⟩:=hgap.known hknown
      cases hw
      refine ⟨hgap,hcount,?_,?_⟩
      · intro x hx
        rcases List.mem_append.mp hx with hx | hx
        · exact hstaged x hx
        · obtain rfl:=List.mem_singleton.mp hx
          exact ⟨hle,fun hnone => absurd hnone hid⟩
      · intro hnil
        simp at hnil
    · cases hnext : checkedAdd last 1 with
      | none =>
        rw [hnext] at hseq
        exact absurd rfl hseq
      | some next =>
        obtain ⟨rfl,-⟩:=checkedAdd_eq_some.mp hnext
        rw [hnext,Option.getD_some] at hunknown happend
        rcases hgap.append hunknown happend with ⟨⟨e,he⟩,hfailed⟩ | ⟨hresult,hpending,hgap'⟩
        · rw [he] at hw
          dsimp only at hw
          rw [if_pos hfailed] at hw
          contradiction
        · rw [hresult] at hw
          cases hw
          have hsub : ∀ p∈worker.wal.pending, p∈plan.wal.pending := by
            intro p hp
            rw [hpending]
            exact List.mem_append_left _ hp
          refine ⟨hgap',?_,?_,?_⟩
          · dsimp only
            rw [hpending,List.length_append,List.length_singleton,if_pos rfl,← hcount]
            omega
          · intro x hx
            rcases List.mem_append.mp hx with hx | hx
            · exact (hstaged x hx).mono (Nat.le_succ _) hsub
            · obtain rfl:=List.mem_singleton.mp hx
              refine ⟨le_rfl,fun _ => ⟨⟨identity.toIdentity.record cmd (last+1),cmd.parent⟩,?_,rfl⟩⟩
              · rw [hpending]
                exact List.mem_append_right _ (List.mem_singleton_self _)
          · intro hnil
            simp at hnil

theorem commit_orderly (hphase : worker.phase=.group last appended staged) (h : Orderly identity.toIdentity worker)
    (hw : (worker.commit last appended staged).worker=some worker') : Orderly identity.toIdentity worker' ∧
    worker'.phase=.ready ∧ ∀ x∈(worker.commit last appended staged).replies,
    Answers identity.toIdentity worker'.wal worker'.status.lastEnqueued x := by
  unfold Orderly at h
  rw [hphase] at h
  obtain ⟨hgap,hcount,hstaged,hempty⟩:=h
  unfold Worker.commit at hw ⊢
  split at hw
  · rename_i hnil
    obtain ⟨rfl,rfl⟩:=hempty (List.isEmpty_iff.mp hnil)
    cases hw
    rw [if_pos hnil]
    exact ⟨⟨hgap,hcount⟩,rfl,fun x hx => absurd hx List.not_mem_nil⟩
  · rename_i hne
    rw [if_neg hne]
    cases hsync : worker.wal.sync with
    | error e =>
      rw [hsync] at hw
      contradiction
    | ok plan =>
      rw [hsync] at hw
      unfold WalInner.sync at hsync
      obtain ⟨-,-,hsync⟩:=bind_eq_ok.mp hsync
      obtain rfl:=(Except.ok.inj hsync).symm
      cases hw
      exact ⟨⟨hgap,hcount⟩,rfl,hstaged⟩

theorem ack_orderly (hphase : worker.phase=.ready) (h : Orderly identity.toIdentity worker)
    {acks : Order (Stream × ℕ)} {receipts : Order Receipt} {p : PendingRecord} (hp : worker.wal.pending.head? =
    some p) (hw : (worker.ack env limits identity d acks receipts p.record).worker=some worker') :
    Orderly identity.toIdentity worker' := by
  unfold Orderly at h
  rw [hphase] at h
  obtain ⟨hgap,hcount⟩:=h
  unfold Worker.ack at hw
  cases hplan : Wal.ack env limits (d.dir.map Prod.fst) acks receipts worker.wal identity.receiver
      identity.sender p.record.seq with
  | error e =>
    rw [hplan] at hw
    contradiction
  | ok plan =>
    rw [hplan] at hw
    dsimp only at hw
    rcases hgap.ack hp hplan with ⟨e,he⟩ | ⟨hresult,hseq,hgap'⟩
    · rw [he] at hw
      contradiction
    · rw [hresult] at hw
      cases hw
      have hlen:=hgap.length
      have hlen':=hgap'.length
      have hlt:=hgap'.acked_le
      unfold Orderly
      dsimp only
      rw [hseq]
      exact ⟨hgap',by omega⟩

theorem settle_orderly {seq : ℕ} (hphase : worker.phase=.acked seq) (h : Orderly identity.toIdentity worker)
    (hw : (worker.settle seq).worker=some worker') : Orderly identity.toIdentity worker' := by
  unfold Orderly at h
  rw [hphase] at h
  obtain ⟨hgap,hcount⟩:=h
  unfold Worker.settle at hw
  cases hsync : worker.wal.sync with
  | error e =>
    rw [hsync] at hw
    contradiction
  | ok plan =>
    rw [hsync] at hw
    unfold WalInner.sync at hsync
    obtain ⟨-,-,hsync⟩:=bind_eq_ok.mp hsync
    obtain rfl:=(Except.ok.inj hsync).symm
    cases hw
    refine ⟨hgap,?_⟩
    dsimp only
    omega

theorem stop_worker : worker.stop.worker=none := by
  unfold Worker.stop
  split
  · rfl
  · rfl

variable {o : Outcome}

theorem replies_worker {m : Move} (ho : m.outcome env limits segmentMax identity d worker=some o)
    (hne : o.replies≠[]) : ∃ worker', o.worker=some worker' := by
  cases m with
  | begin =>
    simp only [Move.outcome] at ho
    split at ho
    · cases ho
      exact ⟨_,rfl⟩
    · contradiction
  | persist | ack | settle =>
    simp only [Move.outcome] at ho
    split at ho
    · cases ho
      simp at hne
    · contradiction
  | commit =>
    simp only [Move.outcome] at ho
    split at ho
    · cases ho
      unfold Worker.commit at hne ⊢
      split at hne
      · simp at hne
      · rename_i hstaged
        rw [if_neg hstaged]
        split at hne
        · simp at hne
        · exact ⟨_,rfl⟩
    · contradiction
  | stop =>
    simp only [Move.outcome] at ho
    split at ho
    · cases ho
      rw [stop_replies] at hne
      contradiction
    · contradiction

theorem move_orderly (h : Orderly identity.toIdentity worker) {m : Move}
    (ho : m.outcome env limits segmentMax identity d worker=some o) (hw : o.worker=some worker') :
    Orderly identity.toIdentity worker' ∧ ∀ x∈o.replies, worker'.phase=.ready ∧
      Answers identity.toIdentity worker'.wal worker'.status.lastEnqueued x := by
  have hnone : ∀ x∈([] : List (ℕ × Command)), worker'.phase=.ready ∧
      Answers identity.toIdentity worker'.wal worker'.status.lastEnqueued x := fun x hx => absurd hx List.not_mem_nil
  cases m with
  | begin =>
    simp only [Move.outcome] at ho
    split at ho
    · rename_i hphase
      cases ho
      cases hw
      unfold Orderly at h
      rw [hphase] at h
      exact ⟨⟨h.1,h.2,fun x hx => absurd hx List.not_mem_nil,fun _ => ⟨rfl,rfl⟩⟩,hnone⟩
    · contradiction
  | persist cmd =>
    simp only [Move.outcome] at ho
    split at ho
    · rename_i last appended staged hphase
      cases ho
      rw [persist_replies]
      exact ⟨persist_orderly hphase h cmd hw,hnone⟩
    · contradiction
  | commit =>
    simp only [Move.outcome] at ho
    split at ho
    · rename_i last appended staged hphase
      cases ho
      obtain ⟨horderly,hready,hall⟩:=commit_orderly hphase h hw
      exact ⟨horderly,fun x hx => ⟨hready,hall x hx⟩⟩
    · contradiction
  | ack acks receipts =>
    simp only [Move.outcome] at ho
    split at ho
    · rename_i p hphase hp
      cases ho
      rw [ack_replies]
      exact ⟨ack_orderly hphase h hp hw,hnone⟩
    · contradiction
  | settle =>
    simp only [Move.outcome] at ho
    split at ho
    · rename_i seq hphase
      cases ho
      rw [settle_replies]
      exact ⟨settle_orderly hphase h hw,hnone⟩
    · contradiction
  | stop =>
    simp only [Move.outcome] at ho
    split at ho
    · cases ho
      rw [stop_worker] at hw
      contradiction
    · contradiction

/-- The completion of the last pending record leaves its checkpoint segment beside an active
segment with bytes that no sync has covered. -/
def Strains (identity : Identity) (d : Disk ℕ) (worker : Worker) (d' : Disk ℕ) : Move → Prop
  | .ack acks receipts => ∃ p, worker.wal.pending.head? = some p ∧
    Exposed d worker.wal (.ack identity.receiver identity.sender p.record.seq acks receipts) d'
  | _ => False

theorem nothing_tidy {w : WalInner} (hd : d.Level w.segId) : (Disk.Stopped [] d d' → d'.Tidy) ∧
    (Disk.Completed [] d d' → d'.Level w.segId) := by
  constructor
  · rintro rfl
    exact hd.tidy
  · intro hrun
    cases hrun
    exact hd

section
variable (hd : d.Level worker.wal.segId)
include hd

theorem move_stopped {m : Move} (ho : m.outcome env limits segmentMax identity d worker=some o)
    (hrun : Disk.Stopped o.effects d d') : d'.Named ∧ (¬ Strains identity.toIdentity d worker d' m → d'.Tidy) := by
  have htidy : d'.Tidy → d'.Named ∧ (¬ Strains identity.toIdentity d worker d' m → d'.Tidy) :=
    fun h => ⟨h.named,fun _ => h⟩
  have hsync : ∀ plan, worker.wal.sync=.ok plan → Disk.Stopped plan.effects d d' → d'.Tidy := by
    intro plan hplan hstop
    exact (sync_tidy hd hplan).2.1 hstop
  cases m with
  | begin =>
    simp only [Move.outcome] at ho
    split at ho
    · cases ho
      exact htidy ((nothing_tidy hd).1 hrun)
    · contradiction
  | persist cmd =>
    simp only [Move.outcome] at ho
    split at ho
    · cases ho
      unfold Worker.persist at hrun
      split at hrun
      · exact htidy ((nothing_tidy hd).1 hrun)
      · rename_i plan hplan
        have hstop : Disk.Stopped plan.effects d d' := by
          split at hrun
          · exact hrun
          · exact hrun
        rcases appendForGroup_split hplan with ⟨n,-,rfl⟩ | ⟨-,-,happend⟩
        · exact htidy ((nothing_tidy hd).1 hstop)
        · exact htidy ((append_tidy hd happend).1 hstop)
    · contradiction
  | commit =>
    simp only [Move.outcome] at ho
    split at ho
    · cases ho
      unfold Worker.commit at hrun
      split at hrun
      · exact htidy ((nothing_tidy hd).1 hrun)
      · split at hrun
        · exact htidy ((nothing_tidy hd).1 hrun)
        · exact htidy (hsync _ ‹_› hrun)
    · contradiction
  | ack acks receipts =>
    simp only [Move.outcome] at ho
    split at ho
    · rename_i p hphase hp
      cases ho
      unfold Worker.ack at hrun
      split at hrun
      · exact htidy ((nothing_tidy hd).1 hrun)
      · rename_i plan hplan
        have hstop : Disk.Stopped plan.effects d d' := by
          split at hrun
          · exact hrun
          · exact hrun
        obtain ⟨hnamed,hsafe⟩:=(ack_tidy hd hplan).1 hstop
        exact ⟨hnamed,fun hstrain => hsafe fun hexposed => hstrain ⟨p,hp,hexposed⟩⟩
    · contradiction
  | settle =>
    simp only [Move.outcome] at ho
    split at ho
    · cases ho
      unfold Worker.settle at hrun
      split at hrun
      · exact htidy ((nothing_tidy hd).1 hrun)
      · exact htidy (hsync _ ‹_› hrun)
    · contradiction
  | stop =>
    simp only [Move.outcome] at ho
    split at ho
    · cases ho
      unfold Worker.stop at hrun
      split at hrun
      · exact htidy ((nothing_tidy hd).1 hrun)
      · exact htidy (hsync _ ‹_› hrun)
    · contradiction

theorem persist_completed {cmd : Command}
    (hw : (worker.persist env limits segmentMax identity last appended staged cmd).worker=some worker')
    (hrun : Disk.Completed (worker.persist env limits segmentMax identity last appended staged cmd).effects d d') :
    d'.Level worker'.wal.segId := by
  unfold Worker.persist at hw hrun
  cases hplan : appendForGroup env limits segmentMax worker.wal identity.toIdentity cmd
      ((checkedAdd last 1).getD 0) with
  | error e =>
    rw [hplan] at hw hrun
    dsimp only at hw
    split at hw
    · contradiction
    · cases hw
      exact (nothing_tidy hd).2 hrun
  | ok plan =>
    rw [hplan] at hw hrun
    have hlevel : Disk.Completed plan.effects d d' → d'.Level plan.wal.segId := by
      intro hdone
      rcases appendForGroup_split hplan with ⟨n,-,rfl⟩ | ⟨-,-,happend⟩
      · exact (nothing_tidy hd).2 hdone
      · exact (append_tidy hd happend).2 hdone
    dsimp only at hw hrun
    cases hresult : plan.result with
    | error e =>
      rw [hresult] at hw hrun
      dsimp only at hw
      split at hw
      · contradiction
      · cases hw
        exact hlevel hrun
    | ok x =>
      rw [hresult] at hw hrun
      cases hw
      exact hlevel hrun

theorem ack_completed {acks : Order (Stream × ℕ)} {receipts : Order Receipt}
    {r : WalRecord} (hw : (worker.ack env limits identity d acks receipts r).worker=some worker')
    (hrun : Disk.Completed (worker.ack env limits identity d acks receipts r).effects d d') :
    d'.Level worker'.wal.segId := by
  unfold Worker.ack at hw hrun
  cases hplan : Wal.ack env limits (d.dir.map Prod.fst) acks receipts worker.wal identity.receiver
      identity.sender r.seq with
  | error e =>
    rw [hplan] at hw
    contradiction
  | ok plan =>
    rw [hplan] at hw hrun
    dsimp only at hw hrun
    cases hresult : plan.result with
    | error e =>
      rw [hresult] at hw
      contradiction
    | ok u =>
      rw [hresult] at hw hrun
      cases hw
      exact (ack_tidy hd hplan).2 hrun hresult

theorem commit_completed (hw : (worker.commit last appended staged).worker=some worker')
    (hrun : Disk.Completed (worker.commit last appended staged).effects d d') : d'.Level worker'.wal.segId ∧
    ((worker.commit last appended staged).replies≠[] → d'.Covered) := by
  unfold Worker.commit at hw hrun ⊢
  split at hw
  · rename_i hnil
    rw [if_pos hnil] at hrun ⊢
    cases hw
    exact ⟨(nothing_tidy hd).2 hrun,fun h => absurd rfl h⟩
  · rename_i hne
    rw [if_neg hne] at hrun ⊢
    cases hsync : worker.wal.sync with
    | error e =>
      rw [hsync] at hw
      contradiction
    | ok plan =>
      rw [hsync] at hw hrun
      obtain ⟨hwal,-,hdone⟩:=@sync_tidy d d' worker.wal plan hd hsync
      obtain ⟨hlevel,hcovered⟩:=hdone hrun
      cases hw
      dsimp only
      rw [hwal]
      exact ⟨hlevel,fun _ => hcovered⟩

theorem settle_completed {seq : ℕ} (hw : (worker.settle seq).worker=some worker')
    (hrun : Disk.Completed (worker.settle seq).effects d d') : d'.Level worker'.wal.segId := by
  unfold Worker.settle at hw hrun
  cases hsync : worker.wal.sync with
  | error e =>
    rw [hsync] at hw
    contradiction
  | ok plan =>
    rw [hsync] at hw hrun
    obtain ⟨hwal,-,hdone⟩:=@sync_tidy d d' worker.wal plan hd hsync
    cases hw
    dsimp only
    rw [hwal]
    exact (hdone hrun).1

theorem move_completed {m : Move}
    (ho : m.outcome env limits segmentMax identity d worker=some o) (hw : o.worker=some worker')
    (hrun : Disk.Completed o.effects d d') : d'.Level worker'.wal.segId ∧ (o.replies≠[] → d'.Covered) := by
  cases m with
  | begin =>
    simp only [Move.outcome] at ho
    split at ho
    · cases ho
      cases hw
      exact ⟨(nothing_tidy hd).2 hrun,fun h => absurd rfl h⟩
    · contradiction
  | persist cmd =>
    simp only [Move.outcome] at ho
    split at ho
    · cases ho
      exact ⟨persist_completed hd hw hrun,by simp⟩
    · contradiction
  | commit =>
    simp only [Move.outcome] at ho
    split at ho
    · cases ho
      exact commit_completed hd hw hrun
    · contradiction
  | ack acks receipts =>
    simp only [Move.outcome] at ho
    split at ho
    · cases ho
      exact ⟨ack_completed hd hw hrun,by simp⟩
    · contradiction
  | settle =>
    simp only [Move.outcome] at ho
    split at ho
    · cases ho
      exact ⟨settle_completed hd hw hrun,by simp⟩
    · contradiction
  | stop =>
    simp only [Move.outcome] at ho
    split at ho
    · cases ho
      rw [stop_worker] at hw
      contradiction
    · contradiction

end

end env

structure Life where
  disk : Disk ℕ
  worker : Option Worker

def Life.initial : Life := ⟨Disk.empty,none⟩

/- An effect stops at its budget: by an I/O error, by the end of the process, or, with
`crashed`, by one of the machine. -/
inductive Event where
  | opened (budget : ℕ)
  | move (m : Move) (budget : ℕ)
  | crashed (m : Move) (budget kept : ℕ) (cut : ℕ → ℕ)
  | cancelled
  | exit
  | crash (kept : ℕ) (cut : ℕ → ℕ)

section env
variable (env : WalEnv) (limits : WalLimits) (segmentMax : ℕ) (identity : BoundIdentity)

/-- `Wal::open` and `bind_and_recover`. -/
def Life.reopen (d : Disk ℕ) (budget : ℕ) : Option Life :=
  match openWithLimits env limits segmentMax d with
  | .error _ => none
  | .ok plan =>
    match d.exec budget plan.effects,bindAndRecover identity plan.wal with
    | (d',some _),.ok status => some ⟨d',some ⟨plan.wal,status,.ready⟩⟩
    | (d',_),_ => some ⟨d',none⟩

def Life.next (life : Life) : Event → Option Life
  | .opened budget => if life.worker.isSome then none else Life.reopen env limits segmentMax identity life.disk budget
  | .move m budget => do
    let worker ← life.worker
    let o ← m.outcome env limits segmentMax identity life.disk worker
    match life.disk.exec budget o.effects with
    | (d',some _) => return ⟨d',o.worker⟩
    | (d',none) => return ⟨d',none⟩
  | .crashed m budget kept cut => do
    let worker ← life.worker
    let o ← m.outcome env limits segmentMax identity life.disk worker
    return ⟨(life.disk.exec budget o.effects).1.crash kept cut,none⟩
  -- the command of a submitter that has gone is passed over
  | .cancelled => some life
  | .exit => some ⟨life.disk,none⟩
  | .crash kept cut => some ⟨life.disk.crash kept cut,none⟩

def Life.Step (Allowed : Life → Event → Life → Prop) (a b : Life) : Prop :=
  ∃ e, a.next env limits segmentMax identity e=some b ∧ Allowed a e b

abbrev Life.Run (Allowed : Life → Event → Life → Prop) (life : Life) : Prop :=
  Relation.ReflTransGen (Life.Step env limits segmentMax identity Allowed) Life.initial life

/-- No completion is stopped between its checkpoint segment and an unsynced active one. -/
def Careful (a : Life) (e : Event) (b : Life) : Prop :=
  ∀ m budget worker, e=.move m budget → a.worker=some worker → ¬ Strains identity.toIdentity a.disk worker b.disk m

/-- What is pending are the numbers from `last_acked + 1` to `last_enqueued`. -/
structure GapFree (worker : Worker) : Prop where
  acked_le : worker.status.lastAcked≤worker.status.lastEnqueued
  pending : worker.wal.pending.map (fun p => p.record.seq) =
    List.range' (worker.status.lastAcked+1) (worker.status.lastEnqueued-worker.status.lastAcked)
  stream : ∀ p∈worker.wal.pending, p.record.stream=identity.toIdentity.stream
  count : worker.status.pending=worker.wal.pending.length

/-- The submitter of a command is told its number when the disk is `d`: no crash can lose
what the log says, and the log has the number. -/
structure Told (d : Disk ℕ) (worker : Worker) (x : ℕ × Command) : Prop where
  covered : d.Covered
  reopened : ∀ kept cut, openWithLimits env limits segmentMax (d.crash kept cut) =
    openWithLimits env limits segmentMax d
  logged : x.1≤worker.status.lastAcked ∨ ∃ p∈worker.wal.pending, p.record.seq=x.1
  plain : x.2.requestId=none → ∃ p∈worker.wal.pending, p.record=identity.toIdentity.record x.2 x.1

/-- The stream of a worker has no gaps, and whoever it answers is told no more than is safe. -/
structure Honest (d : Disk ℕ) (worker : Worker) : Prop where
  stream : worker.phase=.ready → GapFree identity worker
  replies : ∀ (m : Move) (o : Outcome) (budget left : ℕ) (d' : Disk ℕ),
    m.outcome env limits segmentMax identity d worker=some o → d.exec budget o.effects=(d',some left) →
    ∀ x∈o.replies, ∃ worker', o.worker=some worker' ∧ worker'.phase=.ready ∧ GapFree identity worker' ∧
      Told env limits segmentMax identity d' worker' x

def Life.Ordered (life : Life) : Prop := ∀ worker, life.worker=some worker → Orderly identity.toIdentity worker

def Life.Inv (life : Life) : Prop :=
  match life.worker with
  | none => life.disk.Tidy
  | some worker => life.disk.Level worker.wal.segId

variable {env limits segmentMax identity} {life life' : Life} {worker : Worker} {d : Disk ℕ}

theorem covered_open (h : d.Covered) (kept : ℕ) (cut : ℕ → ℕ) :
    openWithLimits env limits segmentMax (d.crash kept cut)=openWithLimits env limits segmentMax d := by
  obtain ⟨hdir,hread⟩:=h.crash_read kept cut
  have hread' : (d.crash kept cut).read=d.read := funext hread
  unfold openWithLimits readSegments
  rw [hdir,hread']

theorem Orderly.gapFree (h : Orderly identity.toIdentity worker) (hphase : worker.phase=.ready) :
    GapFree identity worker := by
  unfold Orderly at h
  rw [hphase] at h
  exact ⟨h.1.acked_le,h.1.pending,h.1.stream,h.2⟩

/-! #### The numbers, in any run -/

theorem reopen_ordered {budget : ℕ} (h : Life.reopen env limits segmentMax identity d budget=some life) :
    life.Ordered identity := by
  intro worker hworker
  unfold Life.reopen at h
  split at h
  · contradiction
  · split at h
    · rename_i d' left status hrun hbind
      cases h
      cases hworker
      exact bindAndRecover_gapless hbind
    · cases h
      contradiction

theorem next_ordered (hord : life.Ordered identity) {e : Event}
    (h : life.next env limits segmentMax identity e=some life') : life'.Ordered identity := by
  have hnone : ∀ d, Life.Ordered identity ⟨d,none⟩ := fun d worker hworker => by contradiction
  cases e with
  | opened budget =>
    simp only [Life.next] at h
    split at h
    · contradiction
    · exact reopen_ordered h
  | move m budget =>
    obtain ⟨worker,hworker,h⟩:=Option.bind_eq_some_iff.mp h
    obtain ⟨o,ho,h⟩:=Option.bind_eq_some_iff.mp h
    split at h
    · cases h
      intro worker' hw
      exact (move_orderly (hord worker hworker) ho hw).1
    · cases h
      exact hnone _
  | crashed m budget kept cut =>
    obtain ⟨worker,hworker,h⟩:=Option.bind_eq_some_iff.mp h
    obtain ⟨o,ho,h⟩:=Option.bind_eq_some_iff.mp h
    cases h
    exact hnone _
  | cancelled =>
    cases h
    exact hord
  | exit | crash =>
    cases h
    exact hnone _

theorem run_ordered {Allowed : Life → Event → Life → Prop} (hrun : Life.Run env limits segmentMax identity Allowed life) :
    life.Ordered identity := by
  induction hrun with
  | refl => exact fun worker hworker => by contradiction
  | tail _ hstep ih =>
    obtain ⟨e,hnext,-⟩:=hstep
    exact next_ordered ih hnext

/-! #### The disk, in a careful run -/

theorem Life.Inv.tidy (h : life.Inv) : life.disk.Tidy := by
  unfold Life.Inv at h
  split at h
  · exact h
  · exact h.tidy

theorem reopen_inv {budget : ℕ} (hd : d.Tidy)
    (h : Life.reopen env limits segmentMax identity d budget=some life) : life.Inv := by
  unfold Life.reopen at h
  split at h
  · contradiction
  · rename_i plan hopen
    split at h
    · rename_i d' left status hrun hbind
      cases h
      exact (open_tidy hd hopen).2 (Disk.exec_completed hrun)
    · rename_i d' left x hrun hfail
      cases h
      exact (open_tidy hd hopen).1 (Disk.exec_stopped hrun)

theorem next_inv (hinv : life.Inv) {e : Event} (h : life.next env limits segmentMax identity e=some life')
    (hsafe : Careful identity life e life') : life'.Inv := by
  have hnamed:=hinv.tidy.named
  cases e with
  | opened budget =>
    simp only [Life.next] at h
    split at h
    · contradiction
    · exact reopen_inv hinv.tidy h
  | move m budget =>
    obtain ⟨worker,hworker,h⟩:=Option.bind_eq_some_iff.mp h
    obtain ⟨o,ho,h⟩:=Option.bind_eq_some_iff.mp h
    have hstrain:=hsafe m budget worker rfl hworker
    unfold Life.Inv at hinv
    rw [hworker] at hinv
    cases hrun : life.disk.exec budget o.effects with
    | mk d' left =>
      rw [hrun] at h
      have hdone : ∀ n, left=some n → Disk.Completed o.effects life.disk d' := by
        intro n hn
        exact Disk.exec_completed (hn ▸ hrun)
      cases left with
      | none =>
        cases h
        exact (move_stopped hinv ho (Disk.exec_stopped hrun)).2 hstrain
      | some n =>
        cases h
        cases hw : o.worker with
        | none =>
          unfold Life.Inv
          dsimp only
          exact (move_stopped hinv ho (Disk.exec_stopped hrun)).2 hstrain
        | some worker' =>
          unfold Life.Inv
          dsimp only
          exact (move_completed hinv ho hw (hdone n rfl)).1
  | crashed m budget kept cut =>
    obtain ⟨worker,hworker,h⟩:=Option.bind_eq_some_iff.mp h
    obtain ⟨o,ho,h⟩:=Option.bind_eq_some_iff.mp h
    cases h
    unfold Life.Inv at hinv
    rw [hworker] at hinv
    exact Disk.Tidy.crash (move_stopped hinv ho (Disk.exec_stopped rfl)).1 kept cut
  | cancelled =>
    cases h
    exact hinv
  | exit =>
    cases h
    exact hinv.tidy
  | crash kept cut =>
    cases h
    exact Disk.Tidy.crash hnamed kept cut

theorem run_level (hrun : Life.Run env limits segmentMax identity (Careful identity) life) : life.Inv := by
  induction hrun with
  | refl => exact Disk.empty_tidy
  | tail _ hstep ih =>
    obtain ⟨e,hnext,hsafe⟩:=hstep
    exact next_inv ih hnext hsafe

theorem gap_free (hrun : Life.Run env limits segmentMax identity (Careful identity) life)
    (hworker : life.worker=some worker) : Honest env limits segmentMax identity life.disk worker := by
  have hinv:=run_level hrun
  unfold Life.Inv at hinv
  rw [hworker] at hinv
  have horderly:=run_ordered hrun worker hworker
  refine ⟨horderly.gapFree,?_⟩
  intro m o budget left d' ho hexec x hx
  have hne : o.replies≠[] := List.ne_nil_of_mem hx
  obtain ⟨worker',hw⟩:=replies_worker ho hne
  obtain ⟨horderly',hall⟩:=move_orderly horderly ho hw
  obtain ⟨hphase,hanswers⟩:=hall x hx
  have hcovered:=(move_completed hinv ho hw (Disk.exec_completed hexec)).2 hne
  have hgap:=horderly'.gapFree hphase
  refine ⟨worker',hw,hphase,hgap,hcovered,covered_open hcovered,?_,hanswers.plain⟩
  unfold Orderly at horderly'
  rw [hphase] at horderly'
  exact horderly'.1.found hanswers.le

def play (env : WalEnv) (limits : WalLimits) (segmentMax : ℕ) (identity : BoundIdentity) (events : List Event) :
    Option Life := events.foldlM (Life.next env limits segmentMax identity) Life.initial

theorem play_run {Allowed : Life → Event → Life → Prop} {events : List Event}
    (h : play env limits segmentMax identity events=some life) (hall : ∀ a, ∀ e∈events, ∀ b, Allowed a e b) :
    Life.Run env limits segmentMax identity Allowed life := by
  unfold play at h
  unfold Life.Run
  generalize Life.initial=start at h ⊢
  induction events generalizing start with
  | nil =>
    cases h
    exact Relation.ReflTransGen.refl
  | cons e rest ih =>
    rw [List.foldlM_cons] at h
    obtain ⟨next,hnext,hrest⟩:=Option.bind_eq_some_iff.mp h
    have htail:=ih (fun a e' he' b => hall a e' (List.mem_cons_of_mem e he') b) next hrest
    exact htail.head ⟨e,hnext,hall start e List.mem_cons_self next⟩

end env

def fewLimits : WalLimits := ⟨1024,65536,4,8,4096,4,4096,8,65536⟩
def keyedIdentity : BoundIdentity := ⟨⟨"node","/user/a","session"⟩,2,false,"source"⟩
def keyedCommand : Command := ⟨none,some "order-1","app::Order",[]⟩

def stagedEvents : List Event := [.opened 2,.move .begin 0,.move (.persist keyedCommand) 100]

def stagedLife : Life := (play WalEnv.standard fewLimits 4096 keyedIdentity stagedEvents).getD Life.initial

def idleWorker : Worker := ⟨⟨⟨∅,0,[],0,.empty⟩,0,0,0,0,true⟩,⟨0,0,0,0,0,0⟩,.ready⟩

theorem getD_of_isSome {α : Type} {o : Option α} {a : α} (h : o.isSome=true) : o=some (o.getD a) := by
  obtain ⟨b,rfl⟩:=Option.isSome_iff_exists.mp h
  rfl

theorem gap_free_staged : Honest WalEnv.standard fewLimits 4096 keyedIdentity stagedLife.disk
    (stagedLife.worker.getD idleWorker) := by
  have hlife : play WalEnv.standard fewLimits 4096 keyedIdentity stagedEvents=some stagedLife :=
    getD_of_isSome (by decide +kernel)
  refine gap_free (play_run hlife ?_) (getD_of_isSome (by decide +kernel))
  intro a e he b m budget worker hmove _
  subst hmove
  simp only [stagedEvents,List.mem_cons,List.not_mem_nil,or_false,reduceCtorEq,Event.move.injEq,false_or] at he
  rcases he with ⟨rfl,-⟩ | ⟨rfl,-⟩
  · exact id
  · exact id

/- The sync of the group fails. Opened again, the outbox delivers the record, and the process
ends when the checkpoint segment was created. Opened once more, it is asked for the record
a second time, and syncs the segment that does not have it. -/
def strainedEvents : List Event := stagedEvents++[.move .commit 0,.opened 1,
  .move (.ack (.stored _) (.stored _)) 1,.opened 1,.move .begin 0,.move (.persist keyedCommand) 100]

def strainedLife : Life := (play WalEnv.standard fewLimits 4096 keyedIdentity strainedEvents).getD Life.initial
def strainedWorker : Worker := strainedLife.worker.getD idleWorker
def strainedOutcome : Outcome :=
  (Move.commit.outcome WalEnv.standard fewLimits 4096 keyedIdentity strainedLife.disk strainedWorker).getD ⟨[],none,[]⟩

set_option maxRecDepth 100000 in
theorem gap_free_strained : ¬ ∀ (env : WalEnv) (limits : WalLimits) (segmentMax : ℕ) (identity : BoundIdentity)
    (life : Life) (worker : Worker), Life.Run env limits segmentMax identity (fun _ _ _ => True) life →
    life.worker=some worker → Honest env limits segmentMax identity life.disk worker := by
  intro hclaim
  have hall : (play WalEnv.standard fewLimits 4096 keyedIdentity strainedEvents).isSome=true ∧
      strainedLife.worker.isSome=true ∧
      (Move.commit.outcome WalEnv.standard fewLimits 4096 keyedIdentity strainedLife.disk strainedWorker).isSome=true ∧
      (strainedLife.disk.exec 1 strainedOutcome.effects).2=some 0 ∧
      strainedOutcome.replies=[(1,keyedCommand)] ∧
      ¬ ∀ x∈CrashFs.current (strainedLife.disk.exec 1 strainedOutcome.effects).1.history,
        x.2.synced=x.2.data := by decide +kernel
  obtain ⟨hplay,hworker,ho,hleft,hreplies,hunsynced⟩:=hall
  have hexec : strainedLife.disk.exec 1 strainedOutcome.effects =
      ((strainedLife.disk.exec 1 strainedOutcome.effects).1,some 0) := by
    rw [← hleft]
  have hhonest:=hclaim WalEnv.standard fewLimits 4096 keyedIdentity strainedLife strainedWorker
    (play_run (getD_of_isSome hplay) fun _ _ _ _ => trivial) (getD_of_isSome hworker)
  obtain ⟨worker',-,-,-,htold⟩:=hhonest.replies .commit strainedOutcome 1 0 _ (getD_of_isSome ho) hexec (1,keyedCommand) (by
    rw [hreplies]
    exact List.mem_singleton_self _)
  exact hunsynced htold.covered.synced

end Parrot.Outbox
