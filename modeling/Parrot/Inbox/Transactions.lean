import Parrot.Inbox.Snapshot

/-! # Transactions of the inbox (`durable/inbox.rs:502-600`)

Runs of a receiver: opening, messages with any function of the user and any failure of the disk,
closing and crashes. -/

namespace Parrot.Inbox
open Machine CrashFs
open Wal (checksum)

section admission
variable (limits : InboxLimits)

/-- What `apply` decides before it calls the user's function; nothing is a replay. -/
def Store.screen (store : Store) (e : DurableEnvelope) : Except InboxError (Option Saved) := do
  if e.receiver≠store.saved.node ∨ e.path≠store.saved.path then
    .error (.invalid "receiver binding mismatch")
  else
    let watermark:=store.saved.watermark e.key
    if e.sequence≤watermark then return none
    else
      match checkedAdd watermark 1 with
      | none => .error (.invalid "stream exhausted")
      | some next =>
        if e.sequence≠next then .error (.gap next e.sequence)
        else
          let saved:={store.saved with streams:=SortedMap.insert e.key e.sequence store.saved.streams}
          saved.validate limits
          match checkedAdd saved.revision 1 with
          | none => .error (.invalid "revision exhausted")
          | some revision => return some {saved with revision:=revision}

def Saved.finish (limits : InboxLimits) (saved : Saved) : Verdict → Except InboxError (Option Saved)
  | .refused reason => .error (.business (String.ofList (reason.toList.take 1024)))
  | .panicked => .error (.business "transition panicked")
  | .next state => do
    let saved:={saved with state:=state}
    saved.validate limits
    return some saved

def Store.runs (store : Store) (e : DurableEnvelope) : Bool :=
  match store.screen limits e with
  | .ok (some _) => true
  | _ => false

end admission

variable {limits : InboxLimits} {node path : String} {store : Store} {e : DurableEnvelope} {s : Saved}

theorem advance_screen (transition : Transition) : store.advance limits transition e=(do
    match ← store.screen limits e with
    | none => return none
    | some saved => saved.finish limits (transition store.saved.state e)) := by
  unfold Store.advance Store.screen
  split
  · rfl
  · dsimp only
    split
    · rfl
    · cases checkedAdd (store.saved.watermark e.key) 1 with
      | none => rfl
      | some next =>
        dsimp only
        split
        · rfl
        · cases Saved.validate limits
              {store.saved with streams:=SortedMap.insert e.key e.sequence store.saved.streams} with
          | error err => rfl
          | ok _ =>
            cases checkedAdd store.saved.revision 1 with
            | none => rfl
            | some revision =>
              change _=Saved.finish ..
              cases transition store.saved.state e with
              | refused | panicked | next => rfl

theorem screen_some (h : store.screen limits e=.ok (some s)) :
    e.receiver=store.saved.node ∧ e.path=store.saved.path ∧ e.sequence=store.saved.watermark e.key+1 ∧
    e.sequence≤u64Max ∧ store.saved.revision+1≤u64Max ∧
    s={store.saved with
      streams := SortedMap.insert e.key e.sequence store.saved.streams
      revision := store.saved.revision+1} := by
  unfold Store.screen at h
  obtain ⟨hbound,h⟩:=Except.of_ite_left h
  push Not at hbound
  dsimp only at h
  split at h
  · cases Except.ok.inj h
  · cases hnext : checkedAdd (store.saved.watermark e.key) 1 with
    | none =>
      rw [hnext] at h
      contradiction
    | some next =>
      rw [hnext] at h
      dsimp only at h
      obtain ⟨hseq,h⟩:=Except.of_ite_left h
      obtain ⟨_,-,h⟩:=bind_eq_ok.mp h
      cases hrev : checkedAdd store.saved.revision 1 with
      | none =>
        rw [hrev] at h
        contradiction
      | some revision =>
        rw [hrev] at h
        obtain rfl:=Option.some.inj (Except.ok.inj h)
        obtain ⟨rfl,hmax⟩:=checkedAdd_eq_some.mp hnext
        obtain ⟨rfl,hrev_max⟩:=checkedAdd_eq_some.mp hrev
        have hseq:=not_not.mp hseq
        exact ⟨hbound.1,hbound.2,hseq,hseq ▸ hmax,hrev_max,rfl⟩

theorem screen_replay (h : e.sequence ≤ store.saved.watermark e.key) : store.runs limits e=false := by
  unfold Store.runs Store.screen
  split
  · rename_i saved hscreen
    obtain ⟨-,hscreen⟩:=Except.of_ite_left hscreen
    dsimp only at hscreen
    rw [if_pos h] at hscreen
    cases Except.ok.inj hscreen
  · rfl

variable {transition : Transition}

theorem advance_some (h : store.advance limits transition e=.ok (some s)) :
    ∃ saved state, store.screen limits e=.ok (some saved) ∧ transition store.saved.state e=.next state ∧
      s={saved with state:=state} ∧ s.validate limits=.ok () := by
  rw [advance_screen] at h
  obtain ⟨admitted,hscreen,h⟩:=bind_eq_ok.mp h
  cases admitted with
  | none => cases Except.ok.inj h
  | some saved =>
    dsimp only at h
    unfold Saved.finish at h
    split at h
    · contradiction
    · contradiction
    · rename_i state hstate
      obtain ⟨_,hvalid,h⟩:=bind_eq_ok.mp h
      obtain rfl:=Option.some.inj (Except.ok.inj h)
      exact ⟨saved,state,hscreen,hstate,rfl,hvalid⟩

def Marks (done : List (StreamKey × ℕ)) (s : Saved) : Prop := ∀ p∈done, p.2 ≤ s.watermark p.1

def Covers (s s' : Saved) : Prop := ∀ key, s.watermark key ≤ s'.watermark key

theorem Marks.covers {done : List (StreamKey × ℕ)} {s' : Saved} (h : Marks done s) (hs : Covers s s') :
    Marks done s' := fun p hp => (h p hp).trans (hs p.1)

theorem Covers.refl (s : Saved) : Covers s s := fun _ => le_rfl

theorem Marks.cons {done : List (StreamKey × ℕ)} {key : StreamKey} {n : ℕ} (h : Marks done s)
    (hn : n ≤ s.watermark key) : Marks ((key,n)::done) s := by
  intro p hp
  rcases List.mem_cons.mp hp with rfl | hp
  · exact hn
  · exact h p hp

theorem initial_sound {initial : Bytes} (h : (Saved.initial node path initial).validate limits=.ok ()) :
    Sound limits node path (Saved.initial node path initial) where
  version := rfl
  node := rfl
  path := rfl
  revision := Nat.zero_le _
  valid := h
  sequences := fun _ hp => absurd hp List.not_mem_nil
  sorted := List.Pairwise.nil

theorem screen_watermark (h : store.screen limits e=.ok (some s)) (key : StreamKey) :
    s.watermark key=if key=e.key then e.sequence else store.saved.watermark key := by
  obtain ⟨-,-,-,-,-,rfl⟩:=screen_some h
  unfold Saved.watermark
  rw [SortedMap.lookup_insert]
  split
  · rfl
  · rfl

theorem advance_covers (h : store.advance limits transition e=.ok (some s)) :
    Covers store.saved s ∧ e.sequence=s.watermark e.key := by
  obtain ⟨saved,state,hscreen,-,rfl,-⟩:=advance_some h
  obtain ⟨-,-,hseq,-⟩:=screen_some hscreen
  have hmark:=screen_watermark hscreen
  constructor
  · intro key
    change _ ≤ saved.watermark key
    rw [hmark]
    split
    · rename_i heq
      rw [heq]
      omega
    · exact le_rfl
  · change _=saved.watermark e.key
    rw [hmark,if_pos rfl]

theorem advance_sound (h : store.advance limits transition e=.ok (some s))
    (hs : Sound limits node path store.saved) : Sound limits node path s := by
  obtain ⟨saved,state,hscreen,-,rfl,hvalid⟩:=advance_some h
  obtain ⟨-,-,-,hmax,hrevision,rfl⟩:=screen_some hscreen
  refine ⟨hs.version,hs.node,hs.path,hrevision,hvalid,?_,SortedMap.sorted_insert _ _ hs.sorted⟩
  intro p hp
  rcases SortedMap.mem_insert _ _ _ hp with rfl | hp
  · exact hmax
  · exact hs.sequences p hp

variable {d : Disk InboxFile} {P : Option Saved → Prop}

variable {budget : ℕ}

theorem write_size (h : (store.write .bounded limits budget s d).result ≠ .error .capacity) :
    12+(savedCodec.encode s).length≤limits.maxSnapshotBytes := by
  unfold Store.write at h
  split at h
  · exact absurd rfl h
  · rename_i hsize
    exact Nat.not_lt.mp hsize

variable {d' : Disk InboxFile}

theorem write_ok {store' : Store} (h : store.write .bounded limits budget s d=⟨d',store',.ok ()⟩) : store'=store := by
  unfold Store.write at h
  split at h
  · cases h
  · split at h
    · cases h
    · cases h
      rfl

theorem open_ok {initial : Bytes}
    (h : Store.open .bounded limits node path initial budget d=(d',.ok store)) : store.failed=false ∧
    ((∃ bytes, d.read .state=some bytes ∧ accept .bounded limits node path bytes=.ok store.saved) ∨
      d.read .state=none ∧ store.saved=Saved.initial node path initial ∧
        Written limits node path (Saved.initial node path initial)) := by
  unfold Store.open at h
  split at h
  · rename_i bytes hread
    split at h
    · cases (Prod.mk.inj h).2
    · rename_i saved haccept
      dsimp only at h
      split at h
      · cases (Prod.mk.inj h).2
      · obtain ⟨-,h⟩:=Prod.mk.inj h
        cases h
        exact ⟨rfl,.inl ⟨bytes,hread,haccept⟩⟩
  · rename_i hread
    split at h
    · cases (Prod.mk.inj h).2
    · dsimp only at h
      split at h
      · cases (Prod.mk.inj h).2
      · rename_i _ hvalid
        split at h
        · cases (Prod.mk.inj h).2
        · rename_i d1 store' hwrite
          obtain ⟨-,h⟩:=Prod.mk.inj h
          cases h
          have hsame:=write_ok hwrite
          have hsize:=@write_size limits ⟨Saved.initial node path initial,false⟩ (Saved.initial node path initial) d
            budget (by rw [hwrite]; simp)
          rw [hsame]
          exact ⟨rfl,.inr ⟨hread,rfl,initial_sound hvalid,hsize⟩⟩

theorem open_unwritten {initial : Bytes} (h : Keeps .bounded d P)
    (hinitial : ¬ Written limits node path (Saved.initial node path initial)) (budget : ℕ) :
    Keeps .bounded (Store.open .bounded limits node path initial budget d).1 P := by
  unfold Store.open
  split
  · split
    · exact h
    · dsimp only
      split
      · rename_i hexec
        exact (tidy_keeps (s := Saved.initial node path initial) h hexec).1
      · rename_i hexec
        exact (tidy_keeps (s := Saved.initial node path initial) h hexec).1
  · split
    · exact h
    · dsimp only
      split
      · exact h
      · rename_i _ hvalid
        have hsize : 12+(InboxCodec.bounded.encode (Saved.initial node path initial)).length >
            limits.maxSnapshotBytes := by
          refine Nat.lt_of_not_le ?_
          exact fun hle => hinitial ⟨initial_sound hvalid,hle⟩
        simp only [Store.write,if_pos hsize]
        exact h

structure Sys where
  disk : Disk InboxFile
  store : Option Store
  done : List (StreamKey × ℕ)

def Sys.initial : Sys := ⟨Disk.empty,none,[]⟩

/-- The messages that have succeeded after one more call. -/
def doneAfter (done : List (StreamKey × ℕ)) (e : DurableEnvelope) : Except InboxError Unit → List (StreamKey × ℕ)
  | .ok () => (e.key,e.sequence)::done
  | .error _ => done

section runs
variable (limits : InboxLimits) (node path : String)

inductive Step : Sys → Sys → Prop where
  | opened {s : Sys} {initial : Bytes} {budget : ℕ} {d' : Disk InboxFile} {store : Store} (hclosed : s.store=none)
    (hopen : Store.open .bounded limits node path initial budget s.disk=(d',.ok store)) :
    Step s ⟨d',some store,s.done⟩
  | refused {s : Sys} {initial : Bytes} {budget : ℕ} {d' : Disk InboxFile} {err : InboxError}
    (hclosed : s.store=none)
    (hopen : Store.open .bounded limits node path initial budget s.disk=(d',.error err)) :
    Step s ⟨d',none,s.done⟩
  | applied {s : Sys} {store : Store} {transition : Transition} {budget : ℕ} {e : DurableEnvelope} {r : Outcome}
    (hopen : s.store=some store) (happly : store.apply .bounded limits transition budget e s.disk=r) :
    Step s ⟨r.disk,some r.store,doneAfter s.done e r.result⟩
  | closed {s : Sys} : Step s ⟨s.disk,none,s.done⟩
  | crashed {s : Sys} (kept : ℕ) (cut : ℕ → ℕ) : Step s ⟨s.disk.crash kept cut,none,s.done⟩

abbrev Run (s : Sys) : Prop := Relation.ReflTransGen (Step limits node path) Sys.initial s

def Held (done : List (StreamKey × ℕ)) (o : Option Saved) : Prop :=
  o=none ∧ done=[] ∨ ∃ s, o=some s ∧ Written limits node path s ∧ Marks done s

structure Live (d : Disk InboxFile) (done : List (StreamKey × ℕ)) (store : Store) : Prop where
  written : Written limits node path store.saved
  marks : Marks done store.saved
  keeps : Keeps .bounded d fun o => ∃ s, o=some s ∧ Written limits node path s ∧ Covers store.saved s
  current : store.failed=false → Keeps .bounded d (· = some store.saved)

def Inv (s : Sys) : Prop :=
  match s.store with
  | none => Keeps .bounded s.disk (Held limits node path s.done)
  | some store => Live limits node path s.disk s.done store

end runs

variable {done : List (StreamKey × ℕ)}

theorem Live.held (h : Live limits node path d done store) : Keeps .bounded d (Held limits node path done) := by
  refine h.keeps.imp ?_
  rintro o ⟨s,rfl,hs,hcovers⟩
  exact .inr ⟨s,rfl,hs,h.marks.covers hcovers⟩

theorem inv_held {s : Sys} (h : Inv limits node path s) : Keeps .bounded s.disk (Held limits node path s.done) := by
  unfold Inv at h
  split at h
  · exact h
  · exact h.held

theorem opened_live {initial : Bytes} (h : Keeps .bounded d (Held limits node path done))
    (hopen : Store.open .bounded limits node path initial budget d=(d',.ok store)) :
    Live limits node path d' done store := by
  obtain ⟨hfailed,hcase⟩:=open_ok hopen
  have hkeeps : Keeps .bounded d' (· = some store.saved) := by
    have hall:=(@open_keeps .bounded limits d _ node path initial budget h).2
    rw [hopen] at hall
    exact (hall store rfl).1
  have hstore : Written limits node path store.saved ∧ Marks done store.saved := by
    obtain ⟨o,ho,hread⟩:=h.read
    rcases hcase with ⟨bytes,hbytes,haccept⟩ | ⟨hnone,hsaved,hwritten⟩
    · rcases ho with ⟨rfl,-⟩ | ⟨x,rfl,hx,hmarks⟩
      · rw [hbytes] at hread
        contradiction
      · rw [hbytes] at hread
        cases hread
        rw [accept_image haccept]
        exact ⟨hx,hmarks⟩
    · rcases ho with ⟨-,rfl⟩ | ⟨x,rfl,-⟩
      · rw [hsaved]
        exact ⟨hwritten,fun p hp => absurd hp List.not_mem_nil⟩
      · rw [hnone] at hread
        contradiction
  refine ⟨hstore.1,hstore.2,hkeeps.imp ?_,fun _ => hkeeps⟩
  rintro o rfl
  exact ⟨store.saved,rfl,hstore.1,Covers.refl _⟩

variable {err : InboxError}

theorem refused_held {initial : Bytes} (h : Keeps .bounded d (Held limits node path done))
    (hopen : Store.open .bounded limits node path initial budget d=(d',.error err)) :
    Keeps .bounded d' (Held limits node path done) := by
  by_cases hinitial : Written limits node path (Saved.initial node path initial)
  · have hkeeps:=(@open_keeps .bounded limits d _ node path initial budget h).1
    rw [hopen] at hkeeps
    refine hkeeps.imp ?_
    rintro o (ho | ⟨hnone,rfl⟩)
    · exact ho
    · refine .inr ⟨_,rfl,hinitial,?_⟩
      rcases hnone with ⟨-,rfl⟩ | ⟨x,hx,-⟩
      · exact fun p hp => absurd hp List.not_mem_nil
      · contradiction
  · have hkeeps:=open_unwritten h hinitial budget
    rwa [hopen] at hkeeps

theorem checkStreams_error {streams : List (StreamKey × ℕ)} {size : ℕ}
    (h : checkStreams streams size=.error err) : err ≠ .io := by
  induction streams generalizing size with
  | nil => contradiction
  | cons x rest ih =>
    obtain ⟨key,seq⟩:=x
    simp only [checkStreams] at h
    split at h
    · cases h
      simp
    · split at h
      · cases h
        simp
      · exact ih h

theorem validate_error (h : s.validate limits=.error err) : err ≠ .io := by
  unfold Saved.validate at h
  cases hsize : checkStreams s.streams 0 with
  | error err' =>
    rw [hsize] at h
    cases h
    exact checkStreams_error hsize
  | ok size =>
    rw [hsize] at h
    simp only [bind,Except.bind] at h
    split at h
    · cases h
      simp
    · contradiction

theorem advance_error (h : store.advance limits transition e=.error err) : err ≠ .io := by
  unfold Store.advance at h
  split at h
  · cases h
    simp
  · dsimp only at h
    split at h
    · cases h
    · cases hnext : checkedAdd (store.saved.watermark e.key) 1 with
      | none =>
        rw [hnext] at h
        cases h
        simp
      | some next =>
        rw [hnext] at h
        dsimp only at h
        split at h
        · cases h
          simp
        · cases hvalid : Saved.validate limits
              {store.saved with streams:=SortedMap.insert e.key e.sequence store.saved.streams} with
          | error err' =>
            rw [hvalid] at h
            cases h
            exact validate_error hvalid
          | ok _ =>
            rw [hvalid] at h
            simp only [bind,Except.bind] at h
            cases hrev : checkedAdd store.saved.revision 1 with
            | none =>
              rw [hrev] at h
              cases h
              simp
            | some revision =>
              rw [hrev] at h
              dsimp only at h
              split at h
              · cases h
                simp
              · cases h
                simp
              · rename_i state _
                cases hvalid' : Saved.validate limits {store.saved with
                    streams := SortedMap.insert e.key e.sequence store.saved.streams
                    revision := revision
                    state := state} with
                | error err' =>
                  rw [hvalid'] at h
                  cases h
                  exact validate_error hvalid'
                | ok _ =>
                  rw [hvalid'] at h
                  cases h

inductive Applied (limits : InboxLimits) (node path : String) (d : Disk InboxFile) (store : Store)
    (transition : Transition) (e : DurableEnvelope) : Outcome → Prop where
  | refused (err : InboxError) (herr : err ≠ .io) : Applied limits node path d store transition e ⟨d,store,.error err⟩
  | replayed (hle : e.sequence ≤ store.saved.watermark e.key) :
    Applied limits node path d store transition e ⟨d,store,.ok ()⟩
  | failed (d' : Disk InboxFile) (s' : Saved) (hadvance : store.advance limits transition e=.ok (some s'))
    (hwritten : Written limits node path s')
    (hkeeps : Keeps .bounded d' fun o => ∃ s, o=some s ∧ Written limits node path s ∧ Covers store.saved s)
    (hcurrent : store.failed=false → Keeps .bounded d' fun o => o=some store.saved ∨ o=some s') :
    Applied limits node path d store transition e ⟨d',{store with failed:=true},.error .io⟩
  | committed (d' : Disk InboxFile) (s' : Saved) (hadvance : store.advance limits transition e=.ok (some s'))
    (hwritten : Written limits node path s') (hkeeps : Keeps .bounded d' (· = some s')) :
    Applied limits node path d store transition e ⟨d',{store with saved:=s'},.ok ()⟩

theorem apply_applied (h : Live limits node path d done store) (transition : Transition) (budget : ℕ)
    (e : DurableEnvelope) : Applied limits node path d store transition e
      (store.apply .bounded limits transition budget e d) := by
  unfold Store.apply
  cases hadvance : store.advance limits transition e with
  | error err => exact .refused err (advance_error hadvance)
  | ok next =>
    cases next with
    | none =>
      rcases advance_cases hadvance with ⟨-,hle⟩ | ⟨s',hs',-⟩
      · exact .replayed hle
      · contradiction
    | some s' =>
      have hsound:=advance_sound hadvance h.written.sound
      have hcovers:=(advance_covers hadvance).1
      dsimp only
      rcases @write_cases .bounded limits d s' store _ budget h.keeps with hrefused | ⟨d',hfailed,hkeeps⟩ | ⟨d',hdone,hkeeps⟩
      · rw [hrefused]
        exact .refused .capacity (by simp)
      · have hwritten : Written limits node path s' := ⟨hsound,write_size (by rw [hfailed]; simp)⟩
        rw [hfailed]
        refine .failed d' s' hadvance hwritten (hkeeps.imp ?_) ?_
        · rintro o (ho | rfl)
          · exact ho
          · exact ⟨s',rfl,hwritten,hcovers⟩
        · intro hlive
          rcases @write_cases .bounded limits d s' store _ budget (h.current hlive) with h1 | ⟨d1,h1,hkeeps1⟩ | ⟨d1,h1,-⟩
          · rw [hfailed] at h1
            cases congrArg Outcome.result h1
          · rw [hfailed] at h1
            obtain rfl:=congrArg Outcome.disk h1
            exact hkeeps1
          · rw [hfailed] at h1
            cases congrArg Outcome.result h1
      · have hwritten : Written limits node path s' := ⟨hsound,write_size (by rw [hdone]; simp)⟩
        rw [hdone]
        exact .committed d' s' hadvance hwritten hkeeps

theorem apply_live {r : Outcome} (h : Live limits node path d done store)
    (happly : Applied limits node path d store transition e r) :
    Live limits node path r.disk (doneAfter done e r.result) r.store := by
  cases happly with
  | refused err herr => exact h
  | replayed hle => exact ⟨h.written,h.marks.cons hle,h.keeps,h.current⟩
  | failed d' s' hadvance hwritten hkeeps hcurrent => exact ⟨h.written,h.marks,hkeeps,fun hfalse => by contradiction⟩
  | committed d' s' hadvance hwritten hkeeps =>
    obtain ⟨hcovers,hseq⟩:=advance_covers hadvance
    refine ⟨hwritten,(h.marks.covers hcovers).cons (le_of_eq hseq),hkeeps.imp ?_,fun _ => hkeeps⟩
    rintro o rfl
    exact ⟨s',rfl,hwritten,Covers.refl _⟩

theorem step_inv {s s' : Sys} (h : Inv limits node path s) (hstep : Step limits node path s s') :
    Inv limits node path s' := by
  have hheld:=inv_held h
  cases hstep with
  | opened hclosed hopen => exact opened_live hheld hopen
  | refused hclosed hopen => exact refused_held hheld hopen
  | applied hopen happly =>
    unfold Inv at h
    rw [hopen] at h
    rw [← happly]
    exact apply_live h (apply_applied h _ _ _)
  | closed => exact hheld
  | crashed kept cut => exact hheld.crash kept cut

theorem run_inv {s : Sys} (h : Run limits node path s) : Inv limits node path s := by
  induction h with
  | refl => exact empty_keeps (.inl ⟨rfl,rfl⟩)
  | tail _ hstep ih => exact step_inv ih hstep

/-- Whoever opens the directory gets a store with this snapshot. -/
def Reopens (limits : InboxLimits) (node path : String) (d : Disk InboxFile) (s : Saved) : Prop :=
  ∀ (initial : Bytes) (budget : ℕ), 4≤budget →
    ∃ d', Store.open .bounded limits node path initial budget d=(d',.ok ⟨s,false⟩)

theorem Keeps.reopens (hlimits : limits.validate=.ok ()) (h : Keeps .bounded d (· = some s))
    (hs : Written limits node path s) : Reopens limits node path d s := by
  intro initial budget hbudget
  obtain ⟨o,rfl,hread⟩:=h.read
  exact open_written hlimits hs hread initial hbudget

/-- An error of a call: memory is as it was, and so is the disk unless the write itself
failed, which leaves the old or the new snapshot. -/
structure Undone (limits : InboxLimits) (node path : String) (d : Disk InboxFile) (store : Store)
    (next : Except InboxError (Option Saved)) (r : Outcome) (err : InboxError) : Prop where
  memory : r.store.saved=store.saved
  refused : err ≠ .io → r.disk=d ∧ r.store=store
  stopped : err=.io → r.store.failed=true ∧ ∃ s, Reopens limits node path r.disk s ∧
    (store.failed=false → s=store.saved ∨ next=.ok (some s))

/-- In every run of a receiver a call that fails changes nothing but, when the write of
the snapshot fails, the file from the old snapshot to the new one; a message that has
succeeded does not run the user's function again; and what was written opens. -/
theorem transactions (hlimits : limits.validate=.ok ()) {s : Sys} (h : Run limits node path s) : (∀ bytes,
    s.disk.read .state=some bytes → ∃ x, Reopens limits node path s.disk x ∧ ∀ p∈s.done, p.2≤x.watermark p.1) ∧
    ∀ store, s.store=some store → (store.failed=false → Reopens limits node path s.disk store.saved) ∧
    (∀ e : DurableEnvelope, (e.key,e.sequence)∈s.done → store.runs limits e=false) ∧ ∀ (transition : Transition)
    (budget : ℕ) (e : DurableEnvelope) (r : Outcome), r=store.apply .bounded limits transition budget e s.disk →
    (r.result=.ok () → store.runs limits e=true → Reopens limits node path r.disk r.store.saved) ∧ ∀ err,
    r.result=.error err → Undone limits node path s.disk store (store.advance limits transition e) r err := by
  have hinv:=run_inv h
  constructor
  · intro bytes hbytes
    obtain ⟨o,ho,hread⟩:=(inv_held hinv).read
    rcases ho with ⟨rfl,-⟩ | ⟨x,rfl,hx,hmarks⟩
    · rw [hbytes] at hread
      contradiction
    · refine ⟨x,?_,hmarks⟩
      intro initial budget hbudget
      exact open_written hlimits hx hread initial hbudget
  · intro store hstore
    unfold Inv at hinv
    rw [hstore] at hinv
    have hlive : Live limits node path s.disk s.done store := hinv
    refine ⟨fun hfailed => (hlive.current hfailed).reopens hlimits hlive.written,?_,?_⟩
    · intro e he
      exact screen_replay (hlive.marks _ he)
    · intro transition budget e r hr
      have happly:=apply_applied hlive transition budget e
      rw [← hr] at happly
      cases happly with
      | refused err herr =>
        refine ⟨fun hok => by contradiction,?_⟩
        intro err' heq
        cases heq
        exact ⟨rfl,fun _ => ⟨rfl,rfl⟩,fun hio => absurd hio herr⟩
      | replayed hle =>
        refine ⟨?_,fun err heq => by contradiction⟩
        intro _ hruns
        rw [screen_replay hle] at hruns
        contradiction
      | failed d' s' hadvance hwritten hkeeps hcurrent =>
        refine ⟨fun hok => by contradiction,?_⟩
        intro err heq
        cases heq
        refine ⟨rfl,fun hio => absurd rfl hio,?_⟩
        intro _
        refine ⟨rfl,?_⟩
        by_cases hfailed : store.failed=false
        · obtain ⟨o,ho,hread⟩:=(hcurrent hfailed).read
          rcases ho with rfl | rfl
          · exact ⟨_,fun initial budget hbudget => open_written hlimits hlive.written hread initial hbudget,
              fun _ => .inl rfl⟩
          · exact ⟨_,fun initial budget hbudget => open_written hlimits hwritten hread initial hbudget,
              fun _ => .inr hadvance⟩
        · obtain ⟨o,⟨x,rfl,hx,-⟩,hread⟩:=hkeeps.read
          exact ⟨x,fun initial budget hbudget => open_written hlimits hx hread initial hbudget,
            fun hfalse => absurd hfalse hfailed⟩
      | committed d' s' hadvance hwritten hkeeps =>
        exact ⟨fun _ _ => hkeeps.reopens hlimits hwritten,fun err heq => by contradiction⟩

def small : InboxLimits := ⟨16,4096,4,64⟩
def smallStore : Store := ⟨Saved.initial "node" "/user/a" [],false⟩
def smallDisk : Disk InboxFile := (Store.open .bounded small "node" "/user/a" [] 1000 Disk.empty).1
def smallEnvelope : DurableEnvelope := ⟨"source","session","node","/user/a",1,"app::Order",[]⟩

theorem small_valid : small.validate=.ok () := by decide +kernel

theorem small_open : Store.open .bounded small "node" "/user/a" [] 1000 Disk.empty=(smallDisk,.ok smallStore) := by
  have hsaved : (Store.open .bounded small "node" "/user/a" [] 1000 Disk.empty).2.toOption.map Store.saved =
      some smallStore.saved := by decide +kernel
  cases hopen : Store.open .bounded small "node" "/user/a" [] 1000 Disk.empty with
  | mk d result =>
    rw [hopen] at hsaved
    cases result with
    | error err => contradiction
    | ok store =>
      have hfailed:=(open_ok hopen).1
      obtain ⟨saved,failed⟩:=store
      cases hsaved
      dsimp only at hfailed
      subst hfailed
      unfold smallDisk
      rw [hopen]
      rfl

theorem small_run : Run small "node" "/user/a" ⟨smallDisk,some smallStore,[]⟩ :=
  Relation.ReflTransGen.single (Step.opened rfl small_open)

theorem transactions_small : Reopens small "node" "/user/a" smallDisk smallStore.saved ∧
    ∀ err, (smallStore.apply .bounded small (fun _ _ => .panicked) 1000 smallEnvelope smallDisk).result=.error err →
      Undone small "node" "/user/a" smallDisk smallStore
        (smallStore.advance small (fun _ _ => .panicked) smallEnvelope)
        (smallStore.apply .bounded small (fun _ _ => .panicked) 1000 smallEnvelope smallDisk) err := by
  obtain ⟨hopen,-,hall⟩:=(transactions small_valid small_run).2 smallStore rfl
  exact ⟨hopen rfl,(hall _ _ _ _ rfl).2⟩

/- The write stops after the rename, before the directory is synced. -/
theorem transactions_renamed : ¬ ∀ (limits : InboxLimits) (node path : String) (s : Sys) (store : Store)
    (transition : Transition) (budget : ℕ) (e : DurableEnvelope) (err : InboxError),
    limits.validate=.ok () → Run limits node path s → s.store=some store →
    (store.apply .bounded limits transition budget e s.disk).result=.error err →
    (store.apply .bounded limits transition budget e s.disk).store.saved=store.saved ∧
      (store.apply .bounded limits transition budget e s.disk).disk.read .state=s.disk.read .state := by
  intro hclaim
  have hresult : (smallStore.apply .bounded small (fun _ _ => .next [1]) 49 smallEnvelope smallDisk).result =
      .error .io := by decide +kernel
  have hsame:=(hclaim small "node" "/user/a" _ smallStore (fun _ _ => .next [1]) 49 smallEnvelope .io small_valid
    small_run rfl hresult).2
  revert hsame
  decide +kernel

end Parrot.Inbox
