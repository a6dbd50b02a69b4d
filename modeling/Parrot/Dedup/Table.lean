import Parrot.Lib.Machine
import Parrot.Lib.OrderedMap
import Parrot.Lib.Watermark
import Mathlib.Data.String.Basic

/-! # The deduplication table (`durable/dedup.rs`)

One receiver's history of completed messages. Hash table capacity and its release are left out:
they are not part of the history. -/

namespace Parrot.Dedup
open Machine

structure DedupLimits where
  maxSenders : ℕ
  maxPendingSequences : ℕ
  maxSenderBytes : ℕ
  maxSenderLength : ℕ

def DedupLimits.default : DedupLimits := ⟨4096,65536,1024*1024,1024⟩

inductive DedupError where
  | invalidLimits
  | emptySender
  | zeroSequence
  | senderTooLong
  | senderLimit
  | senderBytesLimit
  | sequenceLimit
  | allocation

structure SenderState where
  watermark : ℕ
  gaps : Finset ℕ

def SenderState.default : SenderState := ⟨0,∅⟩

structure DedupTable where
  limits : DedupLimits
  senders : OrderedMap String SenderState
  pendingSequences : ℕ
  senderBytes : ℕ

/-- What `begin` reserves. The borrowed table is passed along with it. -/
structure DedupPermit where
  sender : String
  seq : ℕ
  fresh : Option (String × SenderState)
  reservedGap : Bool

inductive DedupDecision where
  | duplicate (watermark : ℕ)
  | process (permit : DedupPermit)

/- Which of the `try_reserve` calls would get memory. -/
structure Memory where
  key : Bool
  gaps : Bool
  senders : Bool

def withLimits (limits : DedupLimits) : Except DedupError DedupTable :=
  if ([limits.maxSenders,limits.maxPendingSequences,limits.maxSenderBytes,limits.maxSenderLength].any
      fun n => decide (n=0 ∨ n≥isizeMax)) ∨ limits.maxSenderLength>limits.maxSenderBytes then
    .error .invalidLimits
  else .ok ⟨limits,OrderedMap.empty,0,0⟩

namespace DedupTable

def watermark (t : DedupTable) (sender : String) : Option ℕ := (t.senders.get sender).map SenderState.watermark

/-- The sender budgets, which only a new sender has to pass. -/
def admitSender (t : DedupTable) (sender : String) (newSender : Bool) : Except DedupError Unit :=
  if newSender=false then .ok ()
  else if t.senders.size=t.limits.maxSenders then .error .senderLimit
  else if (checkedAdd t.senderBytes sender.utf8ByteSize).all fun n => decide (n>t.limits.maxSenderBytes) then
    .error .senderBytesLimit
  else .ok ()

def admitGap (t : DedupTable) (reservedGap : Bool) : Except DedupError Unit :=
  if reservedGap ∧ t.pendingSequences=t.limits.maxPendingSequences then .error .sequenceLimit
  else .ok ()

def reserve (memory : Memory) (newSender reservedGap : Bool) : Except DedupError Unit :=
  if newSender then
    if memory.key=false ∨ (reservedGap ∧ memory.gaps=false) ∨ memory.senders=false then .error .allocation
    else .ok ()
  else if reservedGap ∧ memory.gaps=false then .error .allocation
  else .ok ()

def begin (t : DedupTable) (memory : Memory) (sender : String) (seq : ℕ) : Except DedupError DedupDecision :=
  if sender.utf8ByteSize=0 then .error .emptySender
  else if seq=0 then .error .zeroSequence
  else if sender.utf8ByteSize>t.limits.maxSenderLength then .error .senderTooLong
  else
    let existing:=t.senders.get sender
    let wm:=existing.elim 0 SenderState.watermark
    if seq≤wm ∨ existing.any fun s => decide (seq∈s.gaps) then .ok (.duplicate wm)
    else do
      let newSender:=existing.isNone
      let reservedGap:=decide (checkedAdd wm 1≠some seq)
      t.admitSender sender newSender
      t.admitGap reservedGap
      reserve memory newSender reservedGap
      .ok (.process ⟨sender,seq,if newSender then some (sender,.default) else none,reservedGap⟩)

end DedupTable

/-- The loop of `commit`: every gap that touches the watermark moves into it. A turn
takes one gap away, so there are at most as many turns as gaps. -/
def advance : ℕ → SenderState → ℕ → Except Panic (SenderState × ℕ)
  | 0,state,pending => .ok (state,pending)
  | fuel+1,state,pending =>
    match checkedAdd state.watermark 1 with
    | none => .ok (state,pending)
    | some next =>
      if next∈state.gaps then do
        let pending ← sub pending 1
        advance fuel ⟨next,state.gaps.erase next⟩ pending
      else .ok (state,pending)

namespace DedupPermit

/-- `fresh.take()`: a new sender is stored before its first number. -/
def store (p : DedupPermit) (t : DedupTable) : Except Panic DedupTable :=
  match p.fresh with
  | some (key,state) => do
    let senderBytes ← add t.senderBytes key.utf8ByteSize
    .ok {t with senderBytes:=senderBytes,senders:=t.senders.insert key state}
  | none => .ok t

/- `expect("reserved sender")` is the index out of bounds. -/
def commit (p : DedupPermit) (t : DedupTable) : Except Panic (DedupTable × ℕ) := do
  let t ← p.store t
  match t.senders.get p.sender with
  | none => .error .indexOutOfBounds
  | some state =>
    if p.reservedGap then
      let pending ← add t.pendingSequences 1
      .ok ({t with senders := t.senders.insert p.sender {state with gaps:=insert p.seq state.gaps},pendingSequences := pending},
        state.watermark)
    else
      let (state,pending) ← advance state.gaps.card {state with watermark:=p.seq} t.pendingSequences
      .ok ({t with senders:=t.senders.insert p.sender state,pendingSequences:=pending},state.watermark)

/-- Dropping the permit looks the sender up again, and changes no more than its capacity. -/
def drop (p : DedupPermit) (t : DedupTable) : Except Panic DedupTable :=
  if p.fresh.isNone&&p.reservedGap then
    match t.senders.get p.sender with
    | none => .error .indexOutOfBounds
    | some _ => .ok t
  else .ok t

end DedupPermit

namespace DedupTable

def filter (t : DedupTable) (memory : Memory) (sender : String) (seq : ℕ) :
    Except Panic (DedupTable × Except DedupError Bool) :=
  match t.begin memory sender seq with
  | .error e => .ok (t,.error e)
  | .ok (.duplicate _) => .ok (t,.ok false)
  | .ok (.process permit) => do
    let (t,_) ← permit.commit t
    .ok (t,.ok true)

end DedupTable

variable {t t' : DedupTable} {memory : Memory} {sender : String} {seq w : ℕ} {p : DedupPermit}

def DedupTable.level (t : DedupTable) (sender : String) : ℕ := (t.senders.get sender).elim 0 SenderState.watermark

structure Admitted (t : DedupTable) (sender : String) (seq : ℕ) (p : DedupPermit) : Prop where
  positive : 0<seq
  above : t.level sender<seq
  unknown : ∀ state, t.senders.get sender=some state → seq∉state.gaps
  permit : p=⟨sender,seq,if (t.senders.get sender).isNone then some (sender,.default) else none,
    decide (checkedAdd (t.level sender) 1≠some seq)⟩
  budget : p.reservedGap=true → t.pendingSequences≠t.limits.maxPendingSequences
  senders : t.senders.get sender=none → t.senders.size≠t.limits.maxSenders
  bytes : t.senders.get sender=none → t.senderBytes+sender.utf8ByteSize≤t.limits.maxSenderBytes ∧
    t.senderBytes+sender.utf8ByteSize≤u64Max

theorem admitSender_ok (h : t.admitSender sender true=.ok ()) : t.senders.size≠t.limits.maxSenders ∧
    t.senderBytes+sender.utf8ByteSize≤t.limits.maxSenderBytes ∧ t.senderBytes+sender.utf8ByteSize≤u64Max := by
  unfold DedupTable.admitSender at h
  simp only [Bool.true_eq_false,if_false] at h
  split at h
  · contradiction
  rename_i hsize
  split at h
  · contradiction
  rename_i hbytes
  cases hadd : checkedAdd t.senderBytes sender.utf8ByteSize with
  | none => simp [hadd] at hbytes
  | some n =>
    obtain ⟨rfl,hmax⟩:=checkedAdd_eq_some.mp hadd
    simp only [hadd,Option.all_some,decide_eq_true_eq,not_lt] at hbytes
    exact ⟨hsize,by omega,hmax⟩

theorem admitGap_ok {gap : Bool} (h : t.admitGap gap=.ok ()) (hgap : gap=true) :
    t.pendingSequences≠t.limits.maxPendingSequences := by
  intro hfull
  unfold DedupTable.admitGap at h
  rw [if_pos ⟨hgap,hfull⟩] at h
  contradiction

theorem begin_process (h : t.begin memory sender seq=.ok (.process p)) : Admitted t sender seq p := by
  unfold DedupTable.begin at h
  split at h
  · contradiction
  split at h
  · contradiction
  rename_i hseq
  split at h
  · contradiction
  dsimp only at h
  split at h
  · simp at h
  rename_i hnew
  simp only [not_or,not_le,Bool.not_eq_true] at hnew
  obtain ⟨_,hadmits,h⟩:=bind_eq_ok.mp h
  obtain ⟨_,hbudget,h⟩:=bind_eq_ok.mp h
  obtain ⟨_,-,h⟩:=bind_eq_ok.mp h
  have hp:=DedupDecision.process.inj (Except.ok.inj h)
  have hsender : t.senders.get sender=none → t.admitSender sender true=.ok () := by
    intro hnone
    simpa [hnone] using hadmits
  constructor
  · omega
  · exact hnew.1
  · intro state hstate
    simpa [hstate] using hnew.2
  · exact hp.symm
  · intro hgap
    rw [← hp] at hgap
    exact admitGap_ok hbudget hgap
  · intro hnone
    exact (admitSender_ok (hsender hnone)).1
  · intro hnone
    exact (admitSender_ok (hsender hnone)).2

theorem begin_again (hsender : sender.utf8ByteSize≠0) (hlen : sender.utf8ByteSize≤t.limits.maxSenderLength)
    (hseq : 0<seq) (hdup : seq≤t.level sender ∨ ∃ state, t.senders.get sender=some state ∧ seq∈state.gaps) :
    t.begin memory sender seq=.ok (.duplicate (t.level sender)) := by
  have hcond : seq≤(t.senders.get sender).elim 0 SenderState.watermark ∨
      (t.senders.get sender).any (fun s => decide (seq∈s.gaps))=true := by
    rcases hdup with hle | ⟨state,hstate,hmem⟩
    · exact .inl hle
    · exact .inr (by simp [hstate,hmem])
  unfold DedupTable.begin
  rw [if_neg hsender,if_neg (by omega),if_neg (by omega)]
  exact if_pos hcond

theorem begin_next (hnext : checkedAdd (t.level sender) 1=some seq) :
    t.begin memory sender seq ≠ .error .sequenceLimit := by
  intro h
  unfold DedupTable.begin at h
  split at h
  · simp at h
  split at h
  · simp at h
  split at h
  · simp at h
  dsimp only at h
  split at h
  · contradiction
  have hgap : decide (checkedAdd ((t.senders.get sender).elim 0 SenderState.watermark) 1≠some seq)=false :=
    decide_eq_false (not_not.mpr hnext)
  rw [hgap] at h
  have hfree : t.admitGap false=.ok () := by simp [DedupTable.admitGap]
  rw [hfree] at h
  cases hadmits : t.admitSender sender (t.senders.get sender).isNone with
  | error e =>
    rw [hadmits] at h
    have he : e=.sequenceLimit := by simpa [bind,Except.bind] using h
    unfold DedupTable.admitSender at hadmits
    split at hadmits
    · contradiction
    split at hadmits
    · simp [he] at hadmits
    split at hadmits
    · simp [he] at hadmits
    · contradiction
  | ok =>
    rw [hadmits] at h
    cases hres : DedupTable.reserve memory (t.senders.get sender).isNone false with
    | ok => simp [hres,bind,Except.bind] at h
    | error e =>
      have he : e=.sequenceLimit := by simpa [hres,bind,Except.bind] using h
      unfold DedupTable.reserve at hres
      split at hres
      · split at hres
        · simp [he] at hres
        · contradiction
      · split at hres
        · simp [he] at hres
        · contradiction

end Parrot.Dedup
