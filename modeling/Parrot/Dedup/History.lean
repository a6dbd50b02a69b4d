import Parrot.Dedup.Table

/-! # The history of a deduplication table

A permit borrows the table, so calls do not overlap: each `begin` ends in a commit or
a drop before the next call. -/

namespace Parrot.Dedup
open Machine
open Watermark (Covers Splits Compact)

inductive Ending where
  | commit
  | drop

inductive Call where
  | begin (memory : Memory) (sender : String) (seq : UInt64) (ending : Ending)
  | filter (memory : Memory) (sender : String) (seq : UInt64)

/-- What a call came to. `filter` does not say the watermark. -/
inductive Outcome where
  | refused (e : DedupError)
  | duplicate (watermark : Option ℕ)
  | dropped
  | committed (watermark : Option ℕ)

def Call.pair : Call → String × ℕ
  | .begin _ sender seq _ => (sender,seq.toNat)
  | .filter _ sender seq => (sender,seq.toNat)

def step (t : DedupTable) : Call → Except Panic (DedupTable × Outcome)
  | .begin memory sender seq ending =>
    match t.begin memory sender seq.toNat with
    | .error e => .ok (t,.refused e)
    | .ok (.duplicate watermark) => .ok (t,.duplicate (some watermark))
    | .ok (.process permit) =>
      match ending with
      | .commit => (permit.commit t).map fun r => (r.1,.committed (some r.2))
      | .drop => (permit.drop t).map fun t => (t,.dropped)
  | .filter memory sender seq =>
    (t.filter memory sender seq.toNat).map fun r => (r.1,match r.2 with
        | .error e => .refused e
        | .ok false => .duplicate none
        | .ok true => .committed none)

def run (t : DedupTable) : List Call → Except Panic (DedupTable × List (Call × Outcome))
  | [] => .ok (t,[])
  | call::calls => do
    let (t,outcome) ← step t call
    let (t,log) ← run t calls
    .ok (t,(call,outcome)::log)

def Outcome.isCommitted : Outcome → Bool
  | .committed _ => true
  | _ => false

/-- The messages that were admitted and not dropped, one for each call. -/
def completed (log : List (Call × Outcome)) : List (String × ℕ) :=
  (log.filter fun e => e.2.isCommitted).map fun e => e.1.pair

def completedBy (done : List (String × ℕ)) (sender : String) : Set ℕ := {n | (sender,n)∈done}

/-- What `pending_sequences` and `sender_bytes` count. -/
def DedupTable.remembered (t : DedupTable) : ℕ := OrderedMap.total (fun _ state => state.gaps.card) t.senders
def DedupTable.storedBytes (t : DedupTable) : ℕ := OrderedMap.total (fun sender _ => sender.utf8ByteSize) t.senders

def DedupTable.gapsOf (t : DedupTable) (sender : String) : Finset ℕ := (t.senders.get sender).elim ∅ SenderState.gaps

structure Sound (t : DedupTable) (done : List (String × ℕ)) : Prop where
  nodup : done.Nodup
  history : ∀ sender, Compact (completedBy done sender) (t.level sender) (t.gapsOf sender)
  typed : ∀ e∈done, e.2≤u64Max
  names : ∀ sender, t.senders.get sender≠none → sender.utf8ByteSize≠0 ∧ sender.utf8ByteSize≤t.limits.maxSenderLength
  pending : t.pendingSequences=t.remembered
  pendingLimit : t.pendingSequences≤t.limits.maxPendingSequences
  limit : t.limits.maxPendingSequences < isizeMax
  bytes : t.senderBytes=t.storedBytes
  bytesLimit : t.senderBytes≤t.limits.maxSenderBytes
  size : t.senders.size≤t.limits.maxSenders

variable {t t' : DedupTable} {done : List (String × ℕ)} {memory : Memory} {sender : String} {seq w : ℕ}
  {p : DedupPermit} {state : SenderState}

@[simp] theorem level_of_get (h : t.senders.get sender=some state) : t.level sender=state.watermark := by
  simp [DedupTable.level,h]
@[simp] theorem gapsOf_of_get (h : t.senders.get sender=some state) : t.gapsOf sender=state.gaps := by
  simp [DedupTable.gapsOf,h]
@[simp] theorem level_of_none (h : t.senders.get sender=none) : t.level sender=0 := by
  simp [DedupTable.level,h]
@[simp] theorem gapsOf_of_none (h : t.senders.get sender=none) : t.gapsOf sender = ∅ := by
  simp [DedupTable.gapsOf,h]

theorem sound_withLimits {limits : DedupLimits} (h : withLimits limits=.ok t) : Sound t [] := by
  unfold withLimits at h
  split at h
  · contradiction
  rename_i hlimits
  obtain rfl:=(Except.ok.inj h).symm
  simp only [not_or,Bool.not_eq_true,List.any_eq_false,List.mem_cons,decide_eq_true_eq,not_lt] at hlimits
  have hpending:=(hlimits.1 limits.maxPendingSequences (by simp))
  constructor
  · exact List.nodup_nil
  · intro sender
    have hnone : completedBy [] sender = ∅ := by simp [completedBy]
    rw [hnone]
    exact Watermark.compact_empty
  · simp
  · intro sender hs
    simp at hs
  · simp [DedupTable.remembered]
  · simp
  · exact lt_of_not_ge hpending.2
  · simp [DedupTable.storedBytes]
  · simp
  · simp [OrderedMap.empty,OrderedMap.size]

namespace Sound

section
variable (h : Sound t done)
include h

theorem stored (hmem : (sender,seq)∈done) : t.senders.get sender≠none := by
  intro hnone
  have hin : seq∈completedBy done sender := hmem
  rw [(h.history sender).mem,level_of_none hnone,gapsOf_of_none hnone] at hin
  simp only [Finset.notMem_empty,or_false] at hin
  omega

theorem positive (hmem : (sender,seq)∈done) : 0<seq := by
  have hin : seq∈completedBy done sender := hmem
  rcases ((h.history sender).mem seq).mp hin with hle | hgap
  · exact hle.1
  · have:=(h.history sender).above seq hgap
    omega

theorem gaps_typed {g : ℕ} (hg : g∈t.gapsOf sender) : g≤u64Max :=
  h.typed (sender,g) (((h.history sender).mem g).mpr (.inr hg))

theorem fresh (ha : Admitted t sender seq p) : (sender,seq)∉done := by
  apply (h.history sender).not_mem ha.above
  intro hgap
  cases hget : t.senders.get sender with
  | none => simp [hget] at hgap
  | some state =>
    rw [gapsOf_of_get hget] at hgap
    exact ha.unknown state hget hgap

theorem again (hmem : (sender,seq)∈done) : t.begin memory sender seq=.ok (.duplicate (t.level sender)) := by
  have hstored:=h.stored hmem
  obtain ⟨state,hget⟩:=Option.ne_none_iff_exists'.mp hstored
  refine begin_again (h.names sender hstored).1 (h.names sender hstored).2 (h.positive hmem) ?_
  have hin : seq∈completedBy done sender := hmem
  rcases ((h.history sender).mem seq).mp hin with hle | hgap
  · exact .inl hle.2
  · rw [gapsOf_of_get hget] at hgap
    exact .inr ⟨state,hget,hgap⟩

end

end Sound

theorem store_sound (h : Sound t done) (ha : Admitted t sender seq p)
    (hname : sender.utf8ByteSize≠0 ∧ sender.utf8ByteSize≤t.limits.maxSenderLength) :
    ∃ t' state, p.store t=.ok t' ∧ Sound t' done ∧ t'.senders.get sender=some state ∧
      state.watermark=t.level sender ∧ t'.limits=t.limits ∧ t'.pendingSequences=t.pendingSequences := by
  have hp:=ha.permit
  cases hget : t.senders.get sender with
  | some state =>
    rw [hget] at hp
    refine ⟨t,state,?_,h,hget,(level_of_get hget).symm,rfl,rfl⟩
    simp [hp,DedupPermit.store]
  | none =>
    rw [hget] at hp
    obtain ⟨hbytes,hmax⟩:=ha.bytes hget
    have hsize:=ha.senders hget
    have hget' : ∀ x, (t.senders.insert sender SenderState.default).get x =
        if x=sender then some SenderState.default else t.senders.get x := fun x => OrderedMap.get_insert
    let stored : DedupTable := {t with
      senderBytes := t.senderBytes+sender.utf8ByteSize
      senders := t.senders.insert sender SenderState.default}
    refine ⟨stored,SenderState.default,?_,?_,?_,?_,rfl,rfl⟩
    · simp [hp,stored,DedupPermit.store,add_ok hmax,bind,Except.bind]
    · constructor
      · exact h.nodup
      · intro x
        have hx:=h.history x
        by_cases hxs : x=sender
        · subst hxs
          rw [level_of_none hget,gapsOf_of_none hget] at hx
          rw [level_of_get (OrderedMap.get_insert_self),gapsOf_of_get (OrderedMap.get_insert_self)]
          exact hx
        · have hlevel : stored.level x=t.level x := by simp [DedupTable.level,stored,hget',hxs]
          have hgaps : stored.gapsOf x=t.gapsOf x := by simp [DedupTable.gapsOf,stored,hget',hxs]
          rw [hlevel,hgaps]
          exact hx
      · exact h.typed
      · intro x hx
        by_cases hxs : x=sender
        · subst hxs
          exact hname
        · have hx' : t.senders.get x≠none := by simpa [stored,hget',hxs] using hx
          exact h.names x hx'
      · have htotal:=OrderedMap.total_insert_new (a := SenderState.default) (fun _ state => state.gaps.card) hget
        have hpending:=h.pending
        unfold DedupTable.remembered at hpending ⊢
        simp only [SenderState.default,Finset.card_empty,stored] at htotal ⊢
        omega
      · exact h.pendingLimit
      · exact h.limit
      · have htotal:=OrderedMap.total_insert_new (a := SenderState.default) (fun sender _ => sender.utf8ByteSize) hget
        have hstored:=h.bytes
        unfold DedupTable.storedBytes at hstored ⊢
        simp only [stored] at htotal ⊢
        omega
      · exact hbytes
      · have hnew:=OrderedMap.size_insert_new (a := SenderState.default) hget
        have hold:=h.size
        simp only [stored]
        omega
    · exact OrderedMap.get_insert_self
    · rw [level_of_none hget]
      simp [SenderState.default]

theorem completedBy_self (done : List (String × ℕ)) (sender : String) (seq : ℕ) :
    completedBy (done++[(sender,seq)]) sender=insert seq (completedBy done sender) := by
  ext n
  simp [completedBy,or_comm]

theorem completedBy_other (done : List (String × ℕ)) {sender x : String} (seq : ℕ) (h : x≠sender) :
    completedBy (done++[(sender,seq)]) x=completedBy done x := by
  ext n
  simp [completedBy,h]

theorem set_sound {state' : SenderState} {pending' : ℕ} (h : Sound t done) (hget : t.senders.get sender=some state)
    (hcompact : Compact (insert seq (completedBy done sender)) state'.watermark state'.gaps)
    (hnew : (sender,seq)∉done) (hseq : seq≤u64Max)
    (hpending : pending'+state.gaps.card=t.pendingSequences+state'.gaps.card)
    (hlimit : pending'≤t.limits.maxPendingSequences) :
    Sound {t with senders:=t.senders.insert sender state',pendingSequences:=pending'} (done++[(sender,seq)]) := by
  have hget' : ∀ x, (t.senders.insert sender state').get x=if x=sender then some state' else t.senders.get x :=
    fun x => OrderedMap.get_insert
  constructor
  · rw [List.nodup_append]
    refine ⟨h.nodup,List.nodup_singleton _,?_⟩
    intro e he e' he' heq
    rw [heq,List.mem_singleton.mp he'] at he
    exact hnew he
  · intro x
    by_cases hx : x=sender
    · subst hx
      rw [completedBy_self,level_of_get OrderedMap.get_insert_self,gapsOf_of_get OrderedMap.get_insert_self]
      exact hcompact
    · rw [completedBy_other done seq hx]
      have hold:=h.history x
      simp only [DedupTable.level,DedupTable.gapsOf,hget',hx,if_false] at hold ⊢
      exact hold
  · intro e he
    rcases List.mem_append.mp he with he | he
    · exact h.typed e he
    · rw [List.mem_singleton.mp he]
      exact hseq
  · intro x hx
    by_cases hxs : x=sender
    · subst hxs
      exact h.names x (by simp [hget])
    · rw [hget',if_neg hxs] at hx
      exact h.names x hx
  · have htotal:=OrderedMap.total_insert_old (a := state') (fun _ state => state.gaps.card) hget
    have hold:=h.pending
    unfold DedupTable.remembered at hold ⊢
    simp only at htotal ⊢
    omega
  · exact hlimit
  · exact h.limit
  · have htotal:=OrderedMap.total_insert_old (a := state') (fun sender _ => sender.utf8ByteSize) hget
    have hold:=h.bytes
    unfold DedupTable.storedBytes at hold ⊢
    simp only at htotal ⊢
    omega
  · exact h.bytesLimit
  · have hsame:=OrderedMap.size_insert_old (a := state') hget
    have hold:=h.size
    simp only
    omega

theorem advance_compact {s : Set ℕ} {fuel pending : ℕ} {gaps : Finset ℕ} (hsplit : Splits s w gaps)
    (htyped : ∀ g∈gaps, g≤u64Max) (hfuel : gaps.card≤fuel) (hpending : gaps.card≤pending) :
    ∃ state pending', advance fuel ⟨w,gaps⟩ pending=.ok (state,pending') ∧
      Compact s state.watermark state.gaps ∧ pending'+gaps.card=pending+state.gaps.card ∧ pending'≤pending := by
  induction fuel generalizing w gaps pending with
  | zero =>
    have hempty : gaps = ∅ := by
      rw [← Finset.card_eq_zero]
      omega
    refine ⟨⟨w,gaps⟩,pending,by simp [advance],hsplit.compact ?_,rfl,le_rfl⟩
    simp [hempty]
  | succ fuel ih =>
    cases hnext : checkedAdd w 1 with
    | none =>
      refine ⟨⟨w,gaps⟩,pending,by simp [advance,hnext],hsplit.compact ?_,rfl,le_rfl⟩
      intro hmem
      have hle:=htyped _ hmem
      unfold checkedAdd at hnext
      split at hnext
      · contradiction
      · omega
    | some next =>
      obtain ⟨rfl,-⟩:=checkedAdd_eq_some.mp hnext
      by_cases hmem : w+1∈gaps
      · have hcard:=Finset.card_erase_add_one hmem
        have hsub : sub pending 1=.ok (pending-1) := sub_ok (by omega)
        obtain ⟨state,pending',hrun,hcompact,hcount,hle⟩:=ih (hsplit.raise hmem)
          (fun g hg => htyped g (Finset.mem_of_mem_erase hg)) (by omega)
          (show (gaps.erase (w+1)).card≤pending-1 by omega)
        refine ⟨state,pending',?_,hcompact,by omega,by omega⟩
        simp only [advance,hnext,hmem,if_true,hsub]
        exact hrun
      · refine ⟨⟨w,gaps⟩,pending,by simp [advance,hnext,hmem],hsplit.compact hmem,rfl,le_rfl⟩

theorem commit_sound (h : Sound t done) (ha : Admitted t sender seq p) (hseq : seq≤u64Max)
    (hname : sender.utf8ByteSize≠0 ∧ sender.utf8ByteSize≤t.limits.maxSenderLength) :
    ∃ t', p.commit t=.ok (t',t'.level sender) ∧ Sound t' (done++[(sender,seq)]) := by
  obtain ⟨t1,state,hstore,h1,hget,hlevel,hlimits,hpending⟩:=store_sound h ha hname
  have hnew:=h.fresh ha
  have hcompact:=h1.history sender
  rw [level_of_get hget,gapsOf_of_get hget] at hcompact
  have hsender : p.sender=sender := by rw [ha.permit]
  have hpseq : p.seq=seq := by rw [ha.permit]
  have hgap : p.reservedGap=decide (checkedAdd state.watermark 1≠some seq) := by rw [ha.permit,hlevel]
  have habove:=ha.above
  rw [← hlevel] at habove
  have hcard : state.gaps.card≤t1.pendingSequences := by
    rw [h1.pending]
    exact OrderedMap.total_get_le (fun _ state => state.gaps.card) hget
  have hnotin : seq∉state.gaps := by
    intro hmem
    exact hnew ((hcompact.mem seq).mpr (.inr hmem))
  by_cases hreserved : checkedAdd state.watermark 1=some seq
  · obtain ⟨rfl,-⟩:=checkedAdd_eq_some.mp hreserved
    obtain ⟨state',pending',hrun,hcompact',hcount,hle⟩:=advance_compact hcompact.insert_next
      (fun g hg => h1.gaps_typed (by rw [gapsOf_of_get hget]; exact hg)) le_rfl hcard
    refine ⟨_,?_,set_sound h1 hget hcompact' hnew hseq hcount (hle.trans h1.pendingLimit)⟩
    rw [level_of_get OrderedMap.get_insert_self]
    have hfalse : p.reservedGap=false := by simp [hgap,hreserved]
    simp [DedupPermit.commit,hstore,hsender,hget,hfalse,hpseq,hrun,bind,Except.bind]
  · have hne : seq≠state.watermark+1 := by
      intro heq
      exact hreserved (checkedAdd_eq_some.mpr ⟨heq,by omega⟩)
    have htrue : p.reservedGap=true := by simp [hgap,hreserved]
    have hroom : t1.pendingSequences+1≤t1.limits.maxPendingSequences := by
      have hbudget:=ha.budget htrue
      have hlimit:=h.pendingLimit
      rw [hpending,hlimits]
      omega
    have hadd : add t1.pendingSequences 1=.ok (t1.pendingSequences+1) := by
      apply add_ok
      have hmax:=h1.limit
      simp only [isizeMax,u64Max] at hmax ⊢
      omega
    have hinsert : Compact (insert seq (completedBy done sender)) (SenderState.mk state.watermark (insert seq state.gaps)).watermark
        (SenderState.mk state.watermark (insert seq state.gaps)).gaps := hcompact.insert_gap habove hne
    have hcount : t1.pendingSequences+1+state.gaps.card=t1.pendingSequences+(insert seq state.gaps).card := by
      rw [Finset.card_insert_of_notMem hnotin]
      omega
    refine ⟨_,?_,set_sound h1 hget hinsert hnew hseq hcount hroom⟩
    rw [level_of_get OrderedMap.get_insert_self]
    simp [DedupPermit.commit,hstore,hsender,hget,htrue,hpseq,hadd,bind,Except.bind]

theorem begin_names {decision : DedupDecision} (h : t.begin memory sender seq=.ok decision) :
    sender.utf8ByteSize≠0 ∧ sender.utf8ByteSize≤t.limits.maxSenderLength := by
  unfold DedupTable.begin at h
  split at h
  · contradiction
  rename_i hempty
  split at h
  · contradiction
  split at h
  · contradiction
  rename_i hlong
  exact ⟨hempty,not_lt.mp hlong⟩

theorem commit_begun (h : Sound t done) {seq : UInt64} (hb : t.begin memory sender seq.toNat=.ok (.process p)) :
    ∃ t', p.commit t=.ok (t',t'.level sender) ∧ Sound t' (done++[(sender,seq.toNat)]) := by
  apply commit_sound h (begin_process hb) _ (begin_names hb)
  have:=seq.toNat_lt
  unfold u64Max
  omega

theorem drop_begun (hb : t.begin memory sender seq=.ok (.process p)) : p.drop t=.ok t := by
  have ha:=begin_process hb
  cases hget : t.senders.get sender with
  | none | some => simp [ha.permit,hget,DedupPermit.drop]

theorem step_sound (h : Sound t done) (call : Call) : ∃ t' outcome, step t call=.ok (t',outcome) ∧
    (outcome.isCommitted=true → call.pair∉done) ∧ (outcome.isCommitted=false → t'=t) ∧
    Sound t' (done++(if outcome.isCommitted then [call.pair] else [])) := by
  have hstay : Sound t (done++[]) := by simpa using h
  cases call with
  | begin memory sender seq ending =>
    cases hb : t.begin memory sender seq.toNat with
    | error e => exact ⟨t,.refused e,by simp [step,hb],by simp [Outcome.isCommitted],by simp,hstay⟩
    | ok decision =>
      cases decision with
      | duplicate w => exact ⟨t,.duplicate (some w),by simp [step,hb],by simp [Outcome.isCommitted],by simp,hstay⟩
      | process p =>
        cases ending with
        | drop =>
          refine ⟨t,.dropped,?_,by simp [Outcome.isCommitted],by simp,hstay⟩
          simp [step,hb,drop_begun hb,Except.map]
        | commit =>
          obtain ⟨t',hcommit,hsound⟩:=commit_begun h hb
          refine ⟨t',.committed (some (t'.level sender)),?_,?_,by simp [Outcome.isCommitted],hsound⟩
          · simp [step,hb,hcommit,Except.map]
          · exact fun _ => h.fresh (begin_process hb)
  | filter memory sender seq =>
    cases hb : t.begin memory sender seq.toNat with
    | error e =>
      refine ⟨t,.refused e,?_,by simp [Outcome.isCommitted],by simp,hstay⟩
      simp [step,DedupTable.filter,hb,Except.map]
    | ok decision =>
      cases decision with
      | duplicate w =>
        refine ⟨t,.duplicate none,?_,by simp [Outcome.isCommitted],by simp,hstay⟩
        simp [step,DedupTable.filter,hb,Except.map]
      | process p =>
        obtain ⟨t',hcommit,hsound⟩:=commit_begun h hb
        refine ⟨t',.committed none,?_,?_,by simp [Outcome.isCommitted],hsound⟩
        · simp [step,DedupTable.filter,hb,hcommit,Except.map,bind,Except.bind]
        · exact fun _ => h.fresh (begin_process hb)

theorem completed_cons (call : Call) (outcome : Outcome) (log : List (Call × Outcome)) :
    completed ((call,outcome)::log)=(if outcome.isCommitted then [call.pair] else [])++completed log := by
  cases h : outcome.isCommitted <;> simp [completed,h]

theorem run_sound (h : Sound t done) (calls : List Call) :
    ∃ t' log, run t calls=.ok (t',log) ∧ log.map Prod.fst=calls ∧ Sound t' (done++completed log) := by
  induction calls generalizing t done with
  | nil => exact ⟨t,[],by simp [run],by simp,by simpa [completed] using h⟩
  | cons call calls ih =>
    obtain ⟨t1,outcome,hstep,-,-,h1⟩:=step_sound h call
    obtain ⟨t',log,hrun,hcalls,h'⟩:=ih h1
    refine ⟨t',(call,outcome)::log,?_,by simp [hcalls],?_⟩
    · simp [run,hstep,hrun,bind,Except.bind]
    · rwa [completed_cons,← List.append_assoc]

/-- What a table says about the calls made to it, and what it will answer next. -/
structure Faithful (t : DedupTable) (log : List (Call × Outcome)) : Prop where
  once : (completed log).Nodup
  admits : ∀ memory sender seq permit, t.begin memory sender seq=.ok (.process permit) → (sender,seq)∉completed log
  repeats : ∀ memory sender seq, (sender,seq)∈completed log →
    t.begin memory sender seq=.ok (.duplicate ((t.watermark sender).getD 0))
  watermark : ∀ sender, IsGreatest {w | ∀ n, 0<n → n≤w → (sender,n)∈completed log} ((t.watermark sender).getD 0)
  gaps : ∀ sender state, t.senders.get sender=some state → ∀ g∈state.gaps,
    state.watermark+1<g ∧ (sender,g)∈completed log
  pending : t.pendingSequences=t.remembered ∧ t.pendingSequences≤t.limits.maxPendingSequences
  bytes : t.senderBytes=t.storedBytes ∧ t.senderBytes≤t.limits.maxSenderBytes
  unchanged : ∀ call t' outcome, step t call=.ok (t',outcome) →
    ((∃ e, outcome=.refused e) ∨ outcome=.dropped) → t'=t
  next : ∀ memory sender, (t.watermark sender).getD 0<u64Max →
    t.begin memory sender ((t.watermark sender).getD 0+1) ≠ .error .sequenceLimit

theorem level_eq (t : DedupTable) (sender : String) : (t.watermark sender).getD 0=t.level sender := by
  cases h : t.senders.get sender <;> simp [DedupTable.watermark,DedupTable.level,h]

theorem Sound.faithful {log : List (Call × Outcome)} (h : Sound t (completed log)) : Faithful t log where
  once := h.nodup
  admits := by
    intro memory sender seq permit hb
    exact h.fresh (begin_process hb)
  repeats := by
    intro memory sender seq hmem
    rw [level_eq]
    exact h.again hmem
  watermark := by
    intro sender
    rw [level_eq]
    exact (h.history sender).greatest
  gaps := by
    intro sender state hget g hg
    have hcompact:=h.history sender
    rw [level_of_get hget,gapsOf_of_get hget] at hcompact
    exact ⟨hcompact.above_next hg,(hcompact.mem g).mpr (.inr hg)⟩
  pending := ⟨h.pending,h.pendingLimit⟩
  bytes := ⟨h.bytes,h.bytesLimit⟩
  unchanged := by
    intro call t' outcome hstep hkind
    obtain ⟨t1,outcome1,hstep1,-,hsame,-⟩:=step_sound h call
    rw [hstep1] at hstep
    cases hstep
    apply hsame
    rcases hkind with ⟨e,rfl⟩ | rfl
    · simp [Outcome.isCommitted]
    · simp [Outcome.isCommitted]
  next := by
    intro memory sender hlt
    rw [level_eq] at hlt ⊢
    exact begin_next (checkedAdd_eq_some.mpr ⟨rfl,hlt⟩)

theorem table_faithful {limits : DedupLimits} (h : withLimits limits=.ok t) (calls : List Call) :
    ∃ t' log, run t calls=.ok (t',log) ∧ log.map Prod.fst=calls ∧ Faithful t' log := by
  obtain ⟨t',log,hrun,hcalls,hsound⟩:=run_sound (sound_withLimits h) calls
  exact ⟨t',log,hrun,hcalls,Sound.faithful (by simpa using hsound)⟩

def readyMemory : Memory := ⟨true,true,true⟩

theorem table_faithful_gap : ∃ t' log,
    run ⟨.default,OrderedMap.empty,0,0⟩ [.filter readyMemory "a" 2,.begin readyMemory "a" 18446744073709551615 .drop,
      .begin readyMemory "a" 1 .commit]=.ok (t',log) ∧
    log.map Prod.fst=[.filter readyMemory "a" 2,.begin readyMemory "a" 18446744073709551615 .drop,
      .begin readyMemory "a" 1 .commit] ∧ Faithful t' log :=
  table_faithful (if_neg (by decide)) _

end Parrot.Dedup
