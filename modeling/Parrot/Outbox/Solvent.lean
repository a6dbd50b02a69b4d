import Parrot.Outbox.Admission

/-! # The reserve of an outbox

An outbox is solvent when what it has on disk, one marker for each pending record and the final
checkpoint fit the budgets. -/

namespace Parrot.Outbox
open Machine Wal
open Bincode (Bytes)
open SegmentLog

section env
variable (env : WalEnv) (limits : WalLimits)

/-- The size of a checkpoint that says what the index says. -/
def retained (x : Index) : ℕ :=
  (x.acked.entries.map fun e => (recordFrame env (ackRecord e.1.1 e.1.2 e.2)).length).sum+
    x.receipts.checkpointBytes

structure Solvent (identity : Identity) (x : Index) (segments segId size : ℕ) : Prop where
  acked : ∀ s n, x.acked.lookup s=some n → s=identity.stream
  stream : ∀ p∈x.pending, p.record.stream=identity.stream
  idle : x.pending=[] → segments=1 ∧ size=retained env x
  marker : x.pending≠[] →
    (env.encodeRecord (ackRecord identity.receiver identity.sender u64Max)).length≤limits.maxRecordBytes
  disk : x.pending≠[] → size+x.pending.length*identity.ackSize env+x.receipts.checkpointBytes≤limits.maxDiskBytes
  spare : x.pending≠[] → segments<limits.maxSegments ∧ segId<u64Max

variable {env limits} {segmentMax : ℕ} {identity : Identity} {x y : Index} {w : WalInner}
  {segments segId n : ℕ}

theorem entries_perm {α : Type} [DecidableEq α] {β : α → Type} {a b : AList β}
    (h : ∀ k, a.lookup k=b.lookup k) : a.entries.Perm b.entries := by
  apply List.lookup_ext a.nodupKeys b.nodupKeys
  intro k v
  change v∈a.lookup k ↔ v∈b.lookup k
  rw [h]

theorem represents_same {its : List Item} (hx : Represents env limits x its) (hy : Represents env limits y its) :
    y.pending=x.pending ∧ (∀ s, y.acked.lookup s=x.acked.lookup s) ∧
    y.receipts.checkpointBytes=x.receipts.checkpointBytes ∧ retained env y=retained env x := by
  have hvalue : y.value=x.value := hy.value.trans hx.value.symm
  have hacked : ∀ s, y.acked.lookup s=x.acked.lookup s := congrFun (congrArg Value.acked hvalue)
  have hreceipts : ∀ k, y.receipts.entries.lookup k=x.receipts.entries.lookup k :=
    congrFun (congrArg Value.receipts hvalue)
  have hbytes : y.receipts.checkpointBytes=x.receipts.checkpointBytes := by
    have h1 : y.receipts.checkpointBytes=y.receipts.encoded env := hy.ok.acks.receipts.checkpoint
    have h2 : x.receipts.checkpointBytes=x.receipts.encoded env := hx.ok.acks.receipts.checkpoint
    rw [h1,h2]
    exact (((entries_perm hreceipts).map _).map _).sum_eq
  refine ⟨congrArg Value.pending hvalue,hacked,hbytes,?_⟩
  unfold retained
  rw [hbytes,((entries_perm hacked).map _).sum_eq]

theorem Solvent.same {its : List Item} (h : Solvent env limits identity x segments segId n)
    (hx : Represents env limits x its) (hy : Represents env limits y its) :
    Solvent env limits identity y segments segId n := by
  obtain ⟨hpending,hacked,hbytes,hretained⟩:=represents_same hx hy
  constructor
  · intro s k hk
    exact h.acked s k ((hacked s).symm.trans hk)
  · rw [hpending]
    exact h.stream
  · rw [hpending,hretained]
    exact h.idle
  · rw [hpending]
    exact h.marker
  · rw [hpending,hbytes]
    exact h.disk
  · rw [hpending]
    exact h.spare

theorem Solvent.acked_entries (h : Solvent env limits identity x segments segId n) :
    x.acked.entries=[] ∨ ∃ k, x.acked.entries=[⟨identity.stream,k⟩] := by
  have hkeys : ∀ e∈x.acked.entries, e.1=identity.stream := by
    intro e he
    exact h.acked e.1 e.2 (AList.mem_lookup_iff.mpr he)
  cases hentries : x.acked.entries with
  | nil => exact .inl rfl
  | cons e rest =>
    rw [hentries] at hkeys
    have hnodup : (e::rest).NodupKeys := hentries ▸ x.acked.nodupKeys
    cases rest with
    | nil =>
      have he:=hkeys e (List.mem_cons_self ..)
      exact .inr ⟨e.2,by rw [← he]⟩
    | cons e' rest =>
      -- a second watermark would be of the same stream
      have h1:=hkeys e (List.mem_cons_self ..)
      have h2:=hkeys e' (List.mem_cons_of_mem _ (List.mem_cons_self ..))
      have hne:=(List.nodupKeys_cons.mp hnodup).1
      exact absurd (by simp [h1,h2]) hne

section
variable (h : Solvent env limits identity w.toIndex segments segId n)
include h

theorem Solvent.otherAcks_nil (acks : Order (Stream × ℕ)) : otherAcks acks w identity.stream=[] := by
  unfold otherAcks
  rw [List.map_eq_nil_iff,List.eq_nil_iff_forall_not_mem]
  intro e he
  obtain ⟨hlookup,hne⟩:=mem_otherAcks.mp he
  exact hne (h.acked e.1 e.2 hlookup)

theorem Solvent.checkpointSize_eq (acks : Order (Stream × ℕ)) :
    checkpointSize env limits acks w identity.stream=.ok w.receipts.checkpointBytes := by
  unfold checkpointSize
  rw [h.otherAcks_nil acks]
  rfl

end

theorem ackSize_le (identity : Identity) {seq : ℕ} (hseq : seq≤u64Max) :
    (recordFrame env (ackRecord identity.receiver identity.sender seq)).length ≤ identity.ackSize env := by
  have hle:=env.ack_le identity.receiver identity.sender seq hseq
  rw [Identity.ackSize,recordFrame_length,recordFrame_length]
  omega

theorem insertReceipt_bytes {receipts receipts' : ReceiptIndex} {receipt : Option Receipt}
    (h : insertReceipt env limits receipts receipt=.ok receipts') :
    receipts'.checkpointBytes ≤ receipts.checkpointBytes+receiptSize env receipt := by
  cases receipt with
  | none =>
    cases h
    exact Nat.le_add_right ..
  | some g =>
    rcases ReceiptIndex.insert_ok h with ⟨-,rfl⟩ | ⟨-,rfl⟩
    · exact Nat.le_add_right ..
    · rw [receiptSize,recordFrame_length]
      exact le_rfl

theorem append_solvent (h : Solvent env limits identity w.toIndex w.segments w.segId w.diskBytes)
    {r stored : WalRecord} {parent : Option TraceParent} {receipt : Option Receipt} {bytes : ℕ}
    {receipts' : ReceiptIndex} (hstream : r.stream=identity.stream)
    (hinsert : insertReceipt env limits w.receipts receipt=.ok receipts')
    (hres : Reserves env limits segmentMax w identity stored receipt)
    (hsegs : segments≤w.segments+(decide (w.segBytes+(recordFrame env stored).length≥segmentMax)).toNat)
    (hid : segId≤w.segId+(decide (w.segBytes+(recordFrame env stored).length≥segmentMax)).toNat) :
    Solvent env limits identity {w.toIndex with
      receipts := receipts'
      pending := w.pending++[⟨r,parent⟩]
      pendingBytes := bytes} segments segId (w.diskBytes+(recordFrame env stored).length) := by
  have hbytes:=insertReceipt_bytes hinsert
  have hdisk:=hres.disk
  have hspare:=hres.segments
  have hspareId:=hres.segId
  constructor
  · exact h.acked
  · intro p hp
    rcases List.mem_append.mp hp with hp | hp
    · exact h.stream p hp
    · rw [List.mem_singleton.mp hp]
      exact hstream
  · intro hnil
    simp at hnil
  · exact fun _ => hres.marker
  · intro _
    dsimp only
    rw [List.length_append,List.length_singleton]
    omega
  · intro _
    omega

theorem ack_solvent (h : Solvent env limits identity w.toIndex segments segId w.diskBytes) {seq bytes : ℕ}
    (hseq : seq≤u64Max) (hfirst : ∃ p∈w.pending, p.record.stream=identity.stream ∧ p.record.seq ≤ seq)
    (hclears : w.clears identity.stream seq=false) :
    Solvent env limits identity (WalInner.acknowledged env
      (w.wrote (recordFrame env (ackRecord identity.receiver identity.sender seq))) identity.stream seq
      bytes).toIndex segments segId
      (w.diskBytes+(recordFrame env (ackRecord identity.receiver identity.sender seq)).length) := by
  obtain ⟨p,hp,hstream,hle⟩:=hfirst
  have hne : w.pending≠[] := List.ne_nil_of_mem hp
  have hmarker:=@ackSize_le env identity seq hseq
  have hdisk:=h.disk hne
  have hfewer : (w.pending.filter fun q => !(q.record.stream==identity.stream &&
      decide (q.record.seq ≤ seq))).length+1≤w.pending.length := by
    apply List.length_filter_lt_length_iff_exists.mpr
    exact ⟨p,hp,by simp [hstream,hle]⟩
  constructor
  · intro s k hk
    simp only [WalInner.acknowledged,WalInner.wrote] at hk
    by_cases hs : s=identity.stream
    · exact hs
    · rw [AList.lookup_insert_ne hs] at hk
      exact h.acked s k hk
  · intro q hq
    exact h.stream q (List.mem_of_mem_filter hq)
  · intro hnil
    -- then the acknowledgement would have cleared the log
    have hall : w.clears identity.stream seq=true := by
      simp only [WalInner.clears,List.all_eq_true]
      intro q hq
      have hout:=List.filter_eq_nil_iff.mp hnil q hq
      simpa using hout
    rw [hall] at hclears
    contradiction
  · exact fun _ => h.marker hne
  · intro _
    have hmul:=Nat.mul_le_mul_right (identity.ackSize env) hfewer
    rw [Nat.add_mul] at hmul
    dsimp only [WalInner.acknowledged,WalInner.wrote]
    omega
  · exact fun _ => h.spare hne

theorem clear_solvent (h : Solvent env limits identity w.toIndex segments segId n) {seq bytes : ℕ}
    (hclears : w.clears identity.stream seq=true) {w' : WalInner} (hw' : w'.toIndex=w.toIndex) (id : ℕ) :
    Solvent env limits identity (WalInner.acknowledged env w' identity.stream seq bytes).toIndex 1 id
    ((recordFrame env (ackRecord identity.receiver identity.sender seq)).length+ w.receipts.checkpointBytes) := by
  have hacked : w'.acked=w.acked := congrArg Index.acked hw'
  have hpending : w'.pending=w.pending := congrArg Index.pending hw'
  have hreceipts : w'.receipts=w.receipts := congrArg Index.receipts hw'
  have hnil : (WalInner.acknowledged env w' identity.stream seq bytes).pending=[] := by
    simp only [WalInner.acknowledged,hpending,List.filter_eq_nil_iff]
    intro p hp
    have hall:=List.all_eq_true.mp hclears p hp
    simpa using hall
  have hentries : (WalInner.acknowledged env w' identity.stream seq bytes).acked.entries =
      [⟨identity.stream,seq⟩] := by
    simp only [WalInner.acknowledged,hacked,AList.entries_insert]
    rcases h.acked_entries with hempty | ⟨k,hone⟩
    · rw [hempty]
      rfl
    · rw [hone]
      simp [List.kerase]
  constructor
  · intro s k hk
    have hmem:=AList.mem_lookup_iff.mp hk
    rw [hentries,List.mem_singleton] at hmem
    exact congrArg Sigma.fst hmem
  · intro p hp
    rw [hnil] at hp
    contradiction
  · intro _
    refine ⟨rfl,?_⟩
    unfold retained
    rw [hentries]
    simp only [WalInner.acknowledged,hreceipts,List.map_cons,List.map_nil,List.sum_cons,List.sum_nil,Nat.add_zero]
    rfl
  · exact fun hne => absurd hnil hne
  · exact fun hne => absurd hnil hne
  · exact fun hne => absurd hnil hne

end env
end Parrot.Outbox
