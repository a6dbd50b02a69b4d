import Mathlib.Algebra.Order.BigOperators.Group.List
import Mathlib.Data.List.AList
import Parrot.Wal.Record

/-! # The receipt index (`durable/submission.rs:57-137`)

Receipts by identity, and which identity owns a sequence. -/

namespace Parrot.Wal
open Machine

structure ReceiptIndex where
  entries : AList fun _ : String × String × String => Receipt
  sequences : AList fun _ : String × String × ℕ => String
  bytes : ℕ
  checkpointBytes : ℕ

def Receipt.owner (r : Receipt) : String × String × ℕ := (r.endpoint,r.sender,r.seq)

namespace ReceiptIndex

def empty : ReceiptIndex := ⟨∅,∅,0,0⟩

def len (index : ReceiptIndex) : ℕ := index.entries.keys.length

def iter (index : ReceiptIndex) : List Receipt := index.entries.entries.map Sigma.snd

def validateBinding (index : ReceiptIndex) (endpoint sender : String) (last : ℕ) : Except String Unit :=
  if index.iter.any fun r => r.endpoint != endpoint||r.sender != sender||decide (r.seq>last) then
    .error "foreign or future submission receipt in outbox"
  else .ok ()

section env
variable (env : WalEnv) (limits : WalLimits)

def lookup (index : ReceiptIndex) (record : WalRecord) (id : String) : Except String (Option ℕ) := do
  validateId id
  match index.entries.lookup (record.endpoint,record.sender,id) with
  | some receipt =>
    if receipt.saved.fingerprint=fingerprint env record then .ok (some receipt.seq)
    else .error "submission ID conflicts with previously accepted content"
  | none => .ok none

def check (index : ReceiptIndex) (receipt : Receipt) : Except String Unit :=
  match index.entries.lookup receipt.key with
  | some saved =>
    if saved≠receipt then .error "conflicting submission receipts in WAL" else .ok ()
  | none =>
    if (index.sequences.lookup receipt.owner).isSome then
      .error "multiple submission IDs claim the same WAL sequence"
    else if index.len≥limits.maxSubmissionReceipts ∨
        index.bytes+receipt.memory>limits.maxSubmissionReceiptBytes then
      .error "submission receipt budget exceeded"
    else do
      let size ← encodedSize env limits (receipt.record env)
      match checkedAdd index.checkpointBytes size with
      | none => .error "submission checkpoint size overflow"
      | some _ => .ok ()

def insert (index : ReceiptIndex) (receipt : Receipt) : Except String ReceiptIndex := do
  index.check env limits receipt
  match index.entries.lookup receipt.key with
  | some _ => return index
  | none =>
    let size ← encodedSize env limits (receipt.record env)
    return {
      entries := index.entries.insert receipt.key receipt
      sequences := index.sequences.insert receipt.owner receipt.saved.requestId
      bytes := index.bytes+receipt.memory
      checkpointBytes := index.checkpointBytes+size}

variable {env limits} {index index' : ReceiptIndex} {receipt : Receipt}

def extend (env : WalEnv) (index : ReceiptIndex) (receipt : Receipt) : ReceiptIndex where
  entries := index.entries.insert receipt.key receipt
  sequences := index.sequences.insert receipt.owner receipt.saved.requestId
  bytes := index.bytes+receipt.memory
  checkpointBytes := index.checkpointBytes+((env.encodeRecord (receipt.record env)).length+8)

structure Room (env : WalEnv) (limits : WalLimits) (index : ReceiptIndex) (receipt : Receipt) :
    Prop where
  new : index.entries.lookup receipt.key=none
  free : index.sequences.lookup receipt.owner=none
  count : index.len<limits.maxSubmissionReceipts
  bytes : index.bytes+receipt.memory≤limits.maxSubmissionReceiptBytes
  fits : (env.encodeRecord (receipt.record env)).length≤limits.maxRecordBytes
  checkpoint : index.checkpointBytes+((env.encodeRecord (receipt.record env)).length+8)≤u64Max

theorem encodedSize_ok {r : WalRecord} {size : ℕ} (h : encodedSize env limits r=.ok size) :
    (env.encodeRecord r).length≤limits.maxRecordBytes ∧ size=(env.encodeRecord r).length+8 := by
  unfold encodedSize at h
  split at h
  · contradiction
  · exact ⟨by omega,(Except.ok.inj h).symm⟩

theorem encodedSize_eq {r : WalRecord} (h : (env.encodeRecord r).length≤limits.maxRecordBytes) :
    encodedSize env limits r=.ok ((env.encodeRecord r).length+8) := if_neg (by omega)

theorem check_iff : index.check env limits receipt=.ok () ↔
    index.entries.lookup receipt.key=some receipt ∨ Room env limits index receipt := by
  unfold check
  cases hl : index.entries.lookup receipt.key with
  | some saved =>
    dsimp only
    constructor
    · intro h
      obtain ⟨heq,h⟩:=Except.of_ite_left h
      exact .inl (by rw [not_not.mp heq])
    · rintro (h | h)
      · rw [if_neg (not_not.mpr (Option.some.inj h))]
      · exact absurd (hl.symm.trans h.new) (by simp)
  | none =>
    dsimp only
    constructor
    · intro h
      obtain ⟨hfree,h⟩:=Except.of_ite_left h
      obtain ⟨hroom,h⟩:=Except.of_ite_left h
      push Not at hroom
      cases hs : encodedSize env limits (receipt.record env) with
      | error e => simp [hs,bind,Except.bind] at h
      | ok size =>
        simp only [hs,bind,Except.bind] at h
        obtain ⟨hfits,rfl⟩:=encodedSize_ok hs
        cases hadd : checkedAdd index.checkpointBytes ((env.encodeRecord (receipt.record env)).length+8) with
        | none => simp [hadd] at h
        | some total =>
          exact .inr ⟨hl,by simpa using hfree,hroom.1,hroom.2,hfits,(checkedAdd_eq_some.mp hadd).2⟩
    · rintro (h | h)
      · contradiction
      · have hc:=h.count
        have hb:=h.bytes
        rw [if_neg (by simp [h.free]),if_neg (by omega),encodedSize_eq h.fits]
        simp only [bind,Except.bind,checkedAdd,if_pos h.checkpoint]

theorem insert_ok (h : index.insert env limits receipt=.ok index') : index.entries.lookup receipt.key=some receipt ∧
    index'=index ∨ Room env limits index receipt ∧ index'=index.extend env receipt := by
  unfold insert at h
  cases hc : index.check env limits receipt with
  | error e => simp [hc,bind,Except.bind] at h
  | ok u =>
    simp only [hc,bind,Except.bind] at h
    rcases check_iff.mp hc with hsome | hroom
    · rw [hsome] at h
      exact .inl ⟨hsome,(Except.ok.inj h).symm⟩
    · rw [hroom.new,encodedSize_eq hroom.fits] at h
      exact .inr ⟨hroom,(Except.ok.inj h).symm⟩

theorem insert_known (h : index.entries.lookup receipt.key=some receipt) :
    index.insert env limits receipt=.ok index := by
  unfold insert
  rw [check_iff.mpr (.inl h)]
  simp only [bind,Except.bind,h]
  rfl

theorem insert_room (h : Room env limits index receipt) :
    index.insert env limits receipt=.ok (index.extend env receipt) := by
  unfold insert
  rw [check_iff.mpr (.inr h)]
  simp only [bind,Except.bind,h.new,encodedSize_eq h.fits]
  rfl

theorem insert_of_check (h : index.check env limits receipt=.ok ()) :
    ∃ index', index.insert env limits receipt=.ok index' := by
  rcases check_iff.mp h with hsome | hroom
  · exact ⟨_,insert_known hsome⟩
  · exact ⟨_,insert_room hroom⟩

structure Genuine (r : Receipt) : Prop where
  id : validateId r.saved.requestId=.ok ()
  fingerprint : r.saved.fingerprint.length=32
  seq_pos : r.seq≠0
  seq_le : r.seq≤u64Max
  endpoint : r.endpoint.isEmpty=false
  sender : r.sender.isEmpty=false

def memories (index : ReceiptIndex) : ℕ := (index.iter.map Receipt.memory).sum

/-- The size of the receipts' records in a checkpoint. -/
def encoded (env : WalEnv) (index : ReceiptIndex) : ℕ :=
  (index.iter.map fun r => (env.encodeRecord (r.record env)).length+8).sum

structure Ok (env : WalEnv) (limits : WalLimits) (index : ReceiptIndex) : Prop where
  keyed : ∀ key r, index.entries.lookup key=some r → r.key=key
  owned : ∀ endpoint sender seq id, index.sequences.lookup (endpoint,sender,seq)=some id ↔
    ∃ r, index.entries.lookup (endpoint,sender,id)=some r ∧ r.seq=seq
  bytes : index.bytes=index.memories
  checkpoint : index.checkpointBytes=index.encoded env
  count_le : index.len≤limits.maxSubmissionReceipts
  bytes_le : index.bytes≤limits.maxSubmissionReceiptBytes
  checkpoint_le : index.checkpointBytes≤u64Max
  genuine : ∀ key r, index.entries.lookup key=some r → Genuine r
  fits : ∀ key r, index.entries.lookup key=some r → (env.encodeRecord (r.record env)).length≤limits.maxRecordBytes

theorem empty_ok : Ok env limits empty := by
  constructor
  · intro key r h
    simp [empty] at h
  · intro endpoint sender seq id
    simp [empty]
  · rfl
  · rfl
  · exact Nat.zero_le _
  · exact Nat.zero_le _
  · exact Nat.zero_le _
  · intro key r h
    simp [empty] at h
  · intro key r h
    simp [empty] at h

theorem mem_iter {r : Receipt} : r∈index.iter ↔ ∃ key, index.entries.lookup key=some r := by
  unfold iter
  simp only [List.mem_map]
  constructor
  · rintro ⟨⟨key,r'⟩,hmem,rfl⟩
    exact ⟨key,AList.mem_lookup_iff.mpr hmem⟩
  · rintro ⟨key,h⟩
    exact ⟨⟨key,r⟩,AList.mem_lookup_iff.mp h,rfl⟩

theorem iter_extend (h : index.entries.lookup receipt.key=none) :
    (index.extend env receipt).iter=receipt::index.iter := by
  unfold iter extend
  rw [AList.entries_insert_of_notMem (AList.lookup_eq_none.mp h)]
  rfl

theorem extend_ok (hok : Ok env limits index) (h : Room env limits index receipt)
    (hgenuine : Genuine receipt) : Ok env limits (index.extend env receipt) := by
  have hiter:=@iter_extend env _ _ h.new
  have hkey : ∀ key, (index.extend env receipt).entries.lookup key =
      if key=receipt.key then some receipt else index.entries.lookup key := by
    intro key
    by_cases hk : key=receipt.key
    · subst hk
      simp [extend]
    · simp [extend,hk]
  constructor
  · intro key r hr
    rw [hkey] at hr
    split at hr
    · rename_i hk
      rw [hk,← Option.some.inj hr]
    · exact hok.keyed key r hr
  · intro endpoint sender seq id
    rw [hkey]
    by_cases ho : (endpoint,sender,seq)=receipt.owner
    · obtain ⟨rfl,rfl,rfl⟩ : endpoint=receipt.endpoint ∧ sender=receipt.sender ∧
          seq=receipt.seq := by simpa [Receipt.owner] using ho
      have hlook : (index.extend env receipt).sequences.lookup receipt.owner =
          some receipt.saved.requestId := by simp [extend]
      rw [ho,hlook]
      constructor
      · intro hid
        cases hid
        exact ⟨receipt,if_pos rfl,rfl⟩
      · rintro ⟨r,hr,hseq⟩
        split at hr
        · rename_i hk
          have hid : id=receipt.saved.requestId := by
            simpa [Receipt.key] using hk
          rw [hid]
        · have hown:=(hok.owned _ _ _ _).mpr ⟨r,hr,hseq⟩
          exact absurd (h.free.symm.trans hown) (by simp)
    · have hlook : (index.extend env receipt).sequences.lookup (endpoint,sender,seq) =
          index.sequences.lookup (endpoint,sender,seq) := by simp [extend,ho]
      rw [hlook,hok.owned]
      by_cases hk : (endpoint,sender,id)=receipt.key
      · rw [if_pos hk,hk,h.new]
        constructor
        · rintro ⟨r,hr,-⟩
          contradiction
        · rintro ⟨r,hr,rfl⟩
          cases hr
          obtain ⟨rfl,rfl,-⟩ : endpoint=receipt.endpoint ∧ sender=receipt.sender ∧
            id=receipt.saved.requestId := by simpa [Receipt.key] using hk
          exact absurd rfl ho
      · rw [if_neg hk]
  · rw [memories,hiter,List.map_cons,List.sum_cons,Nat.add_comm]
    exact congrArg (·+receipt.memory) hok.bytes
  · rw [encoded,hiter,List.map_cons,List.sum_cons,Nat.add_comm]
    exact congrArg (·+((env.encodeRecord (receipt.record env)).length+8)) hok.checkpoint
  · have hlen : (index.extend env receipt).len=index.len+1 := by
      have hiter':=congrArg List.length hiter
      simpa [iter,len,AList.keys,List.keys] using hiter'
    rw [hlen]
    exact h.count
  · exact h.bytes
  · exact h.checkpoint
  · intro key r hr
    rw [hkey] at hr
    split at hr
    · exact Option.some.inj hr ▸ hgenuine
    · exact hok.genuine key r hr
  · intro key r hr
    rw [hkey] at hr
    split at hr
    · exact Option.some.inj hr ▸ h.fits
    · exact hok.fits key r hr

theorem insert_spec (hok : Ok env limits index) (hgenuine : Genuine receipt)
    (h : index.insert env limits receipt=.ok index') : Ok env limits index' ∧ ∀ key, index'.entries.lookup key =
    if key=receipt.key then some receipt else index.entries.lookup key := by
  rcases insert_ok h with ⟨hsome,rfl⟩ | ⟨hroom,rfl⟩
  · refine ⟨hok,?_⟩
    intro key
    by_cases hk : key=receipt.key
    · rw [if_pos hk,hk,hsome]
    · rw [if_neg hk]
  · refine ⟨extend_ok hok hroom hgenuine,?_⟩
    intro key
    by_cases hk : key=receipt.key
    · subst hk
      simp [extend]
    · simp [extend,hk]

def Within (index top : ReceiptIndex) : Prop :=
  ∀ key r, index.entries.lookup key=some r → top.entries.lookup key=some r

theorem sum_le_of_subset {β : Type} {xs ys : List β} (f : β → ℕ) (hnodup : xs.Nodup) (h : xs⊆ys) :
    (xs.map f).sum≤(ys.map f).sum := by
  obtain ⟨zs,hperm,hsub⟩:=List.subperm_of_subset hnodup h
  rw [← (hperm.map f).sum_eq]
  exact (hsub.map f).sum_le_sum fun _ _ => Nat.zero_le _

theorem insert_within {top : ReceiptIndex} (hok : Ok env limits index) (htop : Ok env limits top)
    (hwithin : Within index top) (h : top.entries.lookup receipt.key=some receipt) :
    ∃ index', index.insert env limits receipt=.ok index' := by
  cases hl : index.entries.lookup receipt.key with
  | some saved =>
    have hsame : saved=receipt := Option.some.inj ((hwithin _ _ hl).symm.trans h)
    exact ⟨_,insert_known (hsame ▸ hl)⟩
  | none =>
    have hnodup : (⟨receipt.key,receipt⟩::index.entries.entries).Nodup := by
      rw [List.nodup_cons]
      refine ⟨?_,index.entries.nodupKeys.nodup⟩
      intro hmem
      exact absurd (hl.symm.trans (AList.mem_lookup_iff.mpr hmem)) (by simp)
    have hsub : (⟨receipt.key,receipt⟩::index.entries.entries)⊆top.entries.entries := by
      intro x hx
      rcases List.mem_cons.mp hx with rfl | hx
      · exact AList.mem_lookup_iff.mp h
      · exact AList.mem_lookup_iff.mp (hwithin x.1 x.2 (AList.mem_lookup_iff.mpr hx))
    have hsum : ∀ f : Receipt → ℕ, f receipt+(index.iter.map f).sum≤(top.iter.map f).sum := by
      intro f
      have hle:=sum_le_of_subset (fun x => f x.2) hnodup hsub
      simpa [iter,List.map_map,Function.comp_def] using hle
    have hlen : index.len<top.len := by
      have hle:=(List.subperm_of_subset hnodup hsub).length_le
      simp only [List.length_cons] at hle
      simp only [len,AList.keys,List.keys,List.length_map]
      omega
    refine ⟨_,insert_room ⟨hl,?_,hlen.trans_le htop.count_le,?_,htop.fits _ _ h,?_⟩⟩
    · cases hs : index.sequences.lookup receipt.owner with
      | none => rfl
      | some id =>
        obtain ⟨r,hr,hseq⟩:=(hok.owned receipt.endpoint receipt.sender receipt.seq id).mp hs
        have h1:=(htop.owned receipt.endpoint receipt.sender receipt.seq id).mpr
          ⟨r,hwithin _ _ hr,hseq⟩
        have h2:=(htop.owned receipt.endpoint receipt.sender receipt.seq
          receipt.saved.requestId).mpr ⟨receipt,h,rfl⟩
        obtain rfl : id=receipt.saved.requestId := Option.some.inj (h1.symm.trans h2)
        exact absurd (hl.symm.trans hr) (by simp)
    · have hmem:=hsum Receipt.memory
      have hb:=hok.bytes
      have htb:=htop.bytes
      have hle:=htop.bytes_le
      unfold memories at hb htb
      omega
    · have hmem:=hsum fun r => (env.encodeRecord (r.record env)).length+8
      have hb:=hok.checkpoint
      have htb:=htop.checkpoint
      have hle:=htop.checkpoint_le
      unfold encoded at hb htb
      omega

end env
end ReceiptIndex
end Parrot.Wal
