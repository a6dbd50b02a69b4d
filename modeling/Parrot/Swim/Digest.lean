import Parrot.Lib.Xor
import Parrot.Swim.Exchange

/-! # What the fingerprint tells apart

The fingerprint is one XOR of all hashed texts and of all status and port words, so of
two tables it sees only which texts occur an odd number of times. -/

namespace Parrot.Swim
open Parrot.Xor

def Member.texts (m : Member) : Multiset String := {m.nodeId,toString m.incarnation,m.addr.host,m.addr.scheme}

def Member.word (m : Member) : UInt64 :=
  (UInt64.ofNat (statusRank m.status) <<< 56) ^^^ (UInt64.ofNat m.addr.port*0x9e3779b97f4a7c15)

def Membership.texts (s : Membership) : Multiset String := s.members.table.entries.bind fun e => e.2.texts

def Membership.words (s : Membership) : UInt64 := xorAll (s.members.table.entries.map fun e => e.2.word)

def Membership.covered (s : Membership) (id : String) : Option (String × String × ℕ × ℕ × MemberStatus) :=
  (s.members.get id).map fun m => (m.addr.scheme,m.addr.host,m.addr.port,m.incarnation,m.status)

/-- No XOR of hashes of different texts of these tables is what their words differ by. -/
def Unrelated (hash : String → UInt64) (a b : Membership) : Prop :=
  ∀ S∈(a.texts+b.texts).toFinset.powerset, xorAll (S.val.map hash)=a.words ^^^ b.words → S = ∅

def Membership.probe (hash : String → UInt64) (s : Membership) (seenFrom : String) : MembershipGossip :=
  ⟨[],seenFrom,s.digestWith hash,none⟩

section digest
variable (hash : String → UInt64) {a b : Membership}

theorem memberHash_eq (m : Member) : memberHash hash m=xorAll (m.texts.map hash) ^^^ m.word := by
  have htexts : xorAll (m.texts.map hash) =
      hash m.nodeId ^^^ (hash (toString m.incarnation) ^^^ (hash m.addr.host ^^^ (hash m.addr.scheme ^^^ 0))) := rfl
  rw [htexts,UInt64.xor_zero]
  unfold memberHash Member.word
  generalize UInt64.ofNat (statusRank m.status) <<< 56=rank
  generalize UInt64.ofNat m.addr.port*0x9e3779b97f4a7c15=port
  ac_rfl

theorem digestWith_eq (s : Membership) : s.digestWith hash=xorAll (s.texts.map hash) ^^^ s.words := by
  have htexts : xorAll (s.texts.map hash) =
      xorAll (s.members.table.entries.map fun e => xorAll (e.2.texts.map hash)) := by
    unfold Membership.texts
    rw [Multiset.map_bind]
    exact xorAll_bind ..
  unfold Membership.digestWith Membership.words
  simp only [memberHash_eq]
  rw [htexts]
  exact xorAll_map_xor ..

theorem digest_eq_iff : a.digestWith hash=b.digestWith hash ↔
    xorAll ((odds (a.texts+b.texts)).val.map hash)=a.words ^^^ b.words := by
  rw [digestWith_eq,digestWith_eq,xor_eq_xor_iff,← xorAll_odds,Multiset.map_add,xorAll_add]

theorem digest_eq_of_even (heven : ∀ text, ¬ Odd ((a.texts+b.texts).count text)) (hwords : a.words=b.words) :
    a.digestWith hash=b.digestWith hash := by
  have hnone : odds (a.texts+b.texts) = ∅ := Finset.eq_empty_of_forall_notMem fun text ht => heven text (mem_odds.mp ht)
  rw [digest_eq_iff,hnone,hwords,UInt64.xor_self]
  rfl

theorem digest_eq_unrelated (hun : Unrelated hash a b) : a.digestWith hash=b.digestWith hash ↔
    (∀ text, ¬ Odd ((a.texts+b.texts).count text)) ∧ a.words=b.words := by
  constructor
  · intro h
    rw [digest_eq_iff] at h
    have hsub : odds (a.texts+b.texts)∈(a.texts+b.texts).toFinset.powerset :=
      Finset.mem_powerset.mpr (Finset.filter_subset ..)
    have hnone:=hun _ hsub h
    rw [hnone] at h
    refine ⟨?_,?_⟩
    · intro text hodd
      have:=mem_odds.mpr hodd
      rw [hnone] at this
      exact absurd this (Finset.notMem_empty text)
    · have hzero : a.words ^^^ b.words=b.words ^^^ b.words := by
        rw [← h,UInt64.xor_self]
        rfl
      exact (UInt64.xor_left_inj _).mp hzero
  · intro h
    exact digest_eq_of_even hash h.1 h.2

end digest

/-- Unrelated hashes tell two different tables apart exactly when some text occurs an odd
number of times in both together, or their status and port words differ. -/
theorem digest_sound_iff (hash : String → UInt64) (a b : Membership) (hun : Unrelated hash a b) :
    ((a.digestWith hash=b.digestWith hash → ∀ id, a.covered id=b.covered id) ∧
      ((∃ id, a.covered id≠b.covered id) → ∀ seenFrom, (handleGossip hash b (a.probe hash seenFrom)).1=true)) ↔
    (∃ text, Odd ((a.texts+b.texts).count text)) ∨ a.words≠b.words ∨ ∀ id, a.covered id=b.covered id := by
  have hcompare : ∀ seenFrom, (handleGossip hash b (a.probe hash seenFrom)).1 =
      decide (a.digestWith hash≠b.digestWith hash) := fun _ => rfl
  have hequal:=digest_eq_unrelated hash hun
  constructor
  · intro h
    by_cases heven : ∃ text, Odd ((a.texts+b.texts).count text)
    · exact .inl heven
    · by_cases hwords : a.words=b.words
      · exact .inr (.inr (h.1 (hequal.mpr ⟨not_exists.mp heven,hwords⟩)))
      · exact .inr (.inl hwords)
  · intro h
    have hsame : a.digestWith hash=b.digestWith hash → ∀ id, a.covered id=b.covered id := by
      intro hdigest
      obtain ⟨heven,hwords⟩:=hequal.mp hdigest
      rcases h with ⟨text,hodd⟩ | hne | hsame
      · exact absurd hodd (heven text)
      · exact absurd hwords hne
      · exact hsame
    refine ⟨hsame,?_⟩
    intro hdiffer seenFrom
    obtain ⟨id,hid⟩:=hdiffer
    rw [hcompare,decide_eq_true_eq]
    exact fun hdigest => hid (hsame hdigest id)

def pairOn (host : String) : Membership :=
  (Membership.new 0).mergeAll ((["n","m"].map fun id => ⟨id,⟨id,"tcp",host,1⟩,.alive,1,0,[]⟩).map .upsert)

/-- Both members moved to another host, and the fingerprint stays. -/
theorem digest_misses_moved_pair : Unrelated fxhash (pairOn "10.0.0.1") (pairOn "10.0.0.2") ∧
    (pairOn "10.0.0.1").digest=(pairOn "10.0.0.2").digest ∧
    (pairOn "10.0.0.1").covered "n" ≠ (pairOn "10.0.0.2").covered "n" ∧
    (handleGossip fxhash (pairOn "10.0.0.2") ((pairOn "10.0.0.1").probe fxhash "peer")).1=false := by
  refine ⟨?_,?_,?_,?_⟩
  · unfold Unrelated
    decide +kernel
  · decide +kernel
  · decide +kernel
  · decide +kernel

theorem digest_sound_iff_moved : Unrelated fxhash (sampleTable 1) (pairOn "10.0.0.1") ∧
    (handleGossip fxhash (pairOn "10.0.0.1") ((sampleTable 1).probe fxhash "peer")).1=true := by
  have hun : Unrelated fxhash (sampleTable 1) (pairOn "10.0.0.1") := by
    unfold Unrelated
    decide +kernel
  have hodd : ∃ text, Odd (((sampleTable 1).texts+(pairOn "10.0.0.1").texts).count text) := ⟨"m",by decide +kernel⟩
  have hdiffer : ∃ id, (sampleTable 1).covered id≠(pairOn "10.0.0.1").covered id := ⟨"m",by decide +kernel⟩
  exact ⟨hun,((digest_sound_iff fxhash _ _ hun).mpr (.inl hodd)).2 hdiffer "peer"⟩

end Parrot.Swim
