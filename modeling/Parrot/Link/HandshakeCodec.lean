import Parrot.Link.Handshake

/-! # The records of a handshake

Whatever the order of the fields of a valid body, and whatever other fields stand between
them, the decoder finds each of them once. -/

namespace Parrot.Link
open Machine Parrot.Wire
open Bincode (Bytes leBytes ofLeBytes utf8)

variable {b : HandshakeBody} {out : TlvFields}

def Short (s : Option String) : Prop := ∀ x, s=some x → x.utf8ByteSize≤65535

namespace HandshakeBody

structure Valid (b : HandshakeBody) : Prop where
  nodeId : b.nodeId.utf8ByteSize≤65535
  realm : Short b.realm
  cluster : Short b.cluster
  directAddr : Short b.directAddr
  named : (b.nodeId.isEmpty||b.nodeId.toList.contains '\x00')=false
  maxFrameLen : bodyFixedOverhead≤b.maxFrameLen.toNat
  hopLimit : b.hopLimit≠0

theorem short_of_validateLen {tag : UInt8} {s : Option String} (h : validateLen tag s=.ok ()) : Short s := by
  intro x hx
  rw [hx] at h
  simp only [validateLen] at h
  split at h
  · contradiction
  · omega

theorem validateLen_of_short {tag : UInt8} {s : Option String} (h : Short s) : validateLen tag s=.ok () := by
  unfold validateLen
  split
  · next x =>
    have:=h x rfl
    rw [if_neg (by omega)]
  · rfl

theorem validate_ok : b.validate=.ok () ↔ Valid b := by
  unfold validate
  constructor
  · intro h
    obtain ⟨_,hn,h⟩:=bind_eq_ok.mp h
    obtain ⟨_,hr,h⟩:=bind_eq_ok.mp h
    obtain ⟨_,hc,h⟩:=bind_eq_ok.mp h
    obtain ⟨_,hd,h⟩:=bind_eq_ok.mp h
    split at h
    · contradiction
    · next hnamed =>
      split at h
      · contradiction
      · next hmax =>
        split at h
        · contradiction
        · next hhop =>
          exact ⟨short_of_validateLen hn _ rfl,short_of_validateLen hr,short_of_validateLen hc,
            short_of_validateLen hd,by simpa using hnamed,not_lt.mp hmax,hhop⟩
  · intro h
    have hnode : Short (some b.nodeId) := fun x hx => Option.some.inj hx ▸ h.nodeId
    rw [validateLen_of_short hnode,validateLen_of_short h.realm,validateLen_of_short h.cluster,
      validateLen_of_short h.directAddr]
    simp only [bind,Except.bind]
    rw [if_neg (by rw [h.named]; exact Bool.false_ne_true),if_neg (not_lt.mpr h.maxFrameLen),if_neg h.hopLimit]
    rfl

/-- What the other side learns: an empty address is none. -/
def learnt (b : HandshakeBody) : HandshakeBody := {b with directAddr := b.directAddr.filter fun d => d ≠ ""}

end HandshakeBody

open HandshakeBody

structure Carries (out : TlvFields) (b : HandshakeBody) : Prop where
  nodeId : takeOne out TlvTag.nodeId=.ok (some (utf8 b.nodeId))
  realm : takeOne out TlvTag.realm=.ok (b.realm.map utf8)
  cluster : takeOne out TlvTag.cluster=.ok (b.cluster.map utf8)
  capabilities : takeOne out TlvTag.capabilities=.ok (some (leBytes 4 b.capabilities.toNat))
  maxFrameLen : takeOne out TlvTag.maxFrameLen=.ok (some (leBytes 4 b.maxFrameLen.toNat))
  topologyRole : takeOne out TlvTag.topologyRole=.ok (some [b.topologyRole.toU8])
  hopLimit : takeOne out TlvTag.hopLimit=.ok (some [b.hopLimit])
  directAddr : takeOne out TlvTag.directAddr=.ok (b.directAddr.map utf8)

def fields (records : List Tlv.Record) : TlvFields := records.foldl (Tlv.collect knownTag) fun _ => .empty

variable {records : List Tlv.Record} {tag : UInt8}

theorem takeOne_fields {o : Option Bytes} (hknown : knownTag tag=true)
    (hv : Tlv.values records tag=o.toList) : takeOne (fields records) tag=.ok o := by
  rw [takeOne,fields,Tlv.collect_foldl hknown,hv]
  cases o with
  | none => rfl
  | some v => rfl

theorem takeOne_perm {records other : List Tlv.Record} {o : Option Bytes}
    (hp : records.Perm (b.records++other)) (hknown : knownTag tag=true) (hother : ∀ r∈other, r.1≠tag)
    (hv : Tlv.values b.records tag=o.toList) : takeOne (fields records) tag=.ok o := by
  apply takeOne_fields hknown
  have hnone : Tlv.values other tag=[] := by
    rw [Tlv.values,List.map_eq_nil_iff,List.filter_eq_nil_iff]
    intro r hr
    simpa using hother r hr
  have happ : Tlv.values (b.records++other) tag=o.toList := by
    have hsplit : Tlv.values (b.records++other) tag=Tlv.values b.records tag++Tlv.values other tag := by
      simp only [Tlv.values,List.filter_append,List.map_append]
    rw [hsplit,hv,hnone,List.append_nil]
  rw [Tlv.values_perm hp,happ]
  rw [happ]
  cases o with
  | none => exact Nat.zero_le _
  | some v => exact le_rfl

theorem carries_perm {records other : List Tlv.Record} (hp : records.Perm (b.records++other))
    (hother : ∀ r∈other, r.1=0 ∨ TlvTag.chosenCodec ≤ r.1) : Carries (fields records) b := by
  have hne : ∀ tag : UInt8, tag≠0 → tag<TlvTag.chosenCodec → ∀ r∈other, r.1≠tag := by
    intro tag hzero hlt r hr heq
    rcases hother r hr with h | h
    · exact hzero (heq.symm.trans h)
    · exact absurd (heq ▸ h) (UInt8.not_le.mpr hlt)
  obtain ⟨nodeId,realm,cluster,capabilities,maxFrameLen,topologyRole,hopLimit,directAddr⟩:=b
  constructor
  all_goals
    refine takeOne_perm hp (by decide) (hne _ (by decide) (by decide)) ?_
    cases realm <;> cases cluster <;> cases directAddr <;> rfl

theorem decodeString_utf8 (s : String) (tag : UInt8) : decodeString (utf8 s) tag=.ok s := by
  rw [decodeString,Bincode.fromUTF8_utf8]

theorem takeString_utf8 {s : Option String} (h : takeOne out tag=.ok (s.map utf8)) : takeString out tag=.ok s := by
  rw [takeString,h]
  cases s with
  | none => rfl
  | some x =>
    simp only [Option.map_some,bind,Except.bind,decodeString_utf8]
    rfl

theorem takeU32_le {n : UInt32} (h : takeOne out tag=.ok (some (leBytes 4 n.toNat))) : takeU32 out tag=.ok n := by
  have hlt : n.toNat<256^4 := n.toNat_lt
  simp only [takeU32,takeRequired,h,bind,Except.bind,Bincode.leBytes_length,ne_eq,not_true_eq_false,if_false,
    Bincode.ofLeBytes_leBytes hlt,UInt32.ofNat_toNat]
  rfl

theorem fromU8_toU8 (role : TopologyRole) : TopologyRole.fromU8 role.toU8=some role := by
  cases role <;> rfl

theorem utf8_eq_nil {s : String} : utf8 s=[] ↔ s = "" := by
  constructor
  · intro h
    have hlen:=Bincode.utf8_length s
    rw [h] at hlen
    exact String.utf8ByteSize_eq_zero_iff.mp hlen.symm
  · rintro rfl
    rfl

theorem takeDirectAddr_utf8 {addr : Option String} (h : takeOne out TlvTag.directAddr=.ok (addr.map utf8)) :
    takeDirectAddr out=.ok (addr.filter fun d => d ≠ "") := by
  rw [takeDirectAddr,h]
  cases addr with
  | none => rfl
  | some d =>
    by_cases hd : d = ""
    · rw [hd]
      rfl
    · cases hu : utf8 d with
      | nil => exact absurd (utf8_eq_nil.mp hu) hd
      | cons x rest =>
        have hdec : decodeString (x::rest) TlvTag.directAddr=.ok d := hu ▸ decodeString_utf8 d _
        simp only [Option.map_some,hu,bind,Except.bind,hdec]
        simp [pure,Except.pure,Option.filter,hd]

theorem decodeCommon_ok (h : Carries out b) (hv : Valid b) : decodeCommon out=.ok b.learnt := by
  have hnode : takeNodeId out=.ok b.nodeId := by
    simp only [takeNodeId,takeRequired,h.nodeId,bind,Except.bind,decodeString_utf8,hv.named,Bool.false_eq_true,if_false]
    rfl
  have hmax : takeMaxFrameLen out=.ok b.maxFrameLen := by
    simp only [takeMaxFrameLen,takeU32_le h.maxFrameLen,bind,Except.bind,not_lt.mpr hv.maxFrameLen,if_false]
    rfl
  have hrole : takeRole out=.ok b.topologyRole := by
    simp only [takeRole,takeRequired,h.topologyRole,bind,Except.bind,List.length_singleton,ne_eq,not_true_eq_false,
      if_false,List.headD_cons,fromU8_toU8]
    rfl
  have hhop : takeHopLimit out=.ok b.hopLimit := by
    simp only [takeHopLimit,h.hopLimit,bind,Except.bind,pure,Except.pure,hv.hopLimit,if_false]
  simp only [decodeCommon,hnode,takeU32_le h.capabilities,hmax,hrole,takeString_utf8 h.realm,
    takeString_utf8 h.cluster,hhop,takeDirectAddr_utf8 h.directAddr,bind,Except.bind]
  rfl

theorem readTlv_encode (h : ∀ r∈records, r.2.length≤65535) : readTlv (Tlv.encode records)=.ok (fields records) := by
  have hlt : ∀ r∈records, r.2.length<256^2 := fun r hr => Nat.lt_succ_of_le (h r hr)
  rw [readTlv,Tlv.scan_encode _ hlt (Tlv.length_le_encode records)]
  rfl

theorem putAll_ok (h : ∀ r∈records, r.2.length≤65535) : putAll records=.ok (Tlv.encode records) := by
  have hgen : ∀ buf, records.foldlM (fun buf r => do return buf++(← putTlv r.1 r.2)) buf =
      Except.ok (buf++Tlv.encode records) := by
    induction records with
    | nil =>
      intro buf
      rw [Tlv.encode,List.flatMap_nil,List.append_nil]
      rfl
    | cons r records ih =>
      intro buf
      have hput : putTlv r.1 r.2=.ok (Tlv.Record.bytes r) := by
        rw [putTlv,if_neg (not_lt.mpr (h r (List.mem_cons_self ..)))]
      simp only [List.foldlM_cons,hput,bind,Except.bind,pure,Except.pure]
      rw [show (buf++Tlv.encode (r::records))=(buf++Tlv.Record.bytes r)++Tlv.encode records by
        rw [Tlv.encode,List.flatMap_cons,List.append_assoc]; rfl]
      exact ih (fun x hx => h x (List.mem_cons_of_mem _ hx)) _
  rw [putAll,hgen,List.nil_append]

theorem mem_toList_map {f : String → Tlv.Record} {o : Option String} {r : Tlv.Record} (h : r∈(o.map f).toList) :
    ∃ x, o=some x ∧ r=f x := by
  cases o with
  | none => exact absurd h List.not_mem_nil
  | some x => exact ⟨x,rfl,List.mem_singleton.mp h⟩

theorem records_short (hv : Valid b) : ∀ r∈b.records, r.2.length≤65535 := by
  intro r hr
  simp only [records,List.mem_append,List.mem_cons,List.not_mem_nil,or_false] at hr
  rcases hr with (((rfl | h) | h) | rfl | rfl | rfl | rfl) | h
  · rw [Bincode.utf8_length]
    exact hv.nodeId
  · obtain ⟨x,hx,rfl⟩:=mem_toList_map h
    rw [Bincode.utf8_length]
    exact hv.realm x hx
  · obtain ⟨x,hx,rfl⟩:=mem_toList_map h
    rw [Bincode.utf8_length]
    exact hv.cluster x hx
  · rw [Bincode.leBytes_length]
    decide
  · rw [Bincode.leBytes_length]
    decide
  · exact Nat.succ_le_succ (Nat.zero_le _)
  · exact Nat.succ_le_succ (Nat.zero_le _)
  · obtain ⟨x,hx,rfl⟩:=mem_toList_map h
    rw [Bincode.utf8_length]
    exact hv.directAddr x hx

theorem decodeTlv_perm (hv : Valid b) {records unknown : List Tlv.Record} (hp : records.Perm (b.records++unknown))
    (hunknown : ∀ r∈unknown, (r.1=0 ∨ TlvTag.chosenCodec < r.1) ∧ r.2.length≤65535) :
    HandshakeBody.decodeTlv (Tlv.encode records)=.ok b.learnt := by
  have hshort : ∀ r∈records, r.2.length≤65535 := by
    intro r hr
    rcases List.mem_append.mp (hp.mem_iff.mp hr) with h | h
    · exact records_short hv r h
    · exact (hunknown r h).2
  have hcodec : takeOne (fields records) TlvTag.chosenCodec=.ok none := by
    refine takeOne_perm hp (by decide) ?_ ?_
    · intro r hr heq
      rcases (hunknown r hr).1 with h | h
      · rw [heq] at h
        exact absurd h (by decide)
      · rw [heq] at h
        exact UInt8.lt_irrefl _ h
    · obtain ⟨nodeId,realm,cluster,capabilities,maxFrameLen,topologyRole,hopLimit,directAddr⟩:=b
      cases realm <;> cases cluster <;> cases directAddr <;> rfl
  have hcarries : Carries (fields records) b := carries_perm hp fun r hr => (hunknown r hr).1.imp id UInt8.le_of_lt
  rw [HandshakeBody.decodeTlv,readTlv_encode hshort]
  simp only [bind,Except.bind,hcodec,Option.isSome_none,Bool.false_eq_true,if_false]
  exact decodeCommon_ok hcarries hv

end Parrot.Link
