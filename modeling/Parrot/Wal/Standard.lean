import Parrot.Wal.Record

/-! # The formats of the log

`serde_remote_serialize` over the three stored types, and `serde_remote_deserialize`
(`remote_decode.rs:34-61`), which reads a whole value under the limit of the wire. -/

namespace Parrot.Wal
open Machine
open Bincode (Bytes Codec utf8 u64_pos u64_le_nine bytes_length string_length)

def recordCodec : Codec WalRecord :=
  (Bincode.string.pair (Bincode.string.pair (Bincode.u64.pair (Bincode.string.pair
    (Bincode.string.pair Bincode.bytes))))).via
    (fun r => (r.endpoint,r.sender,r.seq,r.path,r.typeKey,r.payload))
    (fun (endpoint,sender,seq,path,typeKey,payload) => some ⟨endpoint,sender,seq,path,typeKey,payload⟩)
    fun _ => rfl

def acceptanceCodec : Codec Acceptance :=
  (Bincode.string.pair (Bincode.string.pair Bincode.bytes)).via
    (fun a => (a.requestId,a.typeKey,a.payload))
    (fun (requestId,typeKey,payload) => some ⟨requestId,typeKey,payload⟩) fun _ => rfl

def decodeWhole {α : Type} (x : Codec α) (b : Bytes) : Except String α :=
  if b.length>wireLimit then .error "bincode decode: payload byte limit exceeded"
  else
    match x.decode b with
    | none => .error "bincode decode"
    | some (a,rest) =>
      if rest.isEmpty then .ok a else .error s!"bincode decode: {rest.length} trailing bytes"

/- The fingerprint is a fixed array, so it has no length of its own. -/
def encodeSaved (s : SavedReceipt) : Bytes := Bincode.string.encode s.requestId++s.fingerprint

def decodeSaved (b : Bytes) : Except String SavedReceipt :=
  if b.length>wireLimit then .error "bincode decode: payload byte limit exceeded"
  else
    match Bincode.string.decode b with
    | none => .error "bincode decode"
    | some (id,rest) =>
      if rest.length<32 then .error "bincode decode"
      else if rest.length>32 then .error s!"bincode decode: {rest.length-32} trailing bytes"
      else .ok ⟨id,rest⟩

theorem bytes_fits {b : Bytes} (h : b.length≤wireLimit) : Bincode.bytes.fits b=true :=
  Bincode.bytes_fits (h.trans_lt (by decide))

theorem string_fits {s : String} (h : (Bincode.string.encode s).length≤wireLimit) : Bincode.string.fits s=true := by
  refine bytes_fits (Nat.le_trans ?_ h)
  rw [string_length,Bincode.utf8_length]
  exact Nat.le_add_left ..

theorem decodeWhole_encode {α : Type} {x : Codec α} {a : α} (hfits : x.fits a=true)
    (hlen : (x.encode a).length≤wireLimit) : decodeWhole x (x.encode a)=.ok a := by
  unfold decodeWhole
  rw [if_neg (Nat.not_lt.mpr hlen),Codec.decode_exact hfits]
  rfl

variable (r : WalRecord)

theorem record_length : (recordCodec.encode r).length =
    (Bincode.string.encode r.endpoint).length+(Bincode.string.encode r.sender).length+
      (Bincode.u64.encode r.seq).length+(Bincode.string.encode r.path).length+
      (Bincode.string.encode r.typeKey).length+(Bincode.bytes.encode r.payload).length := by
  simp only [recordCodec,Codec.via,Codec.pair,List.length_append]
  omega

theorem record_fits {r : WalRecord} (hseq : r.seq≤u64Max)
    (hlen : (recordCodec.encode r).length≤wireLimit) : recordCodec.fits r=true := by
  rw [record_length] at hlen
  have hpayload:=bytes_length r.payload
  have h1:=string_fits (s := r.endpoint) (by omega)
  have h2:=string_fits (s := r.sender) (by omega)
  have h3 : Bincode.u64.fits r.seq=true := by
    have hlt : r.seq<256^8 := by
      rw [u64Max] at hseq
      omega
    exact decide_eq_true hlt
  have h4:=string_fits (s := r.path) (by omega)
  have h5:=string_fits (s := r.typeKey) (by omega)
  have h6:=bytes_fits (b := r.payload) (by omega)
  simp only [recordCodec,Codec.via,Codec.pair,h1,h2,h3,h4,h5,h6,Bool.and_self]

theorem acceptance_fits {a : Acceptance} (hlen : (acceptanceCodec.encode a).length≤wireLimit) :
    acceptanceCodec.fits a=true := by
  have hpayload:=bytes_length a.payload
  simp only [acceptanceCodec,Codec.via,Codec.pair,List.length_append] at hlen
  have h1:=string_fits (s := a.requestId) (by omega)
  have h2:=string_fits (s := a.typeKey) (by omega)
  have h3:=bytes_fits (b := a.payload) (by omega)
  simp only [acceptanceCodec,Codec.via,Codec.pair,h1,h2,h3,Bool.and_self]

theorem decodeSaved_encode {s : SavedReceipt} (hfp : s.fingerprint.length=32)
    (hlen : (encodeSaved s).length≤wireLimit) : decodeSaved (encodeSaved s)=.ok s := by
  have hfits : Bincode.string.fits s.requestId=true := by
    refine string_fits (Nat.le_trans ?_ hlen)
    simp [encodeSaved]
  unfold decodeSaved
  rw [if_neg (Nat.not_lt.mpr hlen),encodeSaved,Bincode.string.decode_encode,if_pos hfits]
  simp [hfp]

theorem record_bytes_pos : 0<(recordCodec.encode r).length := by
  rw [record_length]
  have:=u64_pos r.seq
  omega

theorem record_payload_le : r.payload.length≤(recordCodec.encode r).length := by
  rw [record_length,bytes_length]
  omega

theorem record_path_le : r.path.utf8ByteSize≤(recordCodec.encode r).length := by
  have:=string_length r.path
  rw [record_length]
  omega

theorem acceptance_content_le (a : Acceptance) :
    a.typeKey.utf8ByteSize+a.payload.length≤(acceptanceCodec.encode a).length := by
  have hkey:=string_length a.typeKey
  have hpayload:=bytes_length a.payload
  simp only [acceptanceCodec,Codec.via,Codec.pair,List.length_append]
  omega

theorem record_ack_le (endpoint sender : String) (seq : ℕ) :
    (recordCodec.encode (ackRecord endpoint sender seq)).length ≤
      (recordCodec.encode (ackRecord endpoint sender u64Max)).length := by
  have hnine : (Bincode.u64.encode u64Max).length=9 := by decide
  have:=u64_le_nine seq
  simp only [record_length,ackRecord,hnine]
  omega

/- The sizes are those of `((String, String), u64)` and of a pending record on a
64-bit machine. -/
def WalEnv.standard : WalEnv where
  encodeRecord := recordCodec.encode
  decodeRecord := decodeWhole recordCodec
  encodeAcceptance := acceptanceCodec.encode
  decodeAcceptance := decodeWhole acceptanceCodec
  encodeReceipt := encodeSaved
  decodeReceipt := decodeSaved
  digest := Sha256.digest
  watermarkSize := 56
  pendingSize := 168
  record_pos := record_bytes_pos
  payload_le := record_payload_le
  path_le := record_path_le
  acceptance_le := acceptance_content_le
  decode_record := fun _ hseq hlen => decodeWhole_encode (record_fits hseq hlen) hlen
  decode_acceptance := fun _ hlen => decodeWhole_encode (acceptance_fits hlen) hlen
  decode_receipt := fun _ hfp hlen => decodeSaved_encode hfp hlen
  digest_length := Sha256.digest_length
  ack_le := fun endpoint sender seq _ => record_ack_le endpoint sender seq

end Parrot.Wal
