import Parrot.Link.HandshakeCodec

/-! # Both sides agree

Each side takes the smaller of two limits and the common part of two capability sets. -/

namespace Parrot.Link
open Machine Parrot.Wire
open HandshakeBody (Valid validate_ok)
open Bincode (Bytes leBytes utf8)

variable {a c b : HandshakeBody} {verify : String → Bool}

variable {f : Frame}

theorem plain_flags (hflags : f.header.flags=0) (hkey : f.typeKey="") : f.validatePayloadFlags=.ok () := by
  have hsupported : ¬f.Unsupported := by
    unfold Frame.Unsupported
    rw [hflags,hkey]
    simp only [UInt16.zero_and]
    have hdurable : ¬("" = durableKey) := by decide
    have hboth : ¬(0=Flags.batch ||| Flags.urgent) := by decide
    simp [hdurable,hboth]
  unfold Frame.validatePayloadFlags
  rw [if_neg hsupported,hflags]
  rfl

structure Plain (f : Frame) : Prop where
  flags : f.header.flags=0
  key : f.typeKey=""
  version : f.header.version=protocolVersion
  routable : f.Routable

theorem handshakeFrame_plain (payload : Bytes) : Plain (handshakeFrame payload) :=
  ⟨rfl,rfl,rfl,rfl,(by decide : (0 : UInt8)<defaultHopLimit)⟩

theorem handshakeAckFrame_plain (payload : Bytes) : Plain (handshakeAckFrame payload) :=
  ⟨rfl,rfl,rfl,rfl,(by decide : (0 : UInt8)<defaultHopLimit)⟩

theorem recvExpect_bytes (h : Plain f) (hlen : f.bodyLen ≤ maxFrameLen) (tail : Bytes) :
    recvExpect f.header.frameType (f.bytes++tail)=.ok (f.filled,tail) := by
  have hdec : (Codec.negotiated maxFrameLen).decode (f.bytes++tail)=(.ok (some f.filled),tail) :=
    Frame.decodeWithLimit_bytes h.routable h.version (le_min hlen hlen) tail
  have hflags : f.filled.validatePayloadFlags=.ok () := plain_flags h.flags h.key
  rw [recvExpect,hdec]
  simp only [hflags,Except.mapError,bind,Except.bind]
  exact if_pos rfl

theorem encode_plain (h : Plain f) (hlen : f.bodyLen ≤ maxFrameLen) :
    (Codec.negotiated maxFrameLen).encode f=.ok f.bytes :=
  Codec.encode_ok.mpr ⟨le_min hlen hlen,h.version,rfl⟩

theorem bytes_length (r : Tlv.Record) : (Tlv.Record.bytes r).length=3+r.2.length := by
  simp only [Tlv.Record.bytes,List.length_cons,List.length_append,Bincode.leBytes_length]
  omega

theorem encode_length {records : List Tlv.Record} (h : ∀ r∈records, r.2.length≤65535) :
    (Tlv.encode records).length≤65538*records.length := by
  induction records with
  | nil => exact Nat.zero_le _
  | cons r records ih =>
    have hr:=h r (List.mem_cons_self ..)
    have hrest:=ih fun x hx => h x (List.mem_cons_of_mem _ hx)
    have hstep : (Tlv.encode (r::records)).length=3+r.2.length+(Tlv.encode records).length := by
      rw [Tlv.encode,List.flatMap_cons,List.length_append,bytes_length]
      rfl
    rw [hstep,List.length_cons]
    omega

theorem records_length (b : HandshakeBody) : b.records.length≤8 := by
  obtain ⟨nodeId,realm,cluster,capabilities,maxFrameLen,topologyRole,hopLimit,directAddr⟩:=b
  cases realm <;> cases cluster <;> cases directAddr <;> exact Nat.le_of_ble_eq_true rfl

theorem payload_fits {records : List Tlv.Record} (h : ∀ r∈records, r.2.length≤65535) (hlen : records.length≤9) (hf : f.path = "" ∧ f.typeKey="" ∧ f.payload=Tlv.encode records) : f.bodyLen ≤ maxFrameLen := by
  have hpayload:=encode_length h
  rw [Frame.bodyLen,hf.1,hf.2.1,hf.2.2]
  have hempty : "".utf8ByteSize=0 := rfl
  rw [hempty,bodyFixedOverhead,maxFrameLen]
  omega

def helloBytes (a : HandshakeBody) : Bytes := (handshakeFrame (Tlv.encode a.records)).bytes

variable (k : HandshakeAckBody)

def ackRecords : List Tlv.Record := k.records++[(TlvTag.chosenCodec,utf8 k.chosenCodec)]

def ackBytes : Bytes := (handshakeAckFrame (Tlv.encode (ackRecords k))).bytes

theorem connectHello_ok (ha : Valid a) : connectHello a=.ok (helloBytes a) := by
  have hshort:=records_short ha
  have hfits : (handshakeFrame (Tlv.encode a.records)).bodyLen ≤ maxFrameLen :=
    payload_fits hshort ((records_length a).trans (by decide)) ⟨rfl,rfl,rfl⟩
  have henc : a.encodeTlv=.ok (Tlv.encode a.records) := by
    rw [HandshakeBody.encodeTlv,validate_ok.mpr ha,putAll_ok hshort]
    rfl
  rw [connectHello,henc]
  have hsend:=encode_plain (handshakeFrame_plain (Tlv.encode a.records)) hfits
  simp only [Except.mapError,bind,Except.bind,hsend]
  rfl

structure Chosen (k : HandshakeAckBody) : Prop where
  short : (utf8 k.chosenCodec).length≤65535
  valid : validateChosen k.chosenCodec k.capabilities=.ok ()

theorem ackRecords_short {k : HandshakeAckBody} (hv : Valid k.toHandshakeBody) (hk : Chosen k) :
    ∀ r∈ackRecords k, r.2.length≤65535 := by
  intro r hr
  rcases List.mem_append.mp hr with h | h
  · exact records_short hv r h
  · rw [List.mem_singleton.mp h]
    exact hk.short

theorem ackRecords_length : (ackRecords k).length≤9 := by
  have:=records_length k.toHandshakeBody
  rw [ackRecords,List.length_append,List.length_singleton]
  omega

theorem ack_encodeTlv {k : HandshakeAckBody} (hv : Valid k.toHandshakeBody) (hk : Chosen k) :
    k.encodeTlv=.ok (Tlv.encode (ackRecords k)) := by
  rw [HandshakeAckBody.encodeTlv,validate_ok.mpr hv]
  simp only [bind,Except.bind,hk.valid]
  exact putAll_ok (ackRecords_short hv hk)

def HandshakeAckBody.learnt : HandshakeAckBody := ⟨k.toHandshakeBody.learnt,k.chosenCodec⟩

theorem ack_decodeTlv {k : HandshakeAckBody} (hv : Valid k.toHandshakeBody) (hk : Chosen k) :
    HandshakeAckBody.decodeTlv (Tlv.encode (ackRecords k))=.ok k.learnt := by
  have hother : ∀ r∈[(TlvTag.chosenCodec,utf8 k.chosenCodec)], r.1=0 ∨ TlvTag.chosenCodec ≤ r.1 := by
    intro r hr
    rw [List.mem_singleton.mp hr]
    exact .inr (UInt8.le_refl _)
  have hcarries : Carries (fields (ackRecords k)) k.toHandshakeBody := carries_perm (.refl _) hother
  have hcodec : takeString (fields (ackRecords k)) TlvTag.chosenCodec=.ok (some k.chosenCodec) := by
    apply takeString_utf8
    apply takeOne_fields (by decide)
    obtain ⟨⟨nodeId,realm,cluster,capabilities,maxFrameLen,topologyRole,hopLimit,directAddr⟩,codec⟩:=k
    cases realm <;> cases cluster <;> cases directAddr <;> rfl
  rw [HandshakeAckBody.decodeTlv,readTlv_encode (ackRecords_short hv hk)]
  simp only [bind,Except.bind,decodeCommon_ok hcarries hv,hcodec,Option.getD_some]
  have hvalid : validateChosen k.chosenCodec k.toHandshakeBody.learnt.capabilities=.ok () := hk.valid
  rw [hvalid]
  rfl

theorem and_left_ne {x y m : UInt32} (h : x &&& y &&& m≠0) : x &&& m≠0 := by
  intro hx
  apply h
  rw [UInt32.and_comm x y,UInt32.and_assoc,hx,UInt32.and_zero]

theorem and_right_ne {x y m : UInt32} (h : x &&& y &&& m≠0) : y &&& m≠0 := by
  rw [UInt32.and_comm x y] at h
  exact and_left_ne h

def Common (a c : HandshakeBody) : Prop := c.capabilities &&& a.capabilities &&& (Caps.bin ||| Caps.pb)≠0

theorem ackBody_codec (h : Common a c) : ∃ cap, chosenCap (ackBody c a).chosenCodec=some cap ∧
    c.capabilities &&& a.capabilities &&& cap≠0 := by
  by_cases hbin : c.capabilities &&& a.capabilities &&& Caps.bin≠0
  · refine ⟨Caps.bin,?_,hbin⟩
    rw [ackBody,if_pos hbin]
    rfl
  · refine ⟨Caps.pb,?_,?_⟩
    · rw [ackBody,if_neg hbin]
      rfl
    · intro hpb
      apply h
      have hdistrib : c.capabilities &&& a.capabilities &&& (Caps.bin ||| Caps.pb) =
          (c.capabilities &&& a.capabilities &&& Caps.bin) ||| (c.capabilities &&& a.capabilities &&& Caps.pb) :=
        UInt32.toBitVec_inj.mp BitVec.and_or_distrib_left
      rw [hdistrib,not_not.mp hbin,hpb]
      rfl

theorem chosen_of_cap {codec : String} {capabilities cap : UInt32} (h : chosenCap codec=some cap)
    (hcap : capabilities &&& cap≠0) : (utf8 codec).length≤65535 ∧ validateChosen codec capabilities=.ok () := by
  unfold chosenCap at h
  split at h
  · next hbin =>
    cases h
    rw [hbin]
    refine ⟨by decide,?_⟩
    rw [validateChosen,if_neg (by decide),if_pos rfl,if_neg hcap]
  · split at h
    · next hpb =>
      cases h
      rw [hpb]
      refine ⟨by decide,?_⟩
      rw [validateChosen,if_neg (by decide),if_neg (by decide),if_pos rfl,if_neg hcap]
    · contradiction

theorem ackBody_chosen (h : Common a c) : Chosen (ackBody c a) := by
  obtain ⟨cap,hcap,hboth⟩:=ackBody_codec h
  obtain ⟨hshort,hvalid⟩:=@chosen_of_cap _ c.capabilities _ hcap (and_left_ne hboth)
  exact ⟨hshort,hvalid⟩

theorem min_toNat (x y : UInt32) : (min x y).toNat=min x.toNat y.toNat := by
  have hmin : min x y=if x≤y then x else y := rfl
  rw [hmin]
  split
  · next h => exact (min_eq_left (UInt32.le_iff_toNat_le.mp h)).symm
  · next h =>
    have hlt : ¬x.toNat≤y.toNat := fun hle => h (UInt32.le_iff_toNat_le.mpr hle)
    exact (min_eq_right (not_le.mp hlt).le).symm

theorem ackBody_valid (ha : Valid a) (hc : Valid c) : Valid (ackBody c a).toHandshakeBody := by
  refine ⟨hc.nodeId,hc.realm,hc.cluster,hc.directAddr,hc.named,?_,hc.hopLimit⟩
  have hmin : ((ackBody c a).maxFrameLen).toNat=min c.maxFrameLen.toNat a.maxFrameLen.toNat := min_toNat ..
  rw [hmin]
  exact le_min hc.maxFrameLen ha.maxFrameLen

theorem accept_hello (ha : Valid a) (hc : Valid c) (tail : Bytes) : accept c verify (helloBytes a++tail) =
    if verify a.nodeId then if c.capabilities &&& a.capabilities &&& (Caps.bin ||| Caps.pb)=0 then .error
    .noCommonCodec else .ok (a.learnt,ackBytes (ackBody c a),tail) else .error .peer := by
  have hfits : (handshakeFrame (Tlv.encode a.records)).bodyLen ≤ maxFrameLen :=
    payload_fits (records_short ha) ((records_length a).trans (by decide)) ⟨rfl,rfl,rfl⟩
  have hrecv : recvExpect FrameType.handshake (helloBytes a++tail) =
      .ok ((handshakeFrame (Tlv.encode a.records)).filled,tail) :=
    recvExpect_bytes (handshakeFrame_plain _) hfits tail
  have hdec : HandshakeBody.decodeTlv (handshakeFrame (Tlv.encode a.records)).filled.payload=.ok a.learnt :=
    @decodeTlv_perm _ ha _ [] (by rw [List.append_nil]) (fun r hr => absurd hr List.not_mem_nil)
  have hid : a.learnt.nodeId=a.nodeId := rfl
  have hcaps : a.learnt.capabilities=a.capabilities := rfl
  rw [accept,hrecv]
  simp only [bind,Except.bind,hdec,Except.mapError,hid,hcaps]
  split
  · by_cases hcommon : c.capabilities &&& a.capabilities &&& (Caps.bin ||| Caps.pb)=0
    · rw [negotiateCaps,if_pos hcommon,if_pos hcommon]
    · rw [negotiateCaps,if_neg hcommon,if_neg hcommon]
      have hv:=ackBody_valid ha hc
      have hk:=ackBody_chosen hcommon
      have hbody : ackBody c a.learnt=ackBody c a := rfl
      have hackFits : (handshakeAckFrame (Tlv.encode (ackRecords (ackBody c a)))).bodyLen ≤ maxFrameLen :=
        payload_fits (ackRecords_short hv hk) (ackRecords_length _) ⟨rfl,rfl,rfl⟩
      simp only [hbody,ack_encodeTlv hv hk,encode_plain (handshakeAckFrame_plain _) hackFits]
      rfl
  · rfl

theorem connectFinish_ack (ha : Valid a) (hc : Valid c) (hcommon : Common a c) (tail : Bytes) : connectFinish a verify
    (ackBytes (ackBody c a)++tail) = if verify c.nodeId then .ok ((ackBody c a).learnt,tail) else .error .peer := by
  have hv:=ackBody_valid ha hc
  have hk:=ackBody_chosen hcommon
  have hfits : (handshakeAckFrame (Tlv.encode (ackRecords (ackBody c a)))).bodyLen ≤ maxFrameLen :=
    payload_fits (ackRecords_short hv hk) (ackRecords_length _) ⟨rfl,rfl,rfl⟩
  have hrecv : recvExpect FrameType.handshakeAck (ackBytes (ackBody c a)++tail) =
      .ok ((handshakeAckFrame (Tlv.encode (ackRecords (ackBody c a)))).filled,tail) :=
    recvExpect_bytes (handshakeAckFrame_plain _) hfits tail
  have hdec : HandshakeAckBody.decodeTlv
      (handshakeAckFrame (Tlv.encode (ackRecords (ackBody c a)))).filled.payload=.ok (ackBody c a).learnt :=
    ack_decodeTlv hv hk
  obtain ⟨cap,hcap,hboth⟩:=ackBody_codec hcommon
  have hchosen : chosenCap (ackBody c a).learnt.chosenCodec=some cap := hcap
  have hcaps : (ackBody c a).learnt.capabilities=c.capabilities := rfl
  have hid : (ackBody c a).learnt.nodeId=c.nodeId := rfl
  have hneg : negotiateCaps a.capabilities c.capabilities=.ok (a.capabilities &&& c.capabilities) := by
    rw [negotiateCaps,if_neg]
    rw [UInt32.and_comm a.capabilities]
    exact hcommon
  have hsupported : a.capabilities &&& c.capabilities &&& cap≠0 := by
    rw [UInt32.and_comm a.capabilities]
    exact hboth
  rw [connectFinish,hrecv]
  simp only [bind,Except.bind,hdec,Except.mapError,hcaps,hneg,hchosen,hsupported,if_false,hid]
  rfl

def agreedLimit (a c : HandshakeBody) : ℕ := min (min a.maxFrameLen.toNat c.maxFrameLen.toNat) maxFrameLen

theorem agreedLimit_ge (ha : Valid a) (hc : Valid c) : bodyFixedOverhead≤agreedLimit a c :=
  le_min (le_min ha.maxFrameLen hc.maxFrameLen) (by decide)

theorem negotiatedCodec_eq {peer : HandshakeBody} {m : ℕ} (h : (min b.maxFrameLen peer.maxFrameLen).toNat=m)
    (hm : bodyFixedOverhead ≤ m) : negotiatedCodec b peer=.negotiated (min m maxFrameLen) := by
  rw [negotiatedCodec,h,max_eq_left hm]

theorem admitted_read {sender : FrameSender} {n : ℕ} (hn : sender.maxFrameLen=n) (hf : f.Routable)
    (hv : f.header.version=protocolVersion) (hsend : sender.checkSend f=.ok ()) : ∃ bytes, (Codec.negotiated n).encode
    f=.ok bytes ∧ ∀ tail, (Codec.negotiated n).decode (bytes++tail)=(.ok (some f.filled),tail) := by
  obtain ⟨_,-,hsize⟩:=bind_eq_ok.mp hsend
  obtain ⟨m,hm,-⟩:=bind_eq_ok.mp hsize
  rw [hn] at hm
  have henc : (Codec.negotiated n).encode f=.ok f.bytes :=
    Codec.encode_ok.mpr ⟨(Codec.validateSize_ok.mp hm).2,hv,rfl⟩
  exact ⟨f.bytes,henc,(Codec.reads hf henc).whole⟩

/-- What holds between the connecting side `a` and the accepting side `c` once `c` has learnt
`theirs` and `a` has the answer `ack`. -/
structure Agreed (a c theirs : HandshakeBody) (ack : HandshakeAckBody) : Prop where
  /- Each side knows the other, but that the answer already has the common limit. -/
  accepted : theirs=a.learnt
  connected : ack.toHandshakeBody={c.learnt with maxFrameLen:=min c.maxFrameLen a.maxFrameLen}
  capabilities : ∀ i j, (establishedSender i a ack.toHandshakeBody).negotiatedCapabilities =
    (establishedSender j c theirs).negotiatedCapabilities
  limit : ∀ i j, (establishedSender i a ack.toHandshakeBody).maxFrameLen=agreedLimit a c ∧
    (establishedSender j c theirs).maxFrameLen=agreedLimit a c
  codecs : negotiatedCodec a ack.toHandshakeBody=.negotiated (agreedLimit a c) ∧
    negotiatedCodec c theirs=.negotiated (agreedLimit a c)
  bounds : bodyFixedOverhead≤agreedLimit a c ∧ agreedLimit a c ≤ maxFrameLen
  chosen : ∃ cap, chosenCap ack.chosenCodec=some cap ∧ a.capabilities &&& cap≠0 ∧ c.capabilities &&& cap≠0
  /- Frames of the protocol's version and a known type that have a hop left. -/
  outward : ∀ i f, f.Routable → f.header.version=protocolVersion →
    (establishedSender i a ack.toHandshakeBody).checkSend f=.ok () →
    ∃ bytes, (negotiatedCodec a ack.toHandshakeBody).encode f=.ok bytes ∧
      ∀ tail, (negotiatedCodec c theirs).decode (bytes++tail)=(.ok (some f.filled),tail)
  inward : ∀ j f, f.Routable → f.header.version=protocolVersion →
    (establishedSender j c theirs).checkSend f=.ok () →
    ∃ bytes, (negotiatedCodec c theirs).encode f=.ok bytes ∧
      ∀ tail, (negotiatedCodec a ack.toHandshakeBody).decode (bytes++tail)=(.ok (some f.filled),tail)

theorem agreed (ha : Valid a) (hc : Valid c) (h : Common a c) : Agreed a c a.learnt (ackBody c a).learnt := by
  have hge:=le_min ha.maxFrameLen hc.maxFrameLen
  have hconnect : (min a.maxFrameLen (min c.maxFrameLen a.maxFrameLen)).toNat =
      min a.maxFrameLen.toNat c.maxFrameLen.toNat := by
    rw [min_toNat,min_toNat]
    omega
  have haccept : (min c.maxFrameLen a.maxFrameLen).toNat=min a.maxFrameLen.toNat c.maxFrameLen.toNat := by
    rw [min_toNat,min_comm]
  have hlimits : ∀ i j, (establishedSender i a (ackBody c a).learnt.toHandshakeBody).maxFrameLen=agreedLimit a c ∧
      (establishedSender j c a.learnt).maxFrameLen=agreedLimit a c :=
    fun i j => ⟨congrArg (min · maxFrameLen) hconnect,congrArg (min · maxFrameLen) haccept⟩
  have hcodecA : negotiatedCodec a (ackBody c a).learnt.toHandshakeBody=.negotiated (agreedLimit a c) :=
    negotiatedCodec_eq hconnect hge
  have hcodecC : negotiatedCodec c a.learnt=.negotiated (agreedLimit a c) := negotiatedCodec_eq haccept hge
  obtain ⟨cap,hcap,hboth⟩:=ackBody_codec h
  constructor
  · rfl
  · rfl
  · exact fun i j => UInt32.and_comm ..
  · exact hlimits
  · exact ⟨hcodecA,hcodecC⟩
  · exact ⟨agreedLimit_ge ha hc,Nat.min_le_right ..⟩
  · exact ⟨cap,hcap,and_right_ne hboth,and_left_ne hboth⟩
  · intro i f hf hv hsend
    rw [hcodecA,hcodecC]
    exact admitted_read (hlimits i 0).1 hf hv hsend
  · intro j f hf hv hsend
    rw [hcodecA,hcodecC]
    exact admitted_read (hlimits 0 j).2 hf hv hsend

theorem handshake_agrees :
    (∀ (a c : HandshakeBody) (verifyA verifyC : String → Bool) (hello answer tail rest rest' : Bytes)
      (theirs : HandshakeBody) (ack : HandshakeAckBody), a.validate=.ok () → c.validate=.ok () →
      connectHello a=.ok hello → accept c verifyC hello=.ok (theirs,answer,rest) →
      connectFinish a verifyA (answer++tail)=.ok (ack,rest') → rest'=tail ∧ Agreed a c theirs ack) ∧
    ∀ (b : HandshakeBody) (records unknown : List Tlv.Record), b.validate=.ok () →
      records.Perm (b.records++unknown) →
      (∀ r∈unknown, (r.1=0 ∨ TlvTag.chosenCodec < r.1) ∧ r.2.length≤65535) →
      HandshakeBody.decodeTlv (Tlv.encode records)=.ok b.learnt := by
  constructor
  · intro a c verifyA verifyC hello answer tail rest rest' theirs ack ha hc hhello haccept hconnect
    have ha:=validate_ok.mp ha
    have hc:=validate_ok.mp hc
    rw [connectHello_ok ha] at hhello
    cases hhello
    have hacc:=@accept_hello _ _ verifyC ha hc []
    rw [List.append_nil,haccept] at hacc
    split at hacc
    · split at hacc
      · contradiction
      · next hcommon =>
        obtain ⟨rfl,hrest⟩:=Prod.mk.inj (Except.ok.inj hacc)
        cases hrest
        rw [connectFinish_ack ha hc hcommon] at hconnect
        split at hconnect
        · cases hconnect
          exact ⟨rfl,agreed ha hc hcommon⟩
        · contradiction
    · contradiction
  · exact fun b records unknown hb hp hunknown => decodeTlv_perm (validate_ok.mp hb) hp hunknown

def plainBody (nodeId : String) : HandshakeBody := ⟨nodeId,none,none,Caps.bin,1024,.normal,8,none⟩

theorem plain_completes : connectHello (plainBody "a")=.ok (helloBytes (plainBody "a")) ∧
    accept (plainBody "c") (fun _ => true) (helloBytes (plainBody "a")) =
      .ok ((plainBody "a").learnt,ackBytes (ackBody (plainBody "c") (plainBody "a")),[]) ∧
    connectFinish (plainBody "a") (fun _ => true) (ackBytes (ackBody (plainBody "c") (plainBody "a"))++[]) =
      .ok ((ackBody (plainBody "c") (plainBody "a")).learnt,[]) := by
  have ha : Valid (plainBody "a") := validate_ok.mp (by decide)
  have hc : Valid (plainBody "c") := validate_ok.mp (by decide)
  have hcommon : Common (plainBody "a") (plainBody "c") := by
    unfold Common
    decide
  refine ⟨connectHello_ok ha,?_,?_⟩
  · have hacc:=@accept_hello _ _ (fun _ => true) ha hc []
    rw [List.append_nil,if_pos rfl,if_neg hcommon] at hacc
    exact hacc
  · have hfin:=@connectFinish_ack _ _ (fun _ => true) ha hc hcommon []
    rw [if_pos rfl] at hfin
    exact hfin

theorem handshake_agrees_plain :
    Agreed (plainBody "a") (plainBody "c") (plainBody "a").learnt (ackBody (plainBody "c") (plainBody "a")).learnt ∧
    HandshakeBody.decodeTlv (Tlv.encode ((200,[1,2])::(plainBody "a").records))=.ok (plainBody "a") := by
  obtain ⟨hhello,haccept,hconnect⟩:=plain_completes
  constructor
  · exact (handshake_agrees.1 _ _ _ _ _ _ _ _ _ _ _ (by decide) (by decide) hhello haccept hconnect).2
  · refine handshake_agrees.2 (plainBody "a") _ [(200,[1,2])] (by decide) ?_ (by decide)
    exact (List.perm_append_singleton _ _).symm

def stranded : Frame := ⟨⟨0,protocolVersion,FrameType.heartbeat,0,0,0,0,seqNone⟩,"","",[]⟩

/- The sender looks at flags and size only. The hops are checked where the frame arrives. -/
theorem stranded_admitted :
    ∃ hello answer theirs ack, connectHello (plainBody "a")=.ok hello ∧
      accept (plainBody "c") (fun _ => true) hello=.ok (theirs,answer,[]) ∧
      connectFinish (plainBody "a") (fun _ => true) (answer++[])=.ok (ack,[]) ∧
      (establishedSender 0 (plainBody "a") ack.toHandshakeBody).checkSend stranded=.ok () ∧
      ((negotiatedCodec (plainBody "c") theirs).decode stranded.bytes).1=.error (.hopExceeded 0 0) := by
  obtain ⟨hhello,haccept,hconnect⟩:=plain_completes
  exact ⟨_,_,_,_,hhello,haccept,hconnect,by decide,by decide⟩

end Parrot.Link
