import Parrot.Link.Prefixes

/-! # The Python codec (`interop/python/parrot_protocol/wire.py`)

The same frames once more, in another language. -/

namespace Parrot.Interop
open List (length_take length_drop drop_drop)
open Machine Parrot.Wire
open Bincode (Bytes leBytes ofLeBytes utf8)
open Parrot.Wire.Frame (readLe)
open StreamCodec (Use session Follows)

inductive PyError where
  | value
  | unicodeDecode
  | struct
  deriving DecidableEq

structure PyFrame where
  ft : ℤ
  cid : ℤ
  path : String
  typeKey : String
  payload : Bytes
  flags : ℤ
  hopCount : ℤ
  hopLimit : ℤ
  sequence : ℤ

def wireVersion : ℤ := 1

def knownFrameTypes : List ℤ := [1,2,3,4,0x10,0x11,0x12,0x13,0x14,0x15,0x20,0x21,0x22,0x23,0x24,0x7F]

def demand (ok : Bool) (e : PyError) : Except PyError Unit := if ok then .ok () else .error e

/- `_uint` -/
def uint (value maximum : ℤ) : Except PyError Unit := demand (0≤value ∧ value ≤ maximum) .value

/-- One field of `struct.pack("<...")`, of `k` bytes. -/
def pack (k : ℕ) (value : ℤ) : Except PyError Bytes := do
  demand (0≤value ∧ value<256^k) .struct
  .ok (leBytes k value.toNat)

/-- One field of `struct.unpack_from("<...")`, of `k` bytes. -/
def unpackFrom (k : ℕ) (b : Bytes) (offset : ℕ) : Except PyError ℕ := do
  demand (offset+k≤b.length) .struct
  .ok (readLe b offset k)

/- `bytes.decode()` -/
def decodeText (b : Bytes) : Except PyError String :=
  match String.fromUTF8? ⟨b.toArray⟩ with
  | some s => .ok s
  | none => .error .unicodeDecode

def PyFrame.encode (f : PyFrame) : Except PyError Bytes := do
  demand (f.ft∈knownFrameTypes) .value
  uint f.ft 255
  uint f.flags 65535
  uint f.cid (2^64-1)
  uint f.hopCount 255
  uint f.hopLimit 255
  uint f.sequence (2^32-1)
  demand (0<f.hopLimit ∧ f.hopLimit≤255 ∧ 0≤f.hopCount ∧ f.hopCount<f.hopLimit) .value
  let path:=utf8 f.path
  let key:=utf8 f.typeKey
  let bodyLen:=12+2+6+4+4+path.length+key.length+f.payload.length
  demand (bodyFixedOverhead≤bodyLen ∧ bodyLen ≤ maxFrameLen) .value
  let ver ← pack 1 wireVersion
  let ft ← pack 1 f.ft
  let flags ← pack 2 f.flags
  let cid ← pack 8 f.cid
  let hopCount ← pack 1 f.hopCount
  let hopLimit ← pack 1 f.hopLimit
  let sequence ← pack 4 f.sequence
  let reserved ← pack 2 0
  let bodyLen ← pack 4 bodyLen
  let pathLen ← pack 4 path.length
  let keyLen ← pack 4 key.length
  .ok (bodyLen++(ver++(ft++(flags++cid)))++(hopCount++(hopLimit++(sequence++reserved)))++
    pathLen++path++keyLen++key++f.payload)

/- `_parse_body` -/
def parseBody (body : Bytes) : Except PyError PyFrame := do
  demand (bodyFixedOverhead≤body.length ∧ body.length ≤ maxFrameLen) .value
  let ver ← unpackFrom 1 body 0
  let ft ← unpackFrom 1 body 1
  let flags ← unpackFrom 2 body 2
  let cid ← unpackFrom 8 body 4
  demand ((ver : ℤ)=wireVersion) .value
  demand ((ft : ℤ)∈knownFrameTypes) .value
  let hopCount ← unpackFrom 1 body 12
  let hopLimit ← unpackFrom 1 body 13
  demand (¬(hopLimit=0 ∨ hopCount≥hopLimit)) .value
  demand ((body.drop 18).take 2=[0,0]) .value
  let pathLen ← unpackFrom 4 body 20
  demand (¬(pathLen : ℤ)>body.length-bodyFixedOverhead) .value
  let path ← decodeText ((body.drop 24).take pathLen)
  let off:=24+pathLen
  let keyLen ← unpackFrom 4 body off
  demand (¬(keyLen : ℤ)>body.length-off-4) .value
  let key ← decodeText ((body.drop (off+4)).take keyLen)
  let payload:=body.drop (off+4+keyLen)
  let sequence ← unpackFrom 4 body 14
  .ok ⟨ft,cid,path,key,payload,flags,hopCount,hopLimit,sequence⟩

structure FrameDecoder where
  maxFrameLen : ℤ

def FrameDecoder.new (limit : ℤ) : Except PyError FrameDecoder := do
  demand (bodyFixedOverhead≤limit ∧ limit≤Wire.maxFrameLen) .value
  .ok ⟨limit⟩

/-- The answer, and what is left of `self.buf`. -/
def FrameDecoder.nextFrame (d : FrameDecoder) (buf : Bytes) : Except PyError (Option PyFrame) × Bytes :=
  if buf.length<4 then (.ok none,buf)
  else
    let bodyLen:=readLe buf 0 4
    if ¬(bodyFixedOverhead≤bodyLen ∧ (bodyLen : ℤ)≤d.maxFrameLen) then (.error .value,buf)
    else if buf.length<4+bodyLen then (.ok none,buf)
    else ((parseBody ((buf.drop 4).take bodyLen)).map some,buf.drop (4+bodyLen))

def withReplyToPrefix (replyTo : String) (payload : Bytes) : Except PyError Bytes := do
  let rlen ← pack 4 (utf8 replyTo).length
  .ok (rlen++utf8 replyTo++payload)

def splitReplyTo (b : Bytes) : Except PyError (Option (String × Bytes)) :=
  if b.length<4 then .ok none
  else do
    let rlen ← unpackFrom 4 b 0
    if b.length<4+rlen then .ok none
    else do
      let replyTo ← decodeText ((b.drop 4).take rlen)
      .ok (some (replyTo,b.drop (4+rlen)))

/-- The length and the version are not part of a Python frame. -/
def ofFrame (f : Frame) : PyFrame :=
  ⟨f.header.frameType.toNat,f.header.correlationId.toNat,f.path,f.typeKey,f.payload,f.header.flags.toNat,
    f.header.hopCount.toNat,f.header.hopLimit.toNat,f.header.seq.toNat⟩

structure InRange (p : PyFrame) : Prop where
  ft : 0≤p.ft ∧ p.ft<2^8
  cid : 0≤p.cid ∧ p.cid<2^64
  flags : 0≤p.flags ∧ p.flags<2^16
  hopCount : 0≤p.hopCount ∧ p.hopCount<2^8
  hopLimit : 0≤p.hopLimit ∧ p.hopLimit<2^8
  sequence : 0≤p.sequence ∧ p.sequence<2^32

theorem ofFrame_surjective {p : PyFrame} (h : InRange p) :
    ∃ f : Frame, f.header.version=protocolVersion ∧ ofFrame f=p := by
  refine ⟨⟨⟨0,protocolVersion,.ofNat p.ft.toNat,.ofNat p.flags.toNat,.ofNat p.cid.toNat,.ofNat p.hopCount.toNat,
    .ofNat p.hopLimit.toNat,.ofNat p.sequence.toNat⟩,p.path,p.typeKey,p.payload⟩,rfl,?_⟩
  obtain ⟨hft,hcid,hflags,hcount,hlimit,hseq⟩:=h
  have e1 : ((UInt8.ofNat p.ft.toNat).toNat : ℤ)=p.ft := by
    rw [UInt8.toNat_ofNat']
    omega
  have e2 : ((UInt64.ofNat p.cid.toNat).toNat : ℤ)=p.cid := by
    rw [UInt64.toNat_ofNat']
    omega
  have e3 : ((UInt16.ofNat p.flags.toNat).toNat : ℤ)=p.flags := by
    rw [UInt16.toNat_ofNat']
    omega
  have e4 : ((UInt8.ofNat p.hopCount.toNat).toNat : ℤ)=p.hopCount := by
    rw [UInt8.toNat_ofNat']
    omega
  have e5 : ((UInt8.ofNat p.hopLimit.toNat).toNat : ℤ)=p.hopLimit := by
    rw [UInt8.toNat_ofNat']
    omega
  have e6 : ((UInt32.ofNat p.sequence.toNat).toNat : ℤ)=p.sequence := by
    rw [UInt32.toNat_ofNat']
    omega
  simp only [ofFrame,e1,e2,e3,e4,e5,e6]

theorem known_eq (ft : UInt8) : ((ft.toNat : ℤ)∈knownFrameTypes) ↔ FrameType.known ft=true := by
  have hlist : knownFrameTypes=[FrameType.handshake,FrameType.handshakeAck,FrameType.heartbeat,
      FrameType.heartbeatAck,FrameType.ask,FrameType.reply,FrameType.replyErr,FrameType.tell,FrameType.stop,
      FrameType.fragment,FrameType.systemEvent,FrameType.resolveQ,FrameType.resolveR,FrameType.invalidate,
      FrameType.routeHint,FrameType.error].map fun ft => (ft.toNat : ℤ) := by decide
  have hinj : Function.Injective fun ft : UInt8 => (ft.toNat : ℤ) := by
    intro x y hxy
    dsimp only at hxy
    exact UInt8.toNat_inj.mp (by exact_mod_cast hxy)
  rw [hlist,FrameType.known,List.contains_iff_mem]
  exact List.mem_map_of_injective hinj

section demands
variable {α : Type} {P : Prop} [Decidable P] {e : PyError} {g : Unit → Except PyError α}

theorem demand_bind (h : P) : (demand (decide P) e >>= g)=g () := by simp [demand,h,bind,Except.bind]
theorem demand_fails (h : ¬P) : (demand (decide P) e >>= g)=.error e := by simp [demand,h,bind,Except.bind]

theorem uint_bind {value maximum : ℤ} (h : 0≤value ∧ value ≤ maximum) : (uint value maximum >>= g)=g () :=
  demand_bind h

end demands

theorem ok_bind {ε α β : Type} (a : α) (g : α → Except ε β) : ((.ok a : Except ε α) >>= g)=g a := rfl

theorem pack_nat {k n : ℕ} (h : n<256^k) : pack k n=.ok (leBytes k n) := by
  have hlt : (0 : ℤ)≤n ∧ (n : ℤ)<256^k := ⟨by omega,by exact_mod_cast h⟩
  unfold pack
  rw [demand_bind hlt,Int.toNat_natCast]

theorem leBytes_one (x : UInt8) : leBytes 1 x.toNat=[x] := by simp [leBytes]

variable {f : Frame}

theorem encode_agrees (h : Frame.Routable f) (hv : f.header.version=protocolVersion) :
    (ofFrame f).encode.toOption=f.encode.toOption := by
  have hft:=f.header.frameType.toNat_lt
  have hflags:=f.header.flags.toNat_lt
  have hcid:=f.header.correlationId.toNat_lt
  have hcount:=f.header.hopCount.toNat_lt
  have hlimit:=f.header.hopLimit.toNat_lt
  have hseq:=f.header.seq.toNat_lt
  have hhop : f.header.hopCount.toNat<f.header.hopLimit.toNat := UInt8.lt_iff_toNat_lt.mp h.hop
  have hknown : (ofFrame f).ft∈knownFrameTypes := (known_eq f.header.frameType).mpr h.known
  have hlen : 12+2+6+4+4+(utf8 f.path).length+(utf8 f.typeKey).length+f.payload.length=f.bodyLen := by
    simp only [Bincode.utf8_length,Frame.bodyLen,bodyFixedOverhead]
  have hpath : (utf8 f.path).length=f.path.utf8ByteSize := Bincode.utf8_length _
  have hkey : (utf8 f.typeKey).length=f.typeKey.utf8ByteSize := Bincode.utf8_length _
  have hge:=Frame.bodyLen_ge (f := f)
  unfold PyFrame.encode
  rw [demand_bind hknown,uint_bind (by dsimp only [ofFrame]; omega),uint_bind (by dsimp only [ofFrame]; omega),
    uint_bind (by dsimp only [ofFrame]; omega),uint_bind (by dsimp only [ofFrame]; omega),
    uint_bind (by dsimp only [ofFrame]; omega),uint_bind (by dsimp only [ofFrame]; omega),
    demand_bind (by dsimp only [ofFrame]; omega)]
  by_cases hsize : f.bodyLen ≤ maxFrameLen
  · have hrust : f.encode=.ok f.bytes := Codec.encode_frame.mpr ⟨hsize,hv,rfl⟩
    have hmax : maxFrameLen<256^4 := by decide
    have hpl : f.path.utf8ByteSize<256^4 := by
      unfold Frame.bodyLen at hsize
      omega
    have hkl : f.typeKey.utf8ByteSize<256^4 := by
      unfold Frame.bodyLen at hsize
      omega
    dsimp only
    rw [demand_bind ⟨by dsimp only [ofFrame]; omega,by dsimp only [ofFrame]; omega⟩]
    simp only [ofFrame,hpath,hkey,wireVersion]
    rw [show (1 : ℤ)=(1 : ℕ) from rfl,pack_nat (by omega),ok_bind,pack_nat (by omega),ok_bind,pack_nat (by omega),ok_bind,pack_nat (by omega),ok_bind,
      pack_nat (by omega),ok_bind,pack_nat (by omega),ok_bind,pack_nat (by omega),ok_bind,show (0 : ℤ)=(0 : ℕ) from rfl,
      pack_nat (by omega),ok_bind,pack_nat (by omega),ok_bind,pack_nat (by omega),ok_bind,pack_nat (by omega),ok_bind]
    simp only [hrust,Except.toOption,Frame.bytes,Frame.body,Frame.fixed,leBytes_one,hv]
    simp [leBytes,protocolVersion,Frame.bodyLen,bodyFixedOverhead]
  · dsimp only
    rw [demand_fails (by dsimp only [ofFrame]; omega)]
    cases hrust : f.encode with
    | error e => simp [Except.toOption]
    | ok b => exact absurd (Codec.encode_frame.mp hrust).1 hsize

variable {b : Bytes}

theorem unpack_bind {α : Type} {k offset : ℕ} {g : ℕ → Except PyError α} (h : offset+k≤b.length) :
    (unpackFrom k b offset >>= g)=g (readLe b offset k) := by
  have hunpack : unpackFrom k b offset=.ok (readLe b offset k) := demand_bind h
  rw [hunpack,ok_bind]

theorem readLe_one {offset : ℕ} (h : offset<b.length) : readLe b offset 1=(b.getD offset 0).toNat := by
  rw [List.getD_eq_getElem?_getD,List.getElem?_eq_getElem h,readLe,List.take_one_drop_eq_of_lt_length h]
  simp [ofLeBytes]

theorem readLe_lt {k offset : ℕ} (h : offset+k≤b.length) : readLe b offset k<256^k := by
  have hlen : ((b.drop offset).take k).length=k := by
    rw [length_take,length_drop]
    omega
  have hlt:=Bincode.ofLeBytes_lt ((b.drop offset).take k)
  rwa [hlen] at hlt

theorem ofLeBytes_two {x : Bytes} (h : x.length=2) : ofLeBytes x=0 ↔ x=[0,0] := by
  obtain ⟨a,b,rfl⟩:=List.length_eq_two.mp h
  simp only [ofLeBytes,List.cons.injEq,and_true]
  constructor
  · intro hzero
    constructor
    · exact UInt8.toNat_inj.mp (by simp; omega)
    · exact UInt8.toNat_inj.mp (by simp; omega)
  · rintro ⟨rfl,rfl⟩
    simp

theorem decodeText_eq (field : String) (b : Bytes) : (decodeText b).toOption=(Frame.readString field b).toOption := by
  unfold decodeText Frame.readString
  cases String.fromUTF8? ⟨b.toArray⟩ <;> simp [Except.toOption]

def parseRest (body : Bytes) (header : FrameHeader) : Except PyError PyFrame := do
  let pathLen ← unpackFrom 4 body 20
  demand (¬(pathLen : ℤ)>body.length-bodyFixedOverhead) .value
  let path ← decodeText ((body.drop 24).take pathLen)
  let off:=24+pathLen
  let keyLen ← unpackFrom 4 body off
  demand (¬(keyLen : ℤ)>body.length-off-4) .value
  let key ← decodeText ((body.drop (off+4)).take keyLen)
  .ok (ofFrame ⟨header,path,key,body.drop (off+4+keyLen)⟩)

theorem parseRest_agrees (n : ℕ) (header : FrameHeader) (h : 28≤b.length) : (parseRest b header).toOption =
    (Frame.parseTail header n (readLe b 20 4) (b.drop 24)).toOption.map ofFrame := by
  unfold parseRest Frame.parseTail
  rw [unpack_bind (by omega)]
  have hdrop : (b.drop 24).length=b.length-24 := length_drop ..
  by_cases hpath : readLe b 20 4>b.length-28
  · rw [demand_fails (by simp only [not_not,bodyFixedOverhead]; omega),if_pos (by omega)]
    simp [Except.toOption]
  · rw [demand_bind (by simp only [bodyFixedOverhead]; omega),if_neg (by omega)]
    have htext:=decodeText_eq "path" ((b.drop 24).take (readLe b 20 4))
    cases hread : Frame.readString "path" ((b.drop 24).take (readLe b 20 4)) with
    | error e =>
      cases hpy : decodeText ((b.drop 24).take (readLe b 20 4)) with
      | error e' => simp [bind,Except.bind,Except.toOption]
      | ok s => simp [hread,hpy,Except.toOption] at htext
    | ok path =>
      cases hpy : decodeText ((b.drop 24).take (readLe b 20 4)) with
      | error e' => simp [hread,hpy,Except.toOption] at htext
      | ok s =>
        obtain rfl : s=path := by simpa [hread,hpy,Except.toOption] using htext
        have hkeyLen : readLe ((b.drop 24).drop (readLe b 20 4)) 0 4=readLe b (24+readLe b 20 4) 4 := by
          simp [readLe,drop_drop]
        have hkeyRest : ((b.drop 24).drop (readLe b 20 4)).drop 4=b.drop (24+readLe b 20 4+4) := by
          simp [drop_drop]
        have hrestLen : (b.drop (24+readLe b 20 4+4)).length=b.length-(24+readLe b 20 4+4) := length_drop ..
        rw [ok_bind,ok_bind,unpack_bind (by omega)]
        dsimp only
        rw [hkeyLen,hkeyRest]
        by_cases hkey : readLe b (24+readLe b 20 4) 4>(b.drop (24+readLe b 20 4+4)).length
        · rw [demand_fails (by omega),if_pos hkey]
          simp [Except.toOption]
        · rw [demand_bind (by omega),if_neg hkey]
          have hkeyText:=decodeText_eq "type_key" ((b.drop (24+readLe b 20 4+4)).take (readLe b (24+readLe b 20 4) 4))
          cases hread' : Frame.readString "type_key" ((b.drop (24+readLe b 20 4+4)).take (readLe b (24+readLe b 20 4) 4)) with
          | error e =>
            cases hpy' : decodeText ((b.drop (24+readLe b 20 4+4)).take (readLe b (24+readLe b 20 4) 4)) with
            | error e' => simp [bind,Except.bind,Except.toOption]
            | ok t => simp [hread',hpy',Except.toOption] at hkeyText
          | ok key =>
            cases hpy' : decodeText ((b.drop (24+readLe b 20 4+4)).take (readLe b (24+readLe b 20 4) 4)) with
            | error e' => simp [hread',hpy',Except.toOption] at hkeyText
            | ok t =>
              obtain rfl : t=key := by simpa [hread',hpy',Except.toOption] using hkeyText
              rw [ok_bind,ok_bind]
              simp [Except.toOption,drop_drop,pure,Except.pure]

theorem parseBody_agrees (h : bodyFixedOverhead≤b.length) (hmax : b.length ≤ maxFrameLen) :
    (parseBody b).toOption=(Frame.parseBody b.length b).toOption.map ofFrame := by
  have h28 : 28≤b.length := h
  have hrest (header : FrameHeader) := parseRest_agrees b.length header h28
  have hcut : ((b.drop 18).take 2).length=2 := by
    rw [length_take,length_drop]
    omega
  have hreserved : readLe b 18 2=0 ↔ (b.drop 18).take 2=[0,0] := ofLeBytes_two hcut
  unfold parseBody Frame.parseBody
  rw [demand_bind ⟨h,hmax⟩,unpack_bind (by omega),unpack_bind (by omega),unpack_bind (by omega),unpack_bind (by omega)]
  rw [readLe_one (by omega),readLe_one (by omega)]
  dsimp only
  by_cases hv : b.getD 0 0=protocolVersion
  · rw [demand_bind (by rw [hv]; decide),if_neg (not_not_intro hv)]
    by_cases hft : FrameType.known (b.getD 1 0)=true
    · rw [demand_bind ((known_eq _).mpr hft),if_neg (by rw [hft]; decide),unpack_bind (by omega),unpack_bind (by omega),
        readLe_one (by omega),readLe_one (by omega)]
      by_cases hhop : b.getD 13 0=0 ∨ b.getD 12 0≥b.getD 13 0
      · have hpy : (b.getD 13 0).toNat=0 ∨ (b.getD 12 0).toNat≥(b.getD 13 0).toNat := by
          rcases hhop with hzero | hge
          · exact .inl (by rw [hzero]; rfl)
          · exact .inr (UInt8.le_iff_toNat_le.mp hge)
        rw [demand_fails (not_not_intro hpy),if_pos hhop]
        simp [Except.toOption]
      · have hpy : ¬((b.getD 13 0).toNat=0 ∨ (b.getD 12 0).toNat≥(b.getD 13 0).toNat) := by
          rintro (hzero | hge)
          · exact hhop (.inl (UInt8.toNat_inj.mp hzero))
          · exact hhop (.inr (UInt8.le_iff_toNat_le.mpr hge))
        rw [demand_bind hpy,if_neg hhop]
        by_cases hrs : (b.drop 18).take 2=[0,0]
        · rw [demand_bind hrs,if_neg (not_not_intro (hreserved.mpr hrs)),← hrest]
          have hseq : unpackFrom 4 b 14=.ok (readLe b 14 4) := demand_bind (by omega)
          have hflags : (UInt16.ofNat (readLe b 2 2)).toNat=readLe b 2 2 :=
            UInt16.toNat_ofNat_of_lt' (readLe_lt (by omega))
          have hcid : (UInt64.ofNat (readLe b 4 8)).toNat=readLe b 4 8 :=
            UInt64.toNat_ofNat_of_lt' (readLe_lt (by omega))
          have hsequence : (UInt32.ofNat (readLe b 14 4)).toNat=readLe b 14 4 :=
            UInt32.toNat_ofNat_of_lt' (readLe_lt (by omega))
          simp only [parseRest,ofFrame,hseq,ok_bind,hflags,hcid,hsequence]
        · rw [demand_fails hrs,if_pos fun hz => hrs (hreserved.mp hz)]
          simp [Except.toOption]
    · rw [demand_fails (fun hk => hft ((known_eq _).mp hk)),if_pos (Bool.not_eq_true _ ▸ hft)]
      simp [Except.toOption]
  · have hpy : ¬(((b.getD 0 0).toNat : ℤ)=wireVersion) := by
      intro heq
      apply hv
      apply UInt8.toNat_inj.mp
      have hone : protocolVersion.toNat=1 := by decide
      unfold wireVersion at heq
      omega
    rw [demand_fails hpy,if_pos hv]
    simp [Except.toOption]

theorem nextFrame_follows {limit : ℕ} (hmax : limit ≤ maxFrameLen) :
    Follows ofFrame (Frame.decodeWithLimit limit) (FrameDecoder.nextFrame ⟨limit⟩) := by
  have hcap : min limit maxFrameLen=limit := Nat.min_eq_left hmax
  constructor
  · intro buf
    unfold FrameDecoder.nextFrame Frame.decodeWithLimit
    dsimp only
    rw [hcap]
    by_cases hfour : buf.length<4
    · rw [if_pos hfour,if_pos hfour]
      simp [Except.toOption]
    · rw [if_neg hfour,if_neg hfour]
      by_cases hlarge : readLe buf 0 4>limit
      · rw [if_pos (by omega),if_pos hlarge]
        simp [Except.toOption]
      · by_cases hsmall : readLe buf 0 4<bodyFixedOverhead
        · rw [if_pos (by omega),if_neg hlarge,if_pos hsmall]
          simp [Except.toOption]
        · rw [if_neg (by omega),if_neg hlarge,if_neg hsmall]
          by_cases hpart : buf.length<4+readLe buf 0 4
          · rw [if_pos hpart,if_pos hpart]
            simp [Except.toOption]
          · rw [if_neg hpart,if_neg hpart]
            have hlen : ((buf.drop 4).take (readLe buf 0 4)).length=readLe buf 0 4 := by
              rw [length_take,length_drop]
              omega
            have hbody:=parseBody_agrees (b := (buf.drop 4).take (readLe buf 0 4)) (by omega) (by omega)
            rw [hlen] at hbody
            dsimp only
            cases hpy : parseBody ((buf.drop 4).take (readLe buf 0 4)) with
            | error e =>
              cases hrust : Frame.parseBody (readLe buf 0 4) ((buf.drop 4).take (readLe buf 0 4)) with
              | error e' => simp [Except.map,Except.toOption]
              | ok f => simp [hpy,hrust,Except.toOption] at hbody
            | ok p =>
              cases hrust : Frame.parseBody (readLe buf 0 4) ((buf.drop 4).take (readLe buf 0 4)) with
              | error e' => simp [hpy,hrust,Except.toOption] at hbody
              | ok f =>
                obtain rfl : p=ofFrame f := by simpa [hpy,hrust,Except.toOption] using hbody
                simp [Except.map,Except.toOption]
  · intro buf
    unfold FrameDecoder.nextFrame Frame.decodeWithLimit
    dsimp only
    rw [hcap]
    by_cases hfour : buf.length<4
    · rw [if_pos hfour,if_pos hfour]
    · rw [if_neg hfour,if_neg hfour]
      by_cases hlarge : readLe buf 0 4>limit
      · rw [if_pos (by omega),if_pos hlarge]
      · by_cases hsmall : readLe buf 0 4<bodyFixedOverhead
        · rw [if_pos (by omega),if_neg hlarge,if_pos hsmall]
        · rw [if_neg (by omega),if_neg hlarge,if_neg hsmall]
          split <;> rfl

theorem withReplyToPrefix_agrees (cid : UInt64) (path key : String) (payload : Bytes) (replyTo : Option String)
    (h : ∀ r∈replyTo, r.utf8ByteSize<2^32) :
    withReplyToPrefix (replyTo.getD "") payload=.ok (Link.ask cid path key payload replyTo).payload := by
  have hsize : (utf8 (replyTo.getD "")).length<256^4 := by
    rw [Bincode.utf8_length]
    cases replyTo with
    | none => decide
    | some r => exact h r rfl
  unfold withReplyToPrefix
  rw [pack_nat hsize,ok_bind,Bincode.utf8_length]
  cases replyTo with
  | none => simp [Link.ask,Link.replyToPrefix,utf8]
  | some r =>
    have hmod : r.utf8ByteSize%2^32=r.utf8ByteSize := Nat.mod_eq_of_lt (h r rfl)
    simp only [Option.getD_some,Link.ask,Link.replyToPrefix,hmod]

theorem splitReplyTo_agrees (payload : Bytes) (n : UInt32) :
    (splitReplyTo payload).toOption.join =
      (Link.replyToParts payload n).toOption.map fun q => (q.1.getD "",payload.drop q.2) := by
  rw [Link.replyToParts_eq]
  unfold splitReplyTo
  by_cases hlen : payload.length<4
  · rw [if_pos hlen,if_pos hlen]
    simp [Except.toOption]
  · rw [if_neg hlen,if_neg hlen,unpack_bind (by omega)]
    have hread : readLe payload 0 4=ofLeBytes (payload.take 4) := by simp [readLe]
    rw [hread]
    by_cases hroom : ofLeBytes (payload.take 4)>payload.length-4
    · rw [if_pos (by omega),if_pos hroom]
      simp [Except.toOption]
    · rw [if_neg (by omega),if_neg hroom]
      have htext:=decodeText_eq "reply_to" ((payload.drop 4).take (ofLeBytes (payload.take 4)))
      by_cases hzero : ofLeBytes (payload.take 4)=0
      · rw [if_pos hzero,hzero]
        have hempty : decodeText ((payload.drop 4).take 0)=.ok "" := by
          rw [List.take_zero]
          decide +kernel
        rw [hempty,ok_bind]
        simp [Except.toOption]
      · rw [if_neg hzero]
        cases hrust : Frame.readString "reply_to" ((payload.drop 4).take (ofLeBytes (payload.take 4))) with
        | error e =>
          cases hpy : decodeText ((payload.drop 4).take (ofLeBytes (payload.take 4))) with
          | error e' => simp [bind,Except.bind,Except.toOption,Except.map]
          | ok s => simp [hrust,hpy,Except.toOption] at htext
        | ok r =>
          cases hpy : decodeText ((payload.drop 4).take (ofLeBytes (payload.take 4))) with
          | error e' => simp [hrust,hpy,Except.toOption] at htext
          | ok s =>
            obtain rfl : s=r := by simpa [hrust,hpy,Except.toOption] using htext
            rw [ok_bind]
            simp [Except.toOption,Except.map]

theorem replyToParts_not_empty {payload : Bytes} {n : UInt32} {q : Option String × ℕ}
    (h : Link.replyToParts payload n=.ok q) : q.1≠some "" := by
  rw [Link.replyToParts_eq] at h
  split at h
  · contradiction
  split at h
  · contradiction
  rename_i hroom
  split at h
  · cases h
    simp
  · rename_i hzero
    cases hrust : Frame.readString "reply_to" ((payload.drop 4).take (ofLeBytes (payload.take 4))) with
    | error e => simp [hrust,Except.map] at h
    | ok r =>
      rw [hrust] at h
      cases h
      intro heq
      have hr : r = "" := Option.some.inj heq
      subst hr
      have hbytes:=congrArg List.length (Frame.readString_ok hrust)
      rw [Bincode.utf8_length,length_take,length_drop] at hbytes
      simp at hbytes
      omega

theorem splitReplyTo_frame {f : Frame} (h : f.header.flags &&& Flags.traceContext=0) :
    (splitReplyTo f.payload).toOption.join=(Link.splitReplyTo f).toOption.map fun q => (q.1.getD "",q.2) := by
  have hsplit : f.splitTraceParent=.ok (none,f.payload) := if_pos h
  rw [splitReplyTo_agrees f.payload f.header.frameLen,Link.splitReplyTo_eq,hsplit]
  cases hparts : Link.replyToParts f.payload f.header.frameLen with
  | error | ok => simp [Except.bind,Except.map,Except.toOption,hparts]

/-- The two codecs agree: on the bytes of every frame either can hold, on every session
with a stream under every limit, and on the address in front of an ASK. -/
theorem codecs_agree :
    (∀ f : Frame, Frame.Routable f → f.header.version=protocolVersion →
      (ofFrame f).encode.toOption=f.encode.toOption) ∧
    (∀ p, InRange p → ∃ f : Frame, f.header.version=protocolVersion ∧ ofFrame f=p) ∧
    (∀ limit : ℕ, bodyFixedOverhead≤limit → limit ≤ maxFrameLen → ∃ d, FrameDecoder.new limit=.ok d ∧
      ∀ uses : List Use, session d.nextFrame [] uses =
        (session (Frame.decodeWithLimit limit) [] uses).map (StreamCodec.Answer.map ofFrame)) ∧
    (∀ cid path key payload (replyTo : Option String), (∀ r∈replyTo, r.utf8ByteSize<2^32) →
      withReplyToPrefix (replyTo.getD "") payload=.ok (Link.ask cid path key payload replyTo).payload) ∧
    (∀ payload n, (splitReplyTo payload).toOption.join =
        (Link.replyToParts payload n).toOption.map (fun q => (q.1.getD "",payload.drop q.2)) ∧
      ∀ q, Link.replyToParts payload n=.ok q → q.1≠some "") ∧
    ∀ f : Frame, f.header.flags &&& Flags.traceContext=0 →
      (splitReplyTo f.payload).toOption.join=(Link.splitReplyTo f).toOption.map fun q => (q.1.getD "",q.2) := by
  refine ⟨fun f => encode_agrees,fun p => ofFrame_surjective,?_,withReplyToPrefix_agrees,?_,fun f => splitReplyTo_frame⟩
  · intro limit hmin hmax
    refine ⟨⟨limit⟩,?_,fun uses => (nextFrame_follows hmax).session uses []⟩
    unfold FrameDecoder.new
    rw [demand_bind ⟨by exact_mod_cast hmin,by exact_mod_cast hmax⟩]
  · intro payload n
    exact ⟨splitReplyTo_agrees payload n,fun q => replyToParts_not_empty⟩

theorem codecs_agree_heartbeat : (ofFrame Codec.heartbeat).encode.toOption=some Codec.heartbeat.bytes ∧
    (withReplyToPrefix "reply" [7]).toOption=some (Link.ask 91 "/app" "key" [7] (some "reply")).payload := by
  obtain ⟨hencode,-,-,hbegun,-⟩:=codecs_agree
  refine ⟨?_,?_⟩
  · rw [hencode Codec.heartbeat Codec.heartbeat_routable (by decide),
      Codec.encode_frame.mpr ⟨by decide,by decide,rfl⟩]
    rfl
  · have hreply:=hbegun 91 "/app" "key" [7] (some "reply") (by decide)
    rw [Option.getD_some] at hreply
    rw [hreply]
    rfl

/- An address of four gibibytes: one side cannot pack its length, the other cuts it to zero. -/
theorem address_too_long : withReplyToPrefix (String.ofList (List.replicate (2^32) 'a')) []=.error .struct ∧
    (Link.ask 0 "" "" [] (some (String.ofList (List.replicate (2^32) 'a')))).payload =
      leBytes 4 0++utf8 (String.ofList (List.replicate (2^32) 'a')) := by
  constructor
  · have hlong : ¬(0≤((utf8 (String.ofList (List.replicate (2^32) 'a'))).length : ℤ) ∧
        ((utf8 (String.ofList (List.replicate (2^32) 'a'))).length : ℤ)<256^4) := by
      rw [Bincode.utf8_length,Link.letters_size]
      decide
    have hpack : pack 4 (utf8 (String.ofList (List.replicate (2^32) 'a'))).length=.error .struct := demand_fails hlong
    unfold withReplyToPrefix
    rw [hpack]
    rfl
  · simp only [Link.ask,Link.replyToPrefix,Link.letters_size,Nat.mod_self,List.append_nil]

end Parrot.Interop
