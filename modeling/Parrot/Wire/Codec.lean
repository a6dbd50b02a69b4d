import Parrot.Wire.Frame

/-! # The frame codec

Encoding and decoding are inverse to each other on the frames that may travel, a
refused frame takes exactly its own bytes off the buffer, and a stream of frames is
read the same however it is cut into chunks. -/

namespace Parrot.Wire
open List (length_take take_append_drop length_append take_left' drop_drop drop_left' append_assoc drop_zero map_map)
open Machine
open Bincode (Bytes leBytes ofLeBytes utf8)
open StreamCodec (feed)

variable {f : Frame} {b : Bytes} {n : ℕ}

namespace Frame

variable {limit : ℕ}

theorem exists_split {k : ℕ} {l : Bytes} (h : k≤l.length) : ∃ x y, x.length=k ∧ l=x++y :=
  ⟨l.take k,l.drop k,by rw [length_take]; omega,(take_append_drop k l).symm⟩

structure Pieces (b : Bytes) (v ft hc hl : UInt8) (fl cid sq rs pl rest : Bytes) : Prop where
  eq : b=v::ft::(fl++(cid++(hc::hl::(sq++(rs++(pl++rest))))))
  fl : fl.length=2
  cid : cid.length=8
  sq : sq.length=4
  rs : rs.length=2
  pl : pl.length=4

theorem exists_pieces (h : 24≤b.length) : ∃ v ft hc hl fl cid sq rs pl rest,
    Pieces b v ft hc hl fl cid sq rs pl rest := by
  obtain ⟨x0,b,h0,rfl⟩:=exists_split (k := 2) (l := b) (by omega)
  rw [length_append] at h
  obtain ⟨fl,b,hfl,rfl⟩:=exists_split (k := 2) (l := b) (by omega)
  rw [length_append] at h
  obtain ⟨cid,b,hcid,rfl⟩:=exists_split (k := 8) (l := b) (by omega)
  rw [length_append] at h
  obtain ⟨x1,b,h1,rfl⟩:=exists_split (k := 2) (l := b) (by omega)
  rw [length_append] at h
  obtain ⟨sq,b,hsq,rfl⟩:=exists_split (k := 4) (l := b) (by omega)
  rw [length_append] at h
  obtain ⟨rs,b,hrs,rfl⟩:=exists_split (k := 2) (l := b) (by omega)
  rw [length_append] at h
  obtain ⟨pl,rest,hpl,rfl⟩:=exists_split (k := 4) (l := b) (by omega)
  obtain ⟨v,ft,rfl⟩:=List.length_eq_two.mp h0
  obtain ⟨hc,hl,rfl⟩:=List.length_eq_two.mp h1
  exact ⟨v,ft,hc,hl,fl,cid,sq,rs,pl,rest,rfl,hfl,hcid,hsq,hrs,hpl⟩

theorem getD_of_drop {k : ℕ} {x : UInt8} {l : Bytes} (h : b.drop k=x::l) : b.getD k 0=x := by
  have hget : (b.drop k)[0]? = some x := by rw [h]; rfl
  rw [List.getElem?_drop,Nat.add_zero] at hget
  rw [List.getD_eq_getElem?_getD,hget]
  rfl

theorem readLe_of_drop {k m : ℕ} {x l : Bytes} (h : b.drop k=x++l) (hx : x.length=m) : readLe b k m=ofLeBytes x := by
  rw [readLe,h,take_left' hx]

theorem parseBody_pieces {v ft hc hl : UInt8} {fl cid sq rs pl rest : Bytes}
    (h : Pieces b v ft hc hl fl cid sq rs pl rest) : parseBody n b =
      if v≠protocolVersion then .error (.versionMismatch protocolVersion v)
      else if FrameType.known ft=false then .error (.unknownFrameType ft)
      else if hl=0 ∨ hc≥hl then .error (.hopExceeded hc hl)
      else if ofLeBytes rs≠0 then .error (.reservedNotZero (ofLeBytes rs*2^32))
      else parseTail ⟨.ofNat n,v,ft,.ofNat (ofLeBytes fl),.ofNat (ofLeBytes cid),hc,hl,.ofNat (ofLeBytes sq)⟩
        n (ofLeBytes pl) rest := by
  have d2 : b.drop 2=fl++(cid++(hc::hl::(sq++(rs++(pl++rest))))) := by rw [h.eq]; rfl
  have d4 : b.drop 4=cid++(hc::hl::(sq++(rs++(pl++rest)))) := by
    rw [show (4 : ℕ)=2+2 from rfl,← drop_drop,d2,drop_left' h.fl]
  have d12 : b.drop 12=hc::hl::(sq++(rs++(pl++rest))) := by
    rw [show (12 : ℕ)=4+8 from rfl,← drop_drop,d4,drop_left' h.cid]
  have d13 : b.drop 13=hl::(sq++(rs++(pl++rest))) := by
    rw [show (13 : ℕ)=12+1 from rfl,← drop_drop,d12]
    rfl
  have d14 : b.drop 14=sq++(rs++(pl++rest)) := by
    rw [show (14 : ℕ)=13+1 from rfl,← drop_drop,d13]
    rfl
  have d18 : b.drop 18=rs++(pl++rest) := by
    rw [show (18 : ℕ)=14+4 from rfl,← drop_drop,d14,drop_left' h.sq]
  have d20 : b.drop 20=pl++rest := by
    rw [show (20 : ℕ)=18+2 from rfl,← drop_drop,d18,drop_left' h.rs]
  have d24 : b.drop 24=rest := by
    rw [show (24 : ℕ)=20+4 from rfl,← drop_drop,d20,drop_left' h.pl]
  have g0 : b.getD 0 0=v := by rw [h.eq]; rfl
  have g1 : b.getD 1 0=ft := by rw [h.eq]; rfl
  unfold parseBody
  rw [g0,g1,getD_of_drop d12,getD_of_drop d13,readLe_of_drop d2 h.fl,readLe_of_drop d4 h.cid,
    readLe_of_drop d14 h.sq,readLe_of_drop d18 h.rs,readLe_of_drop d20 h.pl,d24]

theorem parseTail_encoded (header : FrameHeader) (path key : String) (payload : Bytes)
    (hkey : key.utf8ByteSize<256^4) : parseTail header n path.utf8ByteSize
    (utf8 path++(leBytes 4 key.utf8ByteSize++(utf8 key++payload))) = .ok ⟨header,path,key,payload⟩ := by
  have hp : (utf8 path).length=path.utf8ByteSize := Bincode.utf8_length path
  have hk : (utf8 key).length=key.utf8ByteSize := Bincode.utf8_length key
  have h4 : (leBytes 4 key.utf8ByteSize).length=4 := Bincode.leBytes_length ..
  have hread (field s : String) : readString field (utf8 s)=.ok s := by
    rw [readString,Bincode.fromUTF8_utf8]
  unfold parseTail
  rw [if_neg (by simp only [length_append,h4]; omega),take_left' hp,drop_left' hp,hread]
  dsimp only [bind,Except.bind]
  rw [readLe_of_drop (k := 0) rfl h4,Bincode.ofLeBytes_leBytes hkey,drop_left' h4,
    if_neg (by simp only [length_append]; omega),take_left' hk,hread,drop_left' hk]
  rfl

theorem readString_ok {field s : String} (h : readString field b=.ok s) : utf8 s=b := by
  unfold readString at h
  split at h
  · rename_i s' hs
    cases h
    exact Bincode.utf8_fromUTF8 hs
  · contradiction

theorem parseTail_ok {header : FrameHeader} {pathLen : ℕ} (h : parseTail header n pathLen b=.ok f) : f.header=header ∧
    pathLen=f.path.utf8ByteSize ∧ b=utf8 f.path++(leBytes 4 f.typeKey.utf8ByteSize++(utf8 f.typeKey++f.payload)) := by
  unfold parseTail at h
  obtain ⟨hlen,h⟩:=Except.of_ite_left h
  push Not at hlen
  obtain ⟨path,hpath,h⟩:=bind_eq_ok.mp h
  dsimp only at h
  obtain ⟨hkeyLen,h⟩:=Except.of_ite_left h
  obtain ⟨key,hkey,h⟩:=bind_eq_ok.mp h
  cases h
  obtain ⟨x,y,hx,rfl⟩:=exists_split (k := pathLen) (l := b) (by omega)
  rw [take_left' hx] at hpath
  rw [drop_left' hx] at hkey hkeyLen ⊢
  rw [length_append] at hlen
  obtain ⟨z,w,hz,rfl⟩:=exists_split (k := 4) (l := y) (by omega)
  rw [readLe_of_drop (k := 0) rfl hz,drop_left' hz] at hkey hkeyLen ⊢
  have hp:=readString_ok hpath
  have hk:=readString_ok hkey
  have hsize : key.utf8ByteSize=ofLeBytes z := by
    rw [← Bincode.utf8_length,hk,length_take]
    omega
  have hz' : leBytes 4 (ofLeBytes z)=z := by rw [← hz,Bincode.leBytes_ofLeBytes]
  refine ⟨rfl,?_,?_⟩
  · rw [← Bincode.utf8_length,hp,hx]
  · rw [hp,hsize,hz',hk,take_append_drop]

theorem fixed_length (rest : Bytes) : (f.fixed rest).length=20+rest.length := by
  simp only [fixed,List.length_cons,length_append,Bincode.leBytes_length]
  omega

theorem body_length : f.body.length=f.bodyLen := by
  rw [body,fixed_length]
  simp only [length_append,Bincode.leBytes_length,Bincode.utf8_length,bodyLen,bodyFixedOverhead]
  omega

theorem body_pieces : Pieces f.body f.header.version f.header.frameType f.header.hopCount f.header.hopLimit
    (leBytes 2 f.header.flags.toNat) (leBytes 8 f.header.correlationId.toNat) (leBytes 4 f.header.seq.toNat)
    (leBytes 2 0) (leBytes 4 f.path.utf8ByteSize)
    (utf8 f.path++(leBytes 4 f.typeKey.utf8ByteSize++(utf8 f.typeKey++f.payload))) where
  eq := rfl
  fl := Bincode.leBytes_length ..
  cid := Bincode.leBytes_length ..
  sq := Bincode.leBytes_length ..
  rs := Bincode.leBytes_length ..
  pl := Bincode.leBytes_length ..

theorem parseBody_encoded (h : Routable f) (hv : f.header.version=protocolVersion)
    (hlen : f.bodyLen ≤ maxFrameLen) : parseBody f.bodyLen f.body=.ok f.filled := by
  have hpath : f.path.utf8ByteSize<256^4 := by
    simp only [bodyLen,maxFrameLen] at hlen
    omega
  have hkey : f.typeKey.utf8ByteSize<256^4 := by
    simp only [bodyLen,maxFrameLen] at hlen
    omega
  have hflags : ofLeBytes (leBytes 2 f.header.flags.toNat)=f.header.flags.toNat :=
    Bincode.ofLeBytes_leBytes f.header.flags.toNat_lt
  have hcid : ofLeBytes (leBytes 8 f.header.correlationId.toNat)=f.header.correlationId.toNat :=
    Bincode.ofLeBytes_leBytes f.header.correlationId.toNat_lt
  have hseq : ofLeBytes (leBytes 4 f.header.seq.toNat)=f.header.seq.toNat :=
    Bincode.ofLeBytes_leBytes f.header.seq.toNat_lt
  have hhop : ¬(f.header.hopLimit=0 ∨ f.header.hopCount≥f.header.hopLimit) := by
    have:=h.hop
    simp only [not_or,ge_iff_le,UInt8.not_le]
    refine ⟨?_,this⟩
    intro h0
    rw [h0] at this
    exact absurd this UInt8.not_lt_zero
  rw [parseBody_pieces body_pieces,if_neg (not_not_intro hv),if_neg (by rw [h.known]; exact Bool.noConfusion),
    if_neg hhop,if_neg (by decide),Bincode.ofLeBytes_leBytes hpath,parseTail_encoded _ _ _ _ hkey,hflags,hcid,hseq,
    UInt16.ofNat_toNat,UInt64.ofNat_toNat,UInt32.ofNat_toNat]
  rfl

theorem parseBody_ok (hb : 24≤b.length) (h : parseBody n b=.ok f) :
    Routable f ∧ f.header.version=protocolVersion ∧ f.header.frameLen=.ofNat n ∧ f.body=b := by
  obtain ⟨v,ft,hc,hl,fl,cid,sq,rs,pl,rest,hp⟩:=exists_pieces hb
  rw [parseBody_pieces hp] at h
  obtain ⟨hv,h⟩:=Except.of_ite_left h
  obtain ⟨hft,h⟩:=Except.of_ite_left h
  obtain ⟨hhop,h⟩:=Except.of_ite_left h
  obtain ⟨hrs,h⟩:=Except.of_ite_left h
  obtain ⟨hheader,hpath,hrest⟩:=parseTail_ok h
  push Not at hhop hrs
  have hle {k : ℕ} {x : Bytes} (hx : x.length=k) : leBytes k (ofLeBytes x)=x := by
    rw [← hx,Bincode.leBytes_ofLeBytes]
  have hlt {k : ℕ} {x : Bytes} (hx : x.length=k) : ofLeBytes x<256^k := by
    rw [← hx]
    exact Bincode.ofLeBytes_lt x
  have hrs0 : leBytes 2 0=rs := by rw [← hrs,hle hp.rs]
  refine ⟨⟨?_,?_⟩,?_,?_,?_⟩
  · rw [hheader]
    exact Bool.not_eq_false _ ▸ hft
  · rw [hheader]
    exact UInt8.not_le.mp hhop.2
  · rw [hheader]
    exact not_not.mp hv
  · rw [hheader]
  · rw [body,fixed,hheader,← hpath,hle hp.pl,← hrest,hrs0,
      UInt16.toNat_ofNat_of_lt' (hlt hp.fl),UInt64.toNat_ofNat_of_lt' (hlt hp.cid),
      UInt32.toNat_ofNat_of_lt' (hlt hp.sq),hle hp.fl,hle hp.cid,hle hp.sq,hp.eq]

theorem bodyLen_ge : bodyFixedOverhead≤f.bodyLen := by
  unfold bodyLen
  omega

def bytes (f : Frame) : Bytes := leBytes 4 f.bodyLen++f.body

theorem bytes_length : f.bytes.length=4+f.bodyLen := by
  rw [bytes,length_append,Bincode.leBytes_length,body_length]

theorem readLe_bytes (hlen : f.bodyLen ≤ maxFrameLen) (tail : Bytes) : readLe (f.bytes++tail) 0 4=f.bodyLen := by
  have hlt : f.bodyLen<256^4 := by
    unfold maxFrameLen at hlen
    omega
  rw [bytes,append_assoc,readLe_of_drop (k := 0) rfl (Bincode.leBytes_length ..),Bincode.ofLeBytes_leBytes hlt]

theorem decodeWithLimit_bytes (h : Routable f) (hv : f.header.version=protocolVersion)
    (hlen : f.bodyLen ≤ min limit maxFrameLen) (tail : Bytes) :
    decodeWithLimit limit (f.bytes++tail)=(.ok (some f.filled),tail) := by
  have hmax : f.bodyLen ≤ maxFrameLen := by omega
  have hge:=bodyLen_ge (f := f)
  have hlong : (f.bytes++tail).length=4+f.bodyLen+tail.length := by rw [length_append,bytes_length]
  have hdrop : ((f.bytes++tail).drop 4).take f.bodyLen=f.body := by
    rw [bytes,append_assoc,drop_left' (Bincode.leBytes_length ..),take_left' body_length]
  unfold decodeWithLimit
  rw [readLe_bytes hmax,if_neg (by omega),if_neg (by omega),if_neg (by omega),if_neg (by omega),hdrop,
    parseBody_encoded h hv hmax,drop_left' bytes_length]
  rfl

theorem decodeWithLimit_part (hlen : f.bodyLen ≤ min limit maxFrameLen) {p : Bytes} (hp : p<+:f.bytes)
    (hne : p≠f.bytes) : decodeWithLimit limit p=(.ok none,p) := by
  have hshort : p.length<4+f.bodyLen := by
    have hle:=hp.length_le
    rw [bytes_length] at hle
    by_contra hge
    exact hne (hp.eq_of_length (by rw [bytes_length]; omega))
  unfold decodeWithLimit
  split
  · rfl
  · rename_i hfour
    have hread : readLe p 0 4=f.bodyLen := by
      obtain ⟨q,hq⟩:=hp
      have hwhole:=readLe_bytes (f := f) (by omega) []
      rw [List.append_nil,← hq] at hwhole
      rw [← hwhole,readLe,readLe,drop_zero,drop_zero,List.take_append_of_le_length (by omega)]
    have hge:=bodyLen_ge (f := f)
    rw [hread,if_neg (by omega),if_neg (by omega),if_pos (by omega)]

theorem decodeWithLimit_cases {buf rest : Bytes} {r : Except FrameError (Option Frame)}
    (h : decodeWithLimit limit buf=(r,rest)) : (r=.ok none ∧ rest=buf) ∨ (∃ e, r=.error e ∧ rest=buf) ∨
    (readLe buf 0 4 ≤ min limit maxFrameLen ∧ bodyFixedOverhead ≤ readLe buf 0 4 ∧ 4+readLe buf 0 4≤buf.length ∧
    rest=buf.drop (4+readLe buf 0 4) ∧
    r=(parseBody (readLe buf 0 4) ((buf.drop 4).take (readLe buf 0 4))).map some) := by
  unfold decodeWithLimit at h
  dsimp only at h
  split at h
  · cases h
    exact .inl ⟨rfl,rfl⟩
  · split at h
    · cases h
      exact .inr (.inl ⟨_,rfl,rfl⟩)
    · split at h
      · cases h
        exact .inr (.inl ⟨_,rfl,rfl⟩)
      · split at h
        · cases h
          exact .inl ⟨rfl,rfl⟩
        · cases h
          exact .inr (.inr ⟨by omega,by omega,by omega,rfl,rfl⟩)

theorem decodeWithLimit_some {buf rest : Bytes} (h : decodeWithLimit limit buf=(.ok (some f),rest)) :
    f.bodyLen ≤ min limit maxFrameLen ∧ f.header.version=protocolVersion ∧ buf=f.bytes++rest := by
  obtain ⟨hr,-⟩ | ⟨e,hr,-⟩ | ⟨hmax,hmin,hlen,hrest,hr⟩:=decodeWithLimit_cases h
  · cases hr
  · cases hr
  · cases hparse : parseBody (readLe buf 0 4) ((buf.drop 4).take (readLe buf 0 4)) with
    | error e =>
      rw [hparse] at hr
      cases hr
    | ok g =>
      rw [hparse] at hr
      obtain rfl : f=g := Option.some.inj (Except.ok.inj hr)
      unfold bodyFixedOverhead at hmin
      have htake : ((buf.drop 4).take (readLe buf 0 4)).length=readLe buf 0 4 := by
        rw [length_take,List.length_drop]
        omega
      obtain ⟨-,hv,-,hbody⟩:=parseBody_ok (by omega) hparse
      have hbodyLen : f.bodyLen=readLe buf 0 4 := by rw [← body_length,hbody,htake]
      have hfour : leBytes 4 (readLe buf 0 4)=buf.take 4 := by
        have hl : (buf.take 4).length=4 := by
          rw [length_take]
          omega
        rw [readLe,drop_zero]
        calc leBytes 4 (ofLeBytes (buf.take 4))
          _ = leBytes (buf.take 4).length (ofLeBytes (buf.take 4)) := by rw [hl]
          _ = buf.take 4 := Bincode.leBytes_ofLeBytes _
      refine ⟨by omega,hv,?_⟩
      rw [bytes,hbodyLen,hbody,hfour,hrest,append_assoc,← drop_drop,take_append_drop,take_append_drop]

end Frame

namespace Codec
open Parrot.Wire.Frame

variable {c : Codec}

def limit : Codec → ℕ
  | frame => maxFrameLen
  | negotiated m => min m maxFrameLen

theorem decode_eq (buf : Bytes) : c.decode buf=decodeWithLimit c.limit buf := by
  cases c with
  | frame => rfl
  | negotiated m =>
    have hmin : min (limit (negotiated m)) maxFrameLen=min m maxFrameLen := by
      rw [limit,min_assoc,min_self]
    unfold decode decodeWithLimit
    rw [hmin]

theorem validateSize_ok {limit m : ℕ} : f.validateSize limit=.ok m ↔ m=f.bodyLen ∧ f.bodyLen ≤ min limit maxFrameLen := by
  unfold validateSize
  constructor
  · intro h
    split at h
    · contradiction
    · exact ⟨(Except.ok.inj h).symm,by omega⟩
  · intro h
    rw [if_neg (by omega),h.1]

theorem encode_frame : f.encode=.ok b ↔ f.bodyLen ≤ maxFrameLen ∧ f.header.version=protocolVersion ∧ b=f.bytes := by
  unfold Frame.encode
  constructor
  · intro h
    obtain ⟨m,hm,h⟩:=bind_eq_ok.mp h
    obtain ⟨rfl,hlen⟩:=validateSize_ok.mp hm
    obtain ⟨hv,h⟩:=Except.of_ite_left h
    exact ⟨by omega,not_not.mp hv,(Except.ok.inj h).symm⟩
  · rintro ⟨hlen,hv,rfl⟩
    apply bind_eq_ok.mpr
    refine ⟨f.bodyLen,validateSize_ok.mpr ⟨rfl,by omega⟩,?_⟩
    rw [if_neg (not_not_intro hv)]
    rfl

theorem encode_ok : c.encode f=.ok b ↔ f.bodyLen≤c.limit ∧ f.header.version=protocolVersion ∧ b=f.bytes := by
  cases c with
  | frame => exact encode_frame
  | negotiated m =>
    have hle : limit (negotiated m) ≤ maxFrameLen := Nat.min_le_right ..
    unfold encode
    constructor
    · intro h
      obtain ⟨k,hk,h⟩:=bind_eq_ok.mp h
      exact ⟨(validateSize_ok.mp hk).2,(encode_frame.mp h).2⟩
    · rintro ⟨hlen,hrest⟩
      exact bind_eq_ok.mpr ⟨f.bodyLen,validateSize_ok.mpr ⟨rfl,hlen⟩,encode_frame.mpr ⟨hlen.trans hle,hrest⟩⟩

theorem limit_le : c.limit ≤ maxFrameLen := by
  cases c with
  | frame => exact le_rfl
  | negotiated m => exact Nat.min_le_right ..

theorem reads (h : Routable f) (he : c.encode f=.ok b) : StreamCodec.Reads c.decode f.filled b := by
  obtain ⟨hlen,hv,rfl⟩:=encode_ok.mp he
  have hmin : f.bodyLen ≤ min c.limit maxFrameLen := Nat.le_min.mpr ⟨hlen,hlen.trans limit_le⟩
  constructor
  · intro hnil
    have:=bytes_length (f := f)
    rw [hnil,List.length_nil] at this
    omega
  · intro tail
    rw [decode_eq]
    exact decodeWithLimit_bytes h hv hmin tail
  · intro p hp hne
    rw [decode_eq]
    exact decodeWithLimit_part hmin hp hne

/-- The frame codec: a frame that may travel is read back whatever follows it, what is
read is what its encoding would be, an answer without a frame takes no bytes or those
of the one frame announced, and chunks do not matter. -/
theorem frame_codec (c : Codec) :
    (∀ f b tail, Routable f → c.encode f=.ok b → c.decode (b++tail)=(.ok (some f.filled),tail)) ∧
    (∀ buf f rest, c.decode buf=(.ok (some f),rest) → ∃ b, c.encode f=.ok b ∧ buf=b++rest) ∧
    (∀ buf rest, c.decode buf=(.ok none,rest) → rest=buf) ∧ (∀ buf e rest, c.decode buf=(.error e,rest) → rest=buf ∨
    (4+readLe buf 0 4≤buf.length ∧ rest=buf.drop (4+readLe buf 0 4))) ∧
    (∀ (frames : List (Frame × Bytes)) (chunks : List Bytes), (∀ p∈frames, Routable p.1 ∧ c.encode p.1=.ok p.2) →
    chunks.flatten=(frames.map Prod.snd).flatten →
    feed c.decode [] chunks=(frames.map fun p => p.1.filled,.ok (),[]) ∧ c.decodeEof []=(.ok none,[])) := by
  refine ⟨?_,?_,?_,?_,?_⟩
  · intro f b tail h he
    exact (reads h he).whole tail
  · intro buf f rest h
    rw [decode_eq] at h
    obtain ⟨hlen,hv,hbuf⟩:=decodeWithLimit_some h
    exact ⟨f.bytes,encode_ok.mpr ⟨by omega,hv,rfl⟩,hbuf⟩
  · intro buf rest h
    rw [decode_eq] at h
    obtain ⟨-,hrest⟩ | ⟨e,hr,-⟩ | ⟨-,-,-,-,hr⟩:=decodeWithLimit_cases h
    · exact hrest
    · cases hr
    · cases hparse : parseBody (readLe buf 0 4) ((buf.drop 4).take (readLe buf 0 4)) with
      | error | ok =>
        rw [hparse] at hr
        cases hr
  · intro buf e rest h
    rw [decode_eq] at h
    obtain ⟨-,hrest⟩ | ⟨e,-,hrest⟩ | ⟨-,-,hlen,hrest,-⟩:=decodeWithLimit_cases h
    · exact .inl hrest
    · exact .inl hrest
    · exact .inr ⟨hlen,hrest⟩
  · intro frames chunks h hchunks
    have hnil : c.decode []=(.ok none,[]) := by rw [decode_eq]; rfl
    refine ⟨?_,by rw [decodeEof,hnil]; rfl⟩
    have hreads : ∀ v∈frames.map (fun p => (p.1.filled,p.2)), StreamCodec.Reads c.decode v.1 v.2 := by
      intro v hv
      obtain ⟨p,hp,rfl⟩:=List.mem_map.mp hv
      exact reads (h p hp).1 (h p hp).2
    have hstream : StreamCodec.stream (frames.map fun p => (p.1.filled,p.2))=(frames.map Prod.snd).flatten := by
      rw [StreamCodec.stream,map_map]
      rfl
    have hbegun : StreamCodec.Begun [] (frames.map fun p => (p.1.filled,p.2)) := by
      cases frames with
      | nil => rfl
      | cons p frames => exact ⟨List.nil_prefix,((hreads _ (List.mem_cons_self ..)).pos).symm⟩
    have hsplit : []++chunks.flatten=StreamCodec.stream (frames.map fun p => (p.1.filled,p.2)) := by
      rw [List.nil_append,hchunks,hstream]
    have hfeed:=StreamCodec.feed_stream hnil hreads hbegun hsplit
    rw [hfeed,map_map]
    rfl

def heartbeat : Frame := ⟨⟨0,protocolVersion,FrameType.heartbeat,0,0,0,1,0⟩,"","",[7]⟩

theorem heartbeat_routable : Routable heartbeat := ⟨by decide,by decide⟩

theorem frame_codec_heartbeat : frame.decode (heartbeat.bytes++[1,2])=(.ok (some heartbeat.filled),[1,2]) ∧
    feed frame.decode [] [heartbeat.bytes.take 9,heartbeat.bytes.drop 9]=([heartbeat.filled],.ok (),[]) := by
  have he : frame.encode heartbeat=.ok heartbeat.bytes := encode_ok.mpr ⟨by decide,rfl,rfl⟩
  obtain ⟨hwhole,-,-,-,hchunks⟩:=frame_codec frame
  refine ⟨hwhole heartbeat heartbeat.bytes [1,2] heartbeat_routable he,?_⟩
  refine (hchunks [(heartbeat,heartbeat.bytes)] _ ?_ ?_).1
  · intro p hp
    obtain rfl:=List.mem_singleton.mp hp
    exact ⟨heartbeat_routable,he⟩
  · simp only [List.flatten_cons,List.flatten_nil,List.append_nil,List.map_cons,List.map_nil,take_append_drop]

end Codec
end Parrot.Wire
