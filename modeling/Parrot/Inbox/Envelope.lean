import Parrot.Inbox.Store

/-! # The durable envelope on the wire (`durable/envelope.rs:69-128`)

`[version:u8][seq:u64 LE][five u16 LE lengths][UTF-8 fields][payload]`: the lengths
stand together before the fields, so that the payload needs none of its own. -/

namespace Parrot.Inbox
open List (length_append length_cons take_left' length_drop length_take drop_drop append_assoc drop_left' append_inj length_nil)
open Machine CrashFs
open Bincode (leBytes ofLeBytes utf8)

namespace DurableEnvelope

def fields (e : DurableEnvelope) : List String := [e.source,e.session,e.receiver,e.path,e.typeKey]

def lengths (fields : List String) : Bytes := fields.flatMap fun value => leBytes 2 value.utf8ByteSize

def texts (fields : List String) : Bytes := fields.flatMap utf8

def encode (e : DurableEnvelope) : Except String Bytes := do
  e.validate
  .ok (1::(leBytes 8 e.sequence++(lengths e.fields++(texts e.fields++e.payload))))

/- One turn of the loop: the `i`-th field, which starts at `cursor`, and where it ends. -/
def readField (bytes : Bytes) (i limit cursor : ℕ) : Except String (String × ℕ) :=
  let length:=ofLeBytes ((bytes.drop (9+i*2)).take 2)
  match (checkedAdd cursor length).filter fun n => decide (n≤bytes.length) with
  | none => .error "truncated durable identity"
  | some stop =>
    if length=0 ∨ length>limit then .error "durable field length budget"
    else
      match String.fromUTF8? ⟨((bytes.take stop).drop cursor).toArray⟩ with
      | none => .error "invalid durable UTF-8"
      | some value => .ok (value,stop)

def readFields (bytes : Bytes) : List ℕ → ℕ → ℕ → Except String (List String × ℕ)
  | [],_,cursor => .ok ([],cursor)
  | limit::limits,i,cursor => do
    let (value,stop) ← readField bytes i limit cursor
    let (values,cursor) ← readFields bytes limits (i+1) stop
    .ok (value::values,cursor)

def fieldLimits : List ℕ := [1024,1024,1024,4096,1024]

/- The error of the last branch stands for the source's `unwrap` on five fields. -/
def decode (bytes : Bytes) : Except String DurableEnvelope :=
  if bytes.length<19 ∨ bytes.length>Wire.maxFrameLen ∨ bytes.getD 0 0≠1 then
    .error "invalid durable envelope header"
  else do
    let sequence:=ofLeBytes ((bytes.drop 1).take 8)
    match ← readFields bytes fieldLimits 0 19 with
    | ([source,session,receiver,path,typeKey],cursor) =>
      let e : DurableEnvelope := ⟨source,session,receiver,path,sequence,typeKey,bytes.drop cursor⟩
      e.validate
      .ok e
    | _ => .error "five fields"

def Within : List ℕ → List String → Prop
  | [],[] => True
  | limit::limits,value::values => 0<value.utf8ByteSize ∧ value.utf8ByteSize≤limit ∧ limit<65536 ∧
      Within limits values
  | _,_ => False

theorem lengths_length (values : List String) : (lengths values).length=2*values.length := by
  induction values with
  | nil => rfl
  | cons value values ih =>
    have hcons : lengths (value::values)=leBytes 2 value.utf8ByteSize++lengths values := rfl
    rw [hcons,length_append,ih,Bincode.leBytes_length,length_cons]
    omega

theorem texts_cons (value : String) (values : List String) : texts (value::values)=utf8 value++texts values := rfl

theorem lengths_cons (value : String) (values : List String) :
    lengths (value::values)=leBytes 2 value.utf8ByteSize++lengths values := rfl

variable {bytes : Bytes}

theorem readField_encoded {i limit cursor : ℕ} {value : String} {after rest : Bytes} (hpos : 0<value.utf8ByteSize)
    (hle : value.utf8ByteSize≤limit) (hlimit : limit<65536)
    (hlen : bytes.drop (9+i*2)=leBytes 2 value.utf8ByteSize++after) (htext : bytes.drop cursor=utf8 value++rest)
    (hfit : bytes.length≤u64Max) : readField bytes i limit cursor=.ok (value,cursor+value.utf8ByteSize) := by
  have hread : ofLeBytes ((bytes.drop (9+i*2)).take 2)=value.utf8ByteSize := by
    rw [hlen,take_left' (Bincode.leBytes_length 2 _)]
    exact Bincode.ofLeBytes_leBytes (by omega)
  have hend : cursor+value.utf8ByteSize≤bytes.length := by
    have hcount:=congrArg List.length htext
    rw [length_drop,length_append,Bincode.utf8_length] at hcount
    omega
  have hadd : checkedAdd cursor value.utf8ByteSize=some (cursor+value.utf8ByteSize) :=
    checkedAdd_eq_some.mpr ⟨rfl,hend.trans hfit⟩
  have hfilter : (some (cursor+value.utf8ByteSize)).filter (fun n => decide (n≤bytes.length)) =
      some (cursor+value.utf8ByteSize) := by
    rw [Option.filter_some,if_pos (decide_eq_true hend)]
  have hslice : (bytes.take (cursor+value.utf8ByteSize)).drop cursor=utf8 value := by
    rw [List.drop_take,htext,Nat.add_sub_cancel_left,take_left' (Bincode.utf8_length value)]
  unfold readField
  simp only [hread,hadd,hfilter]
  rw [if_neg (by omega),hslice,Bincode.fromUTF8_utf8]

theorem readField_ok {i limit cursor stop : ℕ} {value : String} (h : readField bytes i limit cursor=.ok (value,stop))
    (hlen : 9+i*2+2≤bytes.length) : (bytes.drop (9+i*2)).take 2=leBytes 2 value.utf8ByteSize ∧
    bytes.drop cursor=utf8 value++bytes.drop stop := by
  unfold readField at h
  dsimp only at h
  split at h
  · contradiction
  · rename_i stop' hstop
    obtain ⟨hadd,hend⟩:=Option.filter_eq_some_iff.mp hstop
    obtain ⟨hsum,-⟩:=checkedAdd_eq_some.mp hadd
    have hle : stop'≤bytes.length := of_decide_eq_true hend
    obtain ⟨-,h⟩:=Except.of_ite_left h
    split at h
    · contradiction
    · rename_i value' hutf
      have heq:=Except.ok.inj h
      cases heq
      have htext:=Bincode.utf8_fromUTF8 hutf
      have hcount:=congrArg List.length htext
      rw [Bincode.utf8_length,length_drop,length_take,min_eq_left hle] at hcount
      have hsize : ((bytes.drop (9+i*2)).take 2).length=2 := by
        rw [length_take,length_drop]
        omega
      have hback:=Bincode.leBytes_ofLeBytes ((bytes.drop (9+i*2)).take 2)
      rw [hsize] at hback
      have hval : ofLeBytes ((bytes.drop (9+i*2)).take 2)=value.utf8ByteSize := by omega
      rw [hval] at hback
      have hdrop : bytes.drop stop=(bytes.drop cursor).drop (stop-cursor) := by
        rw [drop_drop,show cursor+(stop-cursor)=stop by omega]
      rw [htext,List.drop_take,hdrop,List.take_append_drop]
      exact ⟨hback.symm,rfl⟩

theorem readFields_encoded (hfit : bytes.length≤u64Max) :
    ∀ {limits : List ℕ} {values : List String} {i cursor : ℕ} {after rest : Bytes}, Within limits values →
      bytes.drop (9+i*2)=lengths values++after → bytes.drop cursor=texts values++rest →
      readFields bytes limits i cursor=.ok (values,cursor+(texts values).length)
  | [],[],_,_,_,_,_,_,_ => rfl
  | limit::limits,value::values,i,cursor,after,rest,hwithin,hlen,htext => by
    obtain ⟨hpos,hle,hlimit,hrest⟩:=hwithin
    rw [lengths_cons,append_assoc] at hlen
    rw [texts_cons,append_assoc] at htext
    have hnext : bytes.drop (9+(i+1)*2)=lengths values++after := by
      have hdrop:=congrArg (List.drop 2) hlen
      rwa [drop_drop,drop_left' (Bincode.leBytes_length 2 _),show 9+i*2+2=9+(i+1)*2 by ring] at hdrop
    have htail : bytes.drop (cursor+value.utf8ByteSize)=texts values++rest := by
      have hdrop:=congrArg (List.drop value.utf8ByteSize) htext
      rwa [drop_drop,drop_left' (Bincode.utf8_length value)] at hdrop
    have hstop : cursor+value.utf8ByteSize+(texts values).length=cursor+(texts (value::values)).length := by
      rw [texts_cons,length_append,Bincode.utf8_length,Nat.add_assoc]
    unfold readFields
    rw [readField_encoded hpos hle hlimit hlen htext hfit]
    show (do
      let (values',cursor') ← readFields bytes limits (i+1) (cursor+value.utf8ByteSize)
      Except.ok (value::values',cursor'))=_
    rw [readFields_encoded hfit hrest hnext htail,← hstop]
    rfl

theorem readFields_ok {limits : List ℕ} {i cursor stop : ℕ} {values : List String}
    (h : readFields bytes limits i cursor=.ok (values,stop)) (hlen : 9+(i+limits.length)*2≤bytes.length) : bytes.drop
    (9+i*2)=lengths values++bytes.drop (9+(i+limits.length)*2) ∧ bytes.drop cursor=texts values++bytes.drop stop := by
  induction limits generalizing i cursor values with
  | nil =>
    cases (Except.ok.inj h : ([],cursor)=(values,stop))
    exact ⟨rfl,rfl⟩
  | cons limit limits ih =>
    unfold readFields at h
    obtain ⟨⟨value,mid⟩,hfield,hrest⟩:=bind_eq_ok.mp h
    obtain ⟨⟨values',stop'⟩,hfields,hdone⟩:=bind_eq_ok.mp hrest
    cases (Except.ok.inj hdone : (value::values',stop')=(values,stop))
    rw [length_cons] at hlen ⊢
    obtain ⟨hsize,htext⟩:=readField_ok hfield (by omega)
    obtain ⟨hsizes,htexts⟩:=ih hfields (by omega)
    have hsplit : bytes.drop (9+i*2)=leBytes 2 value.utf8ByteSize++bytes.drop (9+(i+1)*2) := by
      have htail : bytes.drop (9+(i+1)*2)=(bytes.drop (9+i*2)).drop 2 := by
        rw [drop_drop,show 9+(i+1)*2=9+i*2+2 by ring]
      rw [← hsize,htail,List.take_append_drop]
    rw [hsplit,hsizes,lengths_cons,htext,htexts,texts_cons,append_assoc,append_assoc,
      show i+1+limits.length=i+(limits.length+1) by ring]
    exact ⟨rfl,rfl⟩

theorem fields_shared {limits : List ℕ} {values values' : List String} {rest rest' : Bytes}
    (hwithin : Within limits values) (hwithin' : Within limits values') (hlen : lengths values'=lengths values)
    (htext : texts values'++rest'=texts values++rest) : values'=values ∧ rest'=rest := by
  induction limits generalizing values values' with
  | nil =>
    cases values with
    | nil =>
      cases values' with
      | nil => exact ⟨rfl,htext⟩
      | cons => exact hwithin'.elim
    | cons => exact hwithin.elim
  | cons limit limits ih =>
    cases values with
    | nil => exact hwithin.elim
    | cons value values =>
      cases values' with
      | nil => exact hwithin'.elim
      | cons value' values' =>
        obtain ⟨-,hle,hlimit,hwithin⟩:=hwithin
        obtain ⟨-,hle',-,hwithin'⟩:=hwithin'
        rw [lengths_cons,lengths_cons] at hlen
        obtain ⟨hsize,hlen⟩:=append_inj hlen (by simp only [Bincode.leBytes_length])
        have hread:=congrArg ofLeBytes hsize
        rw [Bincode.ofLeBytes_leBytes (by omega),Bincode.ofLeBytes_leBytes (by omega)] at hread
        rw [texts_cons,texts_cons,append_assoc,append_assoc] at htext
        obtain ⟨hutf,htext⟩:=append_inj htext (by rw [Bincode.utf8_length,Bincode.utf8_length,hread])
        obtain ⟨hvalues,hrest⟩:=ih hwithin hwithin' hlen htext
        rw [Bincode.utf8_inj hutf,hvalues]
        exact ⟨rfl,hrest⟩

def layout (sequence : ℕ) (fields : List String) (payload : Bytes) : Bytes :=
  1::(leBytes 8 sequence++(lengths fields++(texts fields++payload)))

variable {e : DurableEnvelope}

theorem encode_ok : e.encode=.ok bytes ↔ e.validate=.ok () ∧ bytes=layout e.sequence e.fields e.payload := by
  unfold encode
  rw [bind_eq_ok]
  exact ⟨fun ⟨_,hvalid,heq⟩ => ⟨hvalid,(Except.ok.inj heq).symm⟩,fun ⟨hvalid,heq⟩ => ⟨(),hvalid,by rw [heq]; rfl⟩⟩

theorem size_pos {value : String} (h : value ≠ "") : 0<value.utf8ByteSize :=
  Nat.pos_of_ne_zero fun hzero => h (String.utf8ByteSize_eq_zero_iff.mp hzero)

theorem validateNode_ok {node : String} (h : validateNode node=.ok ()) :
    0<node.utf8ByteSize ∧ node.utf8ByteSize≤1024 := by
  unfold validateNode at h
  obtain ⟨hle,h⟩:=Except.of_ite_left h
  have hne : node ≠ "" := by
    intro hempty
    rw [hempty] at h
    contradiction
  have hpos:=size_pos hne
  omega

theorem encodedLen_ok {n : ℕ} (h : e.encodedLen=.ok n) : n=(layout e.sequence e.fields e.payload).length := by
  unfold encodedLen at h
  split at h
  · rename_i m hm
    cases Except.ok.inj h
    simp only [List.foldlM_cons,List.foldlM_nil,Option.bind_eq_bind,Option.bind_eq_some_iff,checkedAdd_eq_some,
      Option.pure_def,Option.some.injEq] at hm
    obtain ⟨a,⟨ha,-⟩,b,⟨hb,-⟩,c,⟨hc,-⟩,d,⟨hd,-⟩,f,⟨hf,-⟩,g,⟨hg,-⟩,hlast⟩:=hm
    simp only [layout,fields,texts,List.flatMap_cons,List.flatMap_nil,length_cons,length_append,
      lengths_length,Bincode.leBytes_length,Bincode.utf8_length,length_nil]
    omega
  · contradiction

theorem validate_ok (h : e.validate=.ok ()) :
    Within fieldLimits e.fields ∧ (layout e.sequence e.fields e.payload).length≤Wire.maxFrameLen := by
  unfold validate at h
  obtain ⟨⟨⟩,hsource,h⟩:=bind_eq_ok.mp h
  obtain ⟨⟨⟩,hreceiver,h⟩:=bind_eq_ok.mp h
  obtain ⟨hfine,h⟩:=Except.of_ite_left h
  simp only [not_or] at hfine
  obtain ⟨-,hsession,hsession',-,hpath,hpath',-,htype,htype',-⟩:=hfine
  obtain ⟨n,hlen,h⟩:=bind_eq_ok.mp h
  have hsize:=encodedLen_ok hlen
  have hroot : e.path ≠ "" := by
    intro hempty
    rw [hempty] at hpath
    exact hpath (by decide)
  have hs : e.session ≠ "" := fun hempty => hsession (by rw [hempty]; rfl)
  have ht : e.typeKey ≠ "" := fun hempty => htype (by rw [hempty]; rfl)
  obtain ⟨hsource1,hsource2⟩:=validateNode_ok hsource
  obtain ⟨hreceiver1,hreceiver2⟩:=validateNode_ok hreceiver
  have hwithin : Within fieldLimits e.fields :=
    ⟨hsource1,hsource2,by omega,size_pos hs,by omega,by omega,hreceiver1,hreceiver2,by omega,
      size_pos hroot,by omega,by omega,size_pos ht,by omega,by omega,trivial⟩
  refine ⟨hwithin,?_⟩
  dsimp only at h
  obtain ⟨htotal,h⟩:=Except.of_ite_left h
  cases htot : (checkedAdd n e.targetPath.utf8ByteSize).bind
      (checkedAdd · (durableKey.utf8ByteSize+Wire.bodyFixedOverhead)) with
  | none => exact absurd (by rw [htot]; rfl) htotal
  | some total =>
    rw [htot] at htotal
    obtain ⟨part,hpart,hwhole⟩:=Option.bind_eq_some_iff.mp htot
    have h1:=(checkedAdd_eq_some.mp hpart).1
    have h2:=(checkedAdd_eq_some.mp hwhole).1
    have h3 : ¬ total>Wire.maxFrameLen := fun hbig => htotal (decide_eq_true hbig)
    omega

theorem decode_encode (hseq : e.sequence≤u64Max) (h : e.encode=.ok bytes) : decode bytes=.ok e := by
  obtain ⟨hvalid,rfl⟩:=encode_ok.mp h
  obtain ⟨hwithin,hmax⟩:=validate_ok hvalid
  have hlen : 19≤(layout e.sequence e.fields e.payload).length := by
    simp only [layout,length_cons,length_append,Bincode.leBytes_length,lengths_length,fields,length_nil]
    omega
  have hfit : (layout e.sequence e.fields e.payload).length≤u64Max := hmax.trans (by decide)
  have hread : ofLeBytes (((layout e.sequence e.fields e.payload).drop 1).take 8)=e.sequence := by
    rw [layout,List.drop_succ_cons,List.drop_zero,take_left' (Bincode.leBytes_length 8 _)]
    exact Bincode.ofLeBytes_leBytes (by unfold u64Max at hseq; omega)
  have hlengths : (layout e.sequence e.fields e.payload).drop (9+0*2) =
      lengths e.fields++(texts e.fields++e.payload) := by
    rw [layout,Nat.zero_mul,List.drop_succ_cons,drop_left' (Bincode.leBytes_length 8 _)]
  have htexts : (layout e.sequence e.fields e.payload).drop 19=texts e.fields++e.payload := by
    have hten : (lengths e.fields).length=10 := lengths_length e.fields
    have hdrop:=congrArg (List.drop 10) hlengths
    rwa [drop_drop,drop_left' hten] at hdrop
  have hfields:=readFields_encoded hfit hwithin hlengths htexts
  have hpayload : (layout e.sequence e.fields e.payload).drop (19+(texts e.fields).length)=e.payload := by
    rw [← drop_drop,htexts,List.drop_left]
  unfold decode
  rw [if_neg (by
    intro hbad
    rcases hbad with hbad | hbad | hbad
    · omega
    · omega
    · exact hbad rfl)]
  rw [hfields]
  show (do
    DurableEnvelope.validate ⟨e.source,e.session,e.receiver,e.path,_,e.typeKey,_⟩
    Except.ok (⟨e.source,e.session,e.receiver,e.path,_,e.typeKey,_⟩ : DurableEnvelope))=Except.ok e
  rw [hread,hpayload]
  show (do e.validate; Except.ok e)=Except.ok e
  rw [hvalid]
  rfl

theorem decode_cases (h : decode bytes=.ok e) : e.encode=.ok bytes ∧ e.sequence≤u64Max := by
  unfold decode at h
  obtain ⟨hhead,h⟩:=Except.of_ite_left h
  simp only [not_or,not_not] at hhead
  obtain ⟨hmin,-,hversion⟩:=hhead
  obtain ⟨⟨values,cursor⟩,hfields,h⟩:=bind_eq_ok.mp h
  dsimp only at h
  split at h
  · rename_i source session receiver path typeKey stop heq
    cases heq
    obtain ⟨⟨⟩,hvalid,h⟩:=bind_eq_ok.mp h
    cases Except.ok.inj h
    obtain ⟨hlengths,htexts⟩:=readFields_ok hfields (by
      simp only [fieldLimits,length_cons,length_nil]
      omega)
    cases bytes with
    | nil => exact absurd hmin (by decide)
    | cons version rest =>
      obtain rfl : version=1 := hversion
      have height : (rest.take 8).length=8 := by
        rw [length_cons] at hmin
        rw [length_take]
        omega
      have hback:=Bincode.leBytes_ofLeBytes (rest.take 8)
      rw [height] at hback
      have hlt:=Bincode.ofLeBytes_lt (rest.take 8)
      rw [height] at hlt
      refine ⟨encode_ok.mpr ⟨hvalid,?_⟩,?_⟩
      · show 1::rest=1::(leBytes 8 (ofLeBytes (rest.take 8))++_)
        rw [hback]
        congr 1
        calc rest=rest.take 8++rest.drop 8 := (List.take_append_drop 8 rest).symm
          _ = rest.take 8++(lengths _++(1::rest).drop 19) := congrArg (rest.take 8++·) hlengths
          _ = _ := by rw [htexts]; rfl
      · show ofLeBytes (rest.take 8)≤u64Max
        unfold u64Max
        omega
  · contradiction

theorem encode_shared {e e' : DurableEnvelope} {bytes bytes' more : Bytes} (hseq : e.sequence≤u64Max)
    (hseq' : e'.sequence≤u64Max) (h : e.encode=.ok bytes) (h' : e'.encode=.ok bytes')
    (heq : bytes'++more=bytes) : e={e' with payload:=e'.payload++more} := by
  obtain ⟨hvalid,rfl⟩:=encode_ok.mp h
  obtain ⟨hvalid',rfl⟩:=encode_ok.mp h'
  simp only [layout,List.cons_append,append_assoc,List.cons.injEq,true_and] at heq
  obtain ⟨hsequence,heq⟩:=append_inj heq (by simp only [Bincode.leBytes_length])
  obtain ⟨hlengths,heq⟩:=append_inj heq (by simp only [lengths_length,fields,length_cons])
  obtain ⟨hfields,hpayload⟩:=fields_shared (validate_ok hvalid).1 (validate_ok hvalid').1 hlengths heq
  have hread:=congrArg ofLeBytes hsequence
  rw [Bincode.ofLeBytes_leBytes (by unfold u64Max at hseq'; omega),
    Bincode.ofLeBytes_leBytes (by unfold u64Max at hseq; omega)] at hread
  cases e
  cases e'
  cases hfields
  cases hread
  cases hpayload
  rfl

/-- What is appended to an encoding, or cut off its end, belongs to the payload: nothing
else reads as an envelope. -/
theorem envelope_codec :
    (∀ e bytes, e.sequence≤u64Max → encode e=.ok bytes → decode bytes=.ok e) ∧
    (∀ bytes e, decode bytes=.ok e → e.sequence≤u64Max ∧ encode e=.ok bytes) ∧
    (∀ e e' bytes, e.sequence≤u64Max → e'.sequence≤u64Max → encode e=.ok bytes → encode e'=.ok bytes →
      e=e') ∧
    (∀ e e' bytes more, e.sequence≤u64Max → encode e=.ok bytes → decode (bytes++more)=.ok e' →
      e'={e with payload:=e.payload++more}) ∧
    (∀ e e' bytes more, e.sequence≤u64Max → encode e=.ok (bytes++more) → decode bytes=.ok e' →
      e={e' with payload:=e'.payload++more}) := by
  refine ⟨fun e bytes hseq h => decode_encode hseq h,fun bytes e h => (decode_cases h).symm,?_,?_,?_⟩
  · intro e e' bytes hseq hseq' h h'
    have heq:=encode_shared hseq hseq' h h' (List.append_nil bytes)
    rwa [List.append_nil] at heq
  · intro e e' bytes more hseq h h'
    obtain ⟨henc,hseq'⟩:=decode_cases h'
    exact encode_shared hseq' hseq henc h rfl
  · intro e e' bytes more hseq h h'
    obtain ⟨henc,hseq'⟩:=decode_cases h'
    exact encode_shared hseq hseq' h henc rfl

def bare : DurableEnvelope := ⟨"a","s","b","/",1,"k",[]⟩

def bareBytes : Bytes := [1,1,0,0,0,0,0,0,0,1,0,1,0,1,0,1,0,1,0,97,115,98,47,107]

theorem bare_encode : bare.encode=.ok bareBytes := by decide +kernel

theorem bare_decode_more : decode (bareBytes++[0])=.ok {bare with payload:=[0]} := by decide +kernel

theorem envelope_codec_bare :
    bare.encode=.ok bareBytes ∧ decode bareBytes=.ok bare ∧ bare.sequence≤u64Max ∧
    decode (bareBytes++[0])=.ok {bare with payload:=[0]} ∧
    ({bare with payload:=[0]} : DurableEnvelope)={bare with payload:=bare.payload++[0]} ∧
    (decode (bareBytes.take 23)).toOption=none :=
  have hbare:=envelope_codec.1 bare bareBytes (by decide) bare_encode
  ⟨bare_encode,hbare,(envelope_codec.2.1 bareBytes bare hbare).1,bare_decode_more,
    envelope_codec.2.2.2.1 bare _ bareBytes [0] (by decide) bare_encode bare_decode_more,by decide +kernel⟩

/-- The payload has no length of its own: with one more byte the input is the envelope of a
longer payload, and without its last byte that of a shorter one. -/
theorem trailing_byte_accepted :
    ¬ (∀ e bytes more, e.sequence≤u64Max → encode e=.ok bytes → more≠[] → ∀ e', decode (bytes++more) ≠ .ok e') ∧
    ¬ (∀ e bytes n, e.sequence≤u64Max → encode e=.ok bytes → n<bytes.length →
      ∀ e', decode (bytes.take n) ≠ .ok e') := by
  have hlonger : encode {bare with payload:=[0]}=.ok (bareBytes++[0]) := (decode_cases bare_decode_more).1
  have hcut : decode ((bareBytes++[0]).take 24)=.ok bare := decode_encode (by decide) bare_encode
  exact ⟨fun h => h bare bareBytes [0] (by decide) bare_encode (by decide) _ bare_decode_more,
    fun h => h _ _ 24 (by decide) hlonger (by decide) _ hcut⟩

end DurableEnvelope
end Parrot.Inbox
