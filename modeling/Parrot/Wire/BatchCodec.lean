import Parrot.Wire.Batch

/-! # Batches come back as they were packed

Every list that packs is read back member by member, except one of mirrored frames:
the sender's checks let `MIRROR_SHADOW` through and the receiver's refuse it inside a
batch. -/

namespace Parrot.Wire
open List (length_append drop_drop drop_left' map_cons flatten_cons mem_cons_self)
open Machine
open Bincode (Bytes leBytes ofLeBytes utf8)
open Wal (TraceParent)

namespace Flags

variable {x m : UInt16}

theorem or_and (x y m : UInt16) : (x ||| y) &&& m=(x &&& m) ||| (y &&& m) :=
  UInt16.toBitVec_inj.mp BitVec.and_or_distrib_right

theorem or_batch_and (h : batch &&& m=0) : (x ||| batch) &&& m=x &&& m := by
  rw [or_and,h,UInt16.or_zero]

theorem or_batch_batch : (x ||| batch) &&& batch≠0 := by
  rw [or_and,UInt16.and_self]
  intro h
  exact absurd (UInt16.or_eq_zero_iff.mp h).2 (by decide)

section
variable (h : x &&& (batch ||| urgent)=0)
include h

theorem and_batch_eq_zero : x &&& batch=0 := by
  have hmask : batch=(batch ||| urgent) &&& batch := by decide
  rw [hmask,← UInt16.and_assoc,h,UInt16.zero_and]

theorem clear_batch : (x ||| batch) &&& ~~~batch=x := by
  have hx:=and_batch_eq_zero h
  have hself : batch &&& ~~~batch=0 := UInt16.and_not_self
  rw [or_batch_and hself]
  calc x &&& ~~~batch
    _ = (x &&& ~~~batch) ||| (x &&& batch) := by rw [hx,UInt16.or_zero]
    _ = (~~~batch ||| batch) &&& x := by rw [or_and,UInt16.and_comm x,UInt16.and_comm x]
    _ = x := by rw [UInt16.not_or_self,UInt16.neg_one_and]

theorem or_batch_both : (x ||| batch) &&& (batch ||| urgent)=batch := by
  rw [or_and,h,UInt16.zero_or]
  decide

end

end Flags

namespace Frame

variable {first f b : Frame} {frames : List Frame} {s s' : Sums} {total : ℕ}

theorem splitTraceParent_ok {r : Option TraceParent × Bytes} (h : f.splitTraceParent=.ok r)
    (htrace : f.header.flags &&& Flags.traceContext≠0) : ∃ parent, decodeTraceParent f.payload=.ok parent := by
  unfold splitTraceParent at h
  rw [if_neg htrace] at h
  obtain ⟨-,h⟩:=Except.of_ite_left h
  obtain ⟨parent,hparent,-⟩:=bind_eq_ok.mp h
  exact ⟨parent,hparent⟩

theorem validatePayloadFlags_ok (h : f.validatePayloadFlags=.ok ()) : ¬f.Unsupported ∧
    (f.header.flags &&& Flags.traceContext≠0 → f.header.flags &&& Flags.batch=0 →
      ∃ parent, decodeTraceParent f.payload=.ok parent) := by
  unfold validatePayloadFlags at h
  obtain ⟨hsupported,h⟩:=Except.of_ite_left h
  refine ⟨hsupported,?_⟩
  intro htrace hbatch
  rw [if_pos ⟨htrace,hbatch⟩] at h
  obtain ⟨r,hr,-⟩:=bind_eq_ok.mp h
  exact splitTraceParent_ok hr htrace

structure Member (first f : Frame) : Prop where
  batchable : Batchable first f
  supported : ¬f.Unsupported
  cid : f.header.flags &&& Flags.tellAck≠0 → f.header.correlationId≠0
  trace : f.header.flags &&& Flags.traceContext≠0 → ∃ parent, decodeTraceParent f.payload=.ok parent

theorem addMember_ok (h : addMember first total s f=.ok s') : Member first f ∧
    s'.encoded=s.encoded+12+f.payload.length ∧
    batchExpandedSize s.expanded f.path.utf8ByteSize f.typeKey.utf8ByteSize f.payload.length=.ok s'.expanded ∧
    s'.hopCount=max s.hopCount f.header.hopCount ∧ s'.hopLimit=min s.hopLimit f.header.hopLimit := by
  unfold addMember at h
  obtain ⟨u,hflags,h⟩:=bind_eq_ok.mp h
  obtain ⟨hsupported,htrace⟩:=validatePayloadFlags_ok hflags
  obtain ⟨hb,h⟩:=Except.of_ite_left h
  have hb:=not_not.mp hb
  have hbatch : f.header.flags &&& Flags.batch=0 := Flags.and_batch_eq_zero hb.2.2.2.2.2.1
  split at h
  · contradiction
  · rename_i encoded hencoded
    obtain ⟨n,hn,hencoded⟩:=Option.bind_eq_some_iff.mp hencoded
    obtain ⟨rfl,-⟩:=checkedAdd_eq_some.mp hn
    obtain ⟨rfl,-⟩:=checkedAdd_eq_some.mp hencoded
    obtain ⟨expanded,hexpanded,h⟩:=bind_eq_ok.mp h
    cases h
    refine ⟨⟨hb,hsupported,?_,fun ht => htrace ht hbatch⟩,rfl,hexpanded,rfl,rfl⟩
    intro hack hcid
    apply hsupported
    exact .inr (.inr (.inr (.inr (.inl ⟨hack,.inr (.inr ⟨hbatch,hcid⟩)⟩))))

theorem item_length : f.item.length=12+f.payload.length := by
  simp only [item,length_append,Bincode.leBytes_length]
  omega

structure ItemAt (p : Bytes) (position : ℕ) (f : Frame) (rest : Bytes) : Prop where
  cid : p.drop position=leBytes 8 f.header.correlationId.toNat++(leBytes 4 f.payload.length++(f.payload++rest))
  size : p.drop (position+8)=leBytes 4 f.payload.length++(f.payload++rest)
  payload : p.drop (position+12)=f.payload++rest
  next : p.drop (position+12+f.payload.length)=rest
  length : p.length=position+12+f.payload.length+rest.length

variable {position : ℕ}

theorem itemAt {p rest : Bytes} (h : p.drop position=f.item++rest) : ItemAt p position f rest := by
  have hcid : p.drop position =
      leBytes 8 f.header.correlationId.toNat++(leBytes 4 f.payload.length++(f.payload++rest)) := by
    rw [h,item,List.append_assoc,List.append_assoc]
  have hsize : p.drop (position+8)=leBytes 4 f.payload.length++(f.payload++rest) := by
    rw [← drop_drop,hcid,drop_left' (Bincode.leBytes_length ..)]
  have hpayload : p.drop (position+12)=f.payload++rest := by
    rw [show position+12=position+8+4 from rfl,← drop_drop,hsize,drop_left' (Bincode.leBytes_length ..)]
  refine ⟨hcid,hsize,hpayload,?_,?_⟩
  · rw [← drop_drop,hpayload,List.drop_left]
  · have hlen:=congrArg List.length h
    rw [List.length_drop,length_append,item_length] at hlen
    omega

theorem ItemAt.readCid {p rest : Bytes} (h : ItemAt p position f rest) :
    readLe p position 8=f.header.correlationId.toNat := by
  rw [readLe_of_drop h.cid (Bincode.leBytes_length ..),Bincode.ofLeBytes_leBytes f.header.correlationId.toNat_lt]

theorem ItemAt.readSize {p rest : Bytes} (h : ItemAt p position f rest)
    (hsize : f.payload.length<256^4) : readLe p (position+8) 4=f.payload.length := by
  rw [readLe_of_drop h.size (Bincode.leBytes_length ..),Bincode.ofLeBytes_leBytes hsize]

structure Carries (first b : Frame) : Prop where
  version : b.header.version=protocolVersion
  frameType : b.header.frameType=first.header.frameType
  flags : b.header.flags=first.header.flags ||| Flags.batch
  seq : b.header.seq=seqNone
  path : b.path=first.path
  typeKey : b.typeKey=first.typeKey

theorem walkMembers_items (hb : Carries first b) (hp : b.payload.drop position=(frames.map item).flatten)
    (hsize : ∀ f∈frames, f.payload.length<256^4) (h : frames.foldlM (addMember first total) s=.ok s')
    (hpos : position≤b.payload.length) : b.walkMembers frames.length position s.expanded=.ok b.payload.length := by
  induction frames generalizing position s with
  | nil =>
    have hlen:=congrArg List.length hp
    rw [List.length_drop,List.map_nil,List.flatten_nil,List.length_nil] at hlen
    rw [List.length_nil,walkMembers,show position=b.payload.length by omega]
  | cons f frames ih =>
    rw [List.foldlM_cons] at h
    obtain ⟨s1,hf,h⟩:=bind_eq_ok.mp h
    obtain ⟨hm,-,hexpanded,-⟩:=addMember_ok hf
    rw [map_cons,flatten_cons] at hp
    have hat:=itemAt hp
    have hread:=hat.readSize (hsize f (mem_cons_self ..))
    have hlen:=hat.length
    have hcid : ¬(b.header.flags &&& Flags.tellAck≠0 ∧ readLe b.payload position 8=0) := by
      rw [hat.readCid,hb.flags,Flags.or_batch_and (by decide),← hm.batchable.2.2.2.2.1]
      rintro ⟨hack,hzero⟩
      exact hm.cid hack (UInt64.toNat_inj.mp hzero)
    have hpayload : (b.payload.drop (position+12)).take f.payload.length=f.payload := by
      rw [hat.payload,List.take_left]
    have hnext:=ih hat.next (fun g hg => hsize g (List.mem_cons_of_mem _ hg)) h (by omega)
    have hkey : batchExpandedSize s.expanded b.path.utf8ByteSize b.typeKey.utf8ByteSize f.payload.length =
        .ok s1.expanded := by
      rw [hb.path,hb.typeKey,← hm.batchable.2.2.1,← hm.batchable.2.2.2.1]
      exact hexpanded
    rw [List.length_cons,walkMembers,if_neg (by omega),if_neg hcid,hread]
    dsimp only
    rw [if_neg (by omega),hpayload,hkey]
    split
    · rename_i htrace
      rw [hb.flags,Flags.or_batch_and (by decide),← hm.batchable.2.2.2.2.1] at htrace
      obtain ⟨parent,hparent⟩:=hm.trace htrace
      rw [hparent]
      exact hnext
    · exact hnext

/-- The member a batch gives back: its own message under the batch's hops. -/
def normalise (hopCount hopLimit : UInt8) (f : Frame) : Frame :=
  {f with header := {f.header with frameLen:=0,hopCount:=hopCount,hopLimit:=hopLimit}}

theorem next_item (hb : Carries first b) (hm : Batchable first f) {position remaining : ℕ} {rest : Bytes}
    (hat : ItemAt b.payload position f rest) (hsize : f.payload.length<256^4) :
    BatchFrames.next ⟨b,position,remaining+1⟩ =
      .ok (some (normalise b.header.hopCount b.header.hopLimit f,⟨b,position+12+f.payload.length,remaining⟩)) := by
  have hlen:=hat.length
  obtain ⟨-,hft,hpath,hkey,hflags,hclear,hversion,hseq⟩:=hm
  have hslice {a k : ℕ} {x y : Bytes} (hd : b.payload.drop a=x++y) (hx : x.length=k)
      (ha : a+k≤b.payload.length) : slice b.payload a (a+k)=.ok x := by
    rw [slice_ok (by omega) ha,List.drop_take,hd,Nat.add_sub_cancel_left,List.take_left' hx]
  have hsizeOf : ofLeBytes (leBytes 4 f.payload.length)=f.payload.length := Bincode.ofLeBytes_leBytes hsize
  have hcidOf : ofLeBytes (leBytes 8 f.header.correlationId.toNat)=f.header.correlationId.toNat :=
    Bincode.ofLeBytes_leBytes f.header.correlationId.toNat_lt
  have hlenSlice:=hslice hat.size (Bincode.leBytes_length ..) (by omega)
  rw [Nat.add_assoc] at hlenSlice
  unfold BatchFrames.next
  rw [if_neg (Nat.succ_ne_zero _)]
  dsimp only
  rw [hslice hat.cid (Bincode.leBytes_length ..) (by omega),hlenSlice]
  dsimp only [bind,Except.bind]
  rw [hsizeOf,hslice hat.payload rfl (by omega),hcidOf,UInt64.ofNat_toNat,hb.flags,← hflags,
    Flags.clear_batch hclear,hb.path,← hpath,hb.typeKey,← hkey,hb.version,hb.frameType,← hft,hb.seq,
    ← hversion,← hseq]
  rfl

theorem collect_items (hb : Carries first b) (hp : b.payload.drop position=(frames.map item).flatten)
    (hsize : ∀ f∈frames, f.payload.length<256^4) (hm : ∀ f∈frames, Batchable first f) : BatchFrames.collect
    ⟨b,position,frames.length⟩ = .ok (frames.map (normalise b.header.hopCount b.header.hopLimit)) := by
  unfold BatchFrames.collect
  induction frames generalizing position with
  | nil => rfl
  | cons f frames ih =>
    rw [map_cons,flatten_cons] at hp
    have hat:=itemAt hp
    have hf:=@next_item _ _ _ hb (hm f (mem_cons_self ..)) _ frames.length _ hat
      (hsize f (mem_cons_self ..))
    have hrest:=ih hat.next (fun g hg => hsize g (List.mem_cons_of_mem _ hg))
      fun g hg => hm g (List.mem_cons_of_mem _ hg)
    dsimp only at hrest
    rw [List.length_cons,BatchFrames.collect.go,hf]
    dsimp only [bind,Except.bind]
    rw [hrest]
    rfl

def maxHopCount (frames : List Frame) : UInt8 := frames.foldl (fun n f => max n f.header.hopCount) 0
def minHopLimit (frames : List Frame) : UInt8 := frames.foldl (fun n f => min n f.header.hopLimit) 255

theorem addMembers_ok (h : frames.foldlM (addMember first total) s=.ok s') :
    (∀ f∈frames, Member first f) ∧ s'.encoded=s.encoded+(frames.map item).flatten.length ∧
    s'.hopCount=frames.foldl (fun n f => max n f.header.hopCount) s.hopCount ∧
    s'.hopLimit=frames.foldl (fun n f => min n f.header.hopLimit) s.hopLimit := by
  induction frames generalizing s with
  | nil =>
    cases h
    exact ⟨fun f hf => absurd hf List.not_mem_nil,rfl,rfl,rfl⟩
  | cons f frames ih =>
    rw [List.foldlM_cons] at h
    obtain ⟨s1,hf,h⟩:=bind_eq_ok.mp h
    obtain ⟨hm,hencoded,-,hcount,hlimit⟩:=addMember_ok hf
    obtain ⟨hms,hencoded',hcount',hlimit'⟩:=ih h
    refine ⟨?_,?_,?_,?_⟩
    · intro g hg
      rcases List.mem_cons.mp hg with rfl | hg
      · exact hm
      · exact hms g hg
    · rw [hencoded',hencoded,map_cons,flatten_cons,length_append,item_length]
      omega
    · rw [hcount',hcount,List.foldl_cons]
    · rw [hlimit',hlimit,List.foldl_cons]

structure Packed (frames : List Frame) (first b : Frame) : Prop where
  mem : first∈frames
  members : ∀ f∈frames, Member first f
  count : frames.length ≤ maxBatchItems
  carries : Carries first b
  hopCount : b.header.hopCount=maxHopCount frames
  hopLimit : b.header.hopLimit=minHopLimit frames
  hop : b.header.hopCount<b.header.hopLimit
  payload : b.payload=leBytes 8 frames.length++(frames.map item).flatten
  bodyLen : b.bodyLen ≤ maxFrameLen
  walks : ∃ s, frames.foldlM (addMember first frames.length) ⟨8,0,0,255⟩=.ok s

theorem batch_packed (h : batch frames=.ok b) : ∃ first, Packed frames first b := by
  unfold batch at h
  split at h
  · contradiction
  · rename_i first rest
    obtain ⟨hcount,h⟩:=Except.of_ite_left h
    obtain ⟨s,hs,h⟩:=bind_eq_ok.mp h
    obtain ⟨hms,hencoded,hhops,hlimits⟩:=addMembers_ok hs
    obtain ⟨hhop,h⟩:=Except.of_ite_left h
    split at h
    · contradiction
    · rename_i body hbody
      obtain ⟨n2,hn2,hbody⟩:=Option.bind_eq_some_iff.mp hbody
      obtain ⟨n1,hn1,hn2⟩:=Option.bind_eq_some_iff.mp hn2
      obtain ⟨rfl,-⟩:=checkedAdd_eq_some.mp hn1
      obtain ⟨rfl,-⟩:=checkedAdd_eq_some.mp hn2
      obtain ⟨rfl,-⟩:=checkedAdd_eq_some.mp hbody
      obtain ⟨hmax,h⟩:=Except.of_ite_left h
      cases h
      have hfirst : first∈first::rest := mem_cons_self ..
      obtain ⟨-,-,-,-,-,-,hversion,hseq⟩:=(hms first hfirst).batchable
      refine ⟨first,hfirst,hms,by omega,⟨hversion,rfl,rfl,hseq,rfl,rfl⟩,hhops,hlimits,UInt8.not_le.mp hhop,
        rfl,?_,s,hs⟩
      dsimp only at hencoded
      simp only [bodyLen,length_append,Bincode.leBytes_length]
      omega

section
variable (h : Packed frames first b)
include h

theorem Packed.payload_lt : ∀ f∈frames, f.payload.length<256^4 := by
  intro f hf
  have hle : f.item.length≤(frames.map item).flatten.length :=
    (List.sublist_flatten_of_mem (List.mem_map_of_mem hf)).length_le
  have hbody:=h.bodyLen
  rw [Frame.bodyLen,h.payload,length_append,Bincode.leBytes_length] at hbody
  rw [item_length] at hle
  unfold maxFrameLen at hbody
  omega

section
variable (hmirror : first.header.flags &&& Flags.mirrorShadow=0)
include hmirror

theorem Packed.supported : ¬b.Unsupported := by
  have hm:=h.members first h.mem
  have hc:=h.carries
  obtain ⟨htype,-,-,-,-,hclear,-,-⟩:=hm.batchable
  have hold:=hm.supported
  unfold Unsupported at hold ⊢
  simp only [not_or] at hold ⊢
  obtain ⟨hdurable,hflags,-,htrace,hack,-,-⟩:=hold
  rw [hc.flags,hc.typeKey,hc.frameType,hc.seq,Flags.or_batch_and (m := Flags.tellAck) (by decide),
    Flags.or_batch_and (m := ~~~Flags.supported) (by decide),
    Flags.or_batch_and (m := Flags.mirrorShadow) (by decide),
    Flags.or_batch_and (m := Flags.traceContext) (by decide),Flags.or_batch_both hclear]
  refine ⟨hdurable,hflags,?_,htrace,?_,by decide,?_⟩
  · rintro ⟨hset,-⟩
    exact hset hmirror
  · rintro ⟨hset,hbad | hbad | hbad⟩
    · exact hack ⟨hset,.inl hbad⟩
    · exact hbad rfl
    · exact Flags.or_batch_batch hbad.1
  · rintro ⟨-,hask,htell,hreply⟩
    rcases htype with ht | ht | ht
    · exact hask ht
    · exact htell ht
    · exact hreply ht

theorem Packed.validates : b.validatePayloadFlags=.ok () := by
  have hbatch : b.header.flags &&& Flags.batch≠0 := by
    rw [h.carries.flags]
    exact Flags.or_batch_batch
  have hno : ¬b.header.flags &&& Flags.mirrorShadow≠0 := by
    rw [h.carries.flags,Flags.or_batch_and (by decide)]
    exact not_not_intro hmirror
  unfold validatePayloadFlags
  rw [if_neg (h.supported hmirror),if_neg (fun hc => hbatch hc.2),if_neg hno]
  rfl

theorem Packed.batchFrames_ok : b.batchFrames=.ok ⟨b,8,frames.length⟩ := by
  have hcount:=h.count
  have hpos : 0<frames.length := List.length_pos_of_mem h.mem
  have hdrop : b.payload.drop 8=(frames.map item).flatten := by
    rw [h.payload,drop_left' (Bincode.leBytes_length ..)]
  have hlen : 8≤b.payload.length := by
    rw [h.payload,length_append,Bincode.leBytes_length]
    omega
  have hread : readLe b.payload 0 8=frames.length := by
    unfold maxBatchItems at hcount
    rw [readLe_of_drop (k := 0) h.payload (Bincode.leBytes_length ..),Bincode.ofLeBytes_leBytes (by omega)]
  obtain ⟨s,hs⟩:=h.walks
  have hwalk:=walkMembers_items h.carries hdrop h.payload_lt hs hlen
  have hheader : ¬(b.header.flags &&& Flags.batch=0 ∨ b.header.version≠protocolVersion ∨ b.header.seq≠seqNone) := by
    rw [h.carries.flags,h.carries.version,h.carries.seq]
    rintro (hbad | hbad | hbad)
    · exact Flags.or_batch_batch hbad
    · exact hbad rfl
    · exact hbad rfl
  unfold batchFrames
  rw [h.validates hmirror]
  dsimp only [bind,Except.bind]
  rw [if_neg hheader,if_neg (UInt8.not_le.mpr h.hop),if_neg (by omega),hread,if_neg (by omega),if_neg (by omega),hwalk]
  dsimp only
  rw [if_neg (not_not_intro rfl)]
  rfl

end

theorem Packed.routable : Routable b := by
  refine ⟨?_,h.hop⟩
  rw [h.carries.frameType]
  obtain ⟨htype,-⟩:=(h.members first h.mem).batchable
  rcases htype with ht | ht | ht
  · rw [ht]; decide
  · rw [ht]; decide
  · rw [ht]; decide

theorem Packed.wire (tail : Bytes) : b.encode=.ok b.bytes ∧ decode (b.bytes++tail)=(.ok (some b.filled),tail) :=
  ⟨Codec.encode_frame.mpr ⟨h.bodyLen,h.carries.version,rfl⟩,
    decodeWithLimit_bytes h.routable h.carries.version (by rw [min_self]; exact h.bodyLen) tail⟩

end

structure RoundTrips (frames : List Frame) (b : Frame) : Prop where
  flags : b.validatePayloadFlags=.ok ()
  members : ∃ it, b.batchFrames=.ok it ∧
    it.collect=.ok (frames.map (normalise (maxHopCount frames) (minHopLimit frames)))
  iter : b.iterBatch=.ok (.ok (frames.map (normalise (maxHopCount frames) (minHopLimit frames))))
  wire : ∃ bytes, b.encode=.ok bytes ∧ ∀ tail, decode (bytes++tail)=(.ok (some b.filled),tail)

theorem batch_round_trip {frames : List Frame} {b : Frame} (h : batch frames=.ok b) :
    RoundTrips frames b ↔ ∀ f∈frames, f.header.flags &&& Flags.mirrorShadow=0 := by
  obtain ⟨first,hp⟩:=batch_packed h
  constructor
  · intro hr f hf
    by_contra hmirror
    have hsame:=(hp.members f hf).batchable.2.2.2.2.1
    apply (validatePayloadFlags_ok hr.flags).1
    refine .inr (.inr (.inl ⟨?_,.inr (.inr (.inl ?_))⟩))
    · rw [hp.carries.flags,Flags.or_batch_and (by decide),← hsame]
      exact hmirror
    · rw [hp.carries.flags,Flags.or_batch_both (hp.members first hp.mem).batchable.2.2.2.2.2.1]
      decide
  · intro hno
    have hmirror:=hno first hp.mem
    have hdrop : b.payload.drop 8=(frames.map item).flatten := by
      rw [hp.payload,drop_left' (Bincode.leBytes_length ..)]
    have hcollect:=collect_items hp.carries hdrop hp.payload_lt fun f hf => (hp.members f hf).batchable
    rw [hp.hopCount,hp.hopLimit] at hcollect
    have hframes:=hp.batchFrames_ok hmirror
    refine ⟨hp.validates hmirror,⟨_,hframes,hcollect⟩,?_,b.bytes,(hp.wire []).1,fun tail => (hp.wire tail).2⟩
    unfold iterBatch
    rw [hframes]
    dsimp only [bind,Except.bind]
    rw [hcollect]
    rfl

def ackedTell (cid : UInt64) (payload : Bytes) : Frame :=
  ⟨⟨0,protocolVersion,FrameType.tell,Flags.tellAck,cid,0,8,0⟩,"a","k",payload⟩

/-- The same message as a shadow, with a budget of one millisecond. -/
def mirroredTell : Frame :=
  ⟨⟨0,protocolVersion,FrameType.tell,Flags.tellAck ||| Flags.mirrorShadow,1,0,8,0⟩,"a","k",[1,0,0,0]⟩

theorem batch_round_trip_two : ∃ b, batch [ackedTell 1 [7],ackedTell 2 []]=.ok b ∧
    RoundTrips [ackedTell 1 [7],ackedTell 2 []] b := by
  have hok : (batch [ackedTell 1 [7],ackedTell 2 []]).isOk=true := by decide
  cases hb : batch [ackedTell 1 [7],ackedTell 2 []] with
  | error e =>
    rw [hb] at hok
    contradiction
  | ok b => exact ⟨b,rfl,(batch_round_trip hb).mpr (by decide)⟩

def mirroredBatch : Frame :=
  ⟨⟨0,protocolVersion,FrameType.tell,Flags.tellAck ||| Flags.mirrorShadow ||| Flags.batch,0,0,8,0⟩,"a","k",
    [1,0,0,0,0,0,0,0,1,0,0,0,0,0,0,0,4,0,0,0,1,0,0,0]⟩

/- The shadow packs, and the receiver refuses the batch. -/
theorem batch_round_trip_mirrored : batch [mirroredTell]=.ok mirroredBatch ∧ mirroredBatch.validatePayloadFlags=.error
    (.unsupportedFlags mirroredBatch.header.flags) ∧ mirroredBatch.iterBatch=.error
    (.unsupportedFlags mirroredBatch.header.flags) ∧ ¬RoundTrips [mirroredTell] mirroredBatch := by
  have hflags : mirroredBatch.validatePayloadFlags=.error (.unsupportedFlags mirroredBatch.header.flags) := by
    decide
  refine ⟨by decide,hflags,by rfl,?_⟩
  intro h
  have:=h.flags
  rw [hflags] at this
  contradiction

end Frame
end Parrot.Wire
