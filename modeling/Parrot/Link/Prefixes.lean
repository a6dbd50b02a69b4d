import Parrot.Link.Sender
import Parrot.Wire.BatchCodec

/-! # The prefixes of an ASK (`frame.rs:193-216`, `frame.rs:376-426`, `frame.rs:832-881`)

An ASK carries the address for its answer in front of its payload, and the trace parent, where
there is one, in front of both. -/

namespace Parrot.Link
open List (drop_take take_left' length_append append_assoc drop_left' cons_append)
open Machine Parrot.Wire
open Bincode (Bytes leBytes ofLeBytes utf8)
open Wal (TraceParent)
open Parrot.Wire.Frame (readString)

/- `rb.len() as u32` -/
def replyToPrefix : Option String → Bytes
  | some r => leBytes 4 (r.utf8ByteSize%2^32)++utf8 r
  | none => leBytes 4 0

def ask (cid : UInt64) (path typeKey : String) (payload : Bytes) (replyTo : Option String) : Frame :=
  ⟨newHeader FrameType.ask cid,path,typeKey,replyToPrefix replyTo++payload⟩

inductive Fault where
  | panic (p : Panic)
  | refused (e : FrameError)
  deriving DecidableEq

variable {α : Type}

def reads (x : Except Panic α) : Except Fault α := x.mapError .panic
def refuse (x : Except FrameError α) : Except Fault α := x.mapError .refused

def decodeTraceParent (b : Bytes) : Except Fault TraceParent :=
  if b.length<traceContextBytes then .error (.refused .invalidTraceContext)
  else do
    let version ← reads (index b 0)
    if version≠1 then .error (.refused .invalidTraceContext)
    else do
      let traceId ← reads (slice b 1 17)
      let spanId ← reads (slice b 17 25)
      match TraceParent.new traceId spanId with
      | .ok parent => .ok parent
      | .error _ => .error (.refused .invalidTraceContext)

def splitTraceParent (f : Frame) : Except Fault (Option TraceParent × Bytes) :=
  if f.header.flags &&& Flags.traceContext=0 then .ok (none,f.payload)
  else if f.header.flags &&& Flags.batch≠0 ∨
      ¬(f.header.frameType=FrameType.ask ∨ f.header.frameType=FrameType.tell) then
    .error (.refused .invalidTraceContext)
  else do
    let parent ← decodeTraceParent f.payload
    let payload ← reads (slice f.payload traceContextBytes f.payload.length)
    .ok (some parent,payload)

def replyToLength (payload : Bytes) : Except Fault ℕ := do
  let b0 ← reads (index payload 0)
  let b1 ← reads (index payload 1)
  let b2 ← reads (index payload 2)
  let b3 ← reads (index payload 3)
  .ok (ofLeBytes [b0,b1,b2,b3])

def replyToParts (payload : Bytes) (frameLen : UInt32) : Except Fault (Option String × ℕ) :=
  if payload.length<4 then .error (.refused (.malformedLengths frameLen.toNat 0 0))
  else do
    let rlen ← replyToLength payload
    let room ← reads (sub payload.length 4)
    if rlen>room then .error (.refused (.malformedLengths frameLen.toNat rlen 0))
    else if rlen=0 then .ok (none,4+rlen)
    else do
      let b ← reads (slice payload 4 (4+rlen))
      let replyTo ← refuse (readString "reply_to" b)
      .ok (some replyTo,4+rlen)

def splitReplyTo (f : Frame) : Except Fault (Option String × Bytes) := do
  let (_,payload) ← splitTraceParent f
  let (replyTo,offset) ← replyToParts payload f.header.frameLen
  let business ← reads (slice payload offset payload.length)
  .ok (replyTo,business)

def borrowedAskPayload (f : Frame) : Except Fault Bytes := do
  let (parent,_) ← splitTraceParent f
  let start:=if parent.isSome then traceContextBytes else 0
  let payload ← reads (slice f.payload start f.payload.length)
  let (_,offset) ← replyToParts payload f.header.frameLen
  reads (slice payload offset payload.length)

@[simp] theorem reads_ok (a : α) : reads (.ok a)=.ok a := rfl
@[simp] theorem refuse_ok (a : α) : refuse (.ok a)=.ok a := rfl
@[simp] theorem refuse_error (e : FrameError) : (refuse (.error e) : Except Fault α)=.error (.refused e) := rfl

theorem index_lt {l : List α} {i : ℕ} (h : i<l.length) : index l i=.ok (l.get ⟨i,h⟩) :=
  index_ok (List.getElem?_eq_getElem h)

theorem slice_to_end {l : List α} {i : ℕ} (h : i≤l.length) : slice l i l.length=.ok (l.drop i) := by
  rw [slice_ok h le_rfl,List.take_length]

variable {f g : Frame} {b payload : Bytes} {parent : TraceParent} {n : UInt32} {replyTo : Option String}

theorem decodeTraceParent_eq (b : Bytes) : decodeTraceParent b=refuse (Wire.decodeTraceParent b) := by
  unfold decodeTraceParent Wire.decodeTraceParent
  by_cases hlen : b.length<traceContextBytes
  · simp [hlen]
  · have h25 : 25≤b.length := not_lt.mp hlen
    have h0 : 0<b.length := by omega
    have hget : b.getD 0 0=b.get ⟨0,h0⟩ := by simp [List.getD_eq_getElem?_getD,List.getElem?_eq_getElem h0]
    have htrace : slice b 1 17=.ok ((b.drop 1).take 16) := by rw [slice_ok (by omega) (by omega),drop_take]
    have hspan : slice b 17 25=.ok ((b.drop 17).take 8) := by rw [slice_ok (by omega) h25,drop_take]
    rw [if_neg hlen,index_lt h0,hget]
    by_cases hone : b.get ⟨0,h0⟩=1
    · rw [if_neg (show ¬(b.length<traceContextBytes ∨ b.get ⟨0,h0⟩≠1) by simp only [hlen,hone]; simp)]
      simp only [bind,Except.bind,reads_ok,hone,htrace,hspan]
      cases hnew : TraceParent.new ((b.drop 1).take 16) ((b.drop 17).take 8) with
      | ok | error => simp
    · rw [if_pos (show b.length<traceContextBytes ∨ b.get ⟨0,h0⟩≠1 from .inr hone)]
      simp only [bind,Except.bind,reads_ok]
      rw [if_pos hone]
      rfl

theorem decodeTraceParent_length {b : Bytes} (h : Wire.decodeTraceParent b=.ok parent) : traceContextBytes≤b.length := by
  unfold Wire.decodeTraceParent at h
  split at h
  · contradiction
  · rename_i hlen
    exact not_lt.mp fun hlt => hlen (.inl hlt)

theorem splitTraceParent_eq (f : Frame) : splitTraceParent f=refuse f.splitTraceParent := by
  unfold splitTraceParent Frame.splitTraceParent
  split
  · simp
  · split
    · simp
    · rw [decodeTraceParent_eq]
      cases hparent : Wire.decodeTraceParent f.payload with
      | error e => simp [bind,Except.bind]
      | ok parent =>
        simp only [bind,Except.bind,refuse_ok,slice_to_end (decodeTraceParent_length hparent),reads_ok]
        rfl

theorem splitTraceParent_start {trace : Option TraceParent} (h : f.splitTraceParent=.ok (trace,payload)) :
    (if trace.isSome then traceContextBytes else 0)≤f.payload.length ∧
      payload=f.payload.drop (if trace.isSome then traceContextBytes else 0) := by
  unfold Frame.splitTraceParent at h
  split at h
  · cases h
    simp
  · split at h
    · contradiction
    · obtain ⟨parent,hparent,h⟩:=bind_eq_ok.mp h
      cases h
      exact ⟨decodeTraceParent_length hparent,rfl⟩

theorem replyToLength_four (h : 4≤b.length) : replyToLength b=.ok (ofLeBytes (b.take 4)) := by
  obtain ⟨x,y,hx,rfl⟩:=Frame.exists_split h
  obtain ⟨b0,b1,b2,b3,rfl⟩:=List.length_eq_four.mp hx
  simp [replyToLength,index,bind,Except.bind]

theorem replyToParts_eq (payload : Bytes) (n : UInt32) : replyToParts payload n =
    if payload.length<4 then .error (.refused (.malformedLengths n.toNat 0 0))
    else if ofLeBytes (payload.take 4)>payload.length-4 then
      .error (.refused (.malformedLengths n.toNat (ofLeBytes (payload.take 4)) 0))
    else if ofLeBytes (payload.take 4)=0 then .ok (none,4)
    else (refuse (readString "reply_to" ((payload.drop 4).take (ofLeBytes (payload.take 4))))).map
      fun r => (some r,4+ofLeBytes (payload.take 4)) := by
  unfold replyToParts
  by_cases hlen : payload.length<4
  · rw [if_pos hlen,if_pos hlen]
  · have hfour : 4≤payload.length := not_lt.mp hlen
    rw [if_neg hlen,if_neg hlen,replyToLength_four hfour,sub_ok hfour]
    simp only [bind,Except.bind,reads_ok]
    by_cases hroom : ofLeBytes (payload.take 4)>payload.length-4
    · rw [if_pos hroom,if_pos hroom]
    · rw [if_neg hroom,if_neg hroom]
      by_cases hzero : ofLeBytes (payload.take 4)=0
      · rw [if_pos hzero,if_pos hzero,hzero]
      · rw [if_neg hzero,if_neg hzero,slice_ok (by omega) (by omega)]
        simp only [reads_ok]
        have hcut : (payload.take (4+ofLeBytes (payload.take 4))).drop 4 =
            (payload.drop 4).take (ofLeBytes (payload.take 4)) := by
          rw [drop_take]
          simp
        rw [hcut]
        cases readString "reply_to" ((payload.drop 4).take (ofLeBytes (payload.take 4))) with
        | ok | error => rfl

theorem replyToParts_offset {r : Option String} {offset : ℕ} (h : replyToParts payload n=.ok (r,offset)) :
    offset≤payload.length := by
  rw [replyToParts_eq] at h
  split at h
  · contradiction
  split at h
  · contradiction
  split at h
  · have:=(Prod.mk.inj (Except.ok.inj h)).2
    omega
  · cases hread : refuse (readString "reply_to" ((payload.drop 4).take (ofLeBytes (payload.take 4)))) with
    | error e => simp [hread,Except.map] at h
    | ok r' =>
      rw [hread] at h
      have:=(Prod.mk.inj (Except.ok.inj h)).2
      omega

theorem refuse_ne_panic (x : Except FrameError α) (p : Panic) : refuse x ≠ .error (.panic p) := by
  cases x <;> simp [refuse,Except.mapError]

theorem replyToParts_no_panic (payload : Bytes) (n : UInt32) (p : Panic) :
    replyToParts payload n ≠ .error (.panic p) := by
  rw [replyToParts_eq]
  split
  · simp
  split
  · simp
  split
  · simp
  · have hnone:=refuse_ne_panic (readString "reply_to" ((payload.drop 4).take (ofLeBytes (payload.take 4)))) p
    cases hread : refuse (readString "reply_to" ((payload.drop 4).take (ofLeBytes (payload.take 4)))) with
    | ok r => simp [Except.map]
    | error e =>
      rw [hread] at hnone
      simpa [Except.map] using hnone

theorem splitReplyTo_eq (f : Frame) : splitReplyTo f=(refuse f.splitTraceParent).bind fun r =>
    (replyToParts r.2 f.header.frameLen).map fun q => (q.1,r.2.drop q.2) := by
  unfold splitReplyTo
  rw [splitTraceParent_eq]
  cases hsplit : f.splitTraceParent with
  | error e => simp [bind,Except.bind]
  | ok r =>
    simp only [refuse_ok,bind,Except.bind]
    cases hparts : replyToParts r.2 f.header.frameLen with
    | error e => simp [Except.map]
    | ok q => simp [Except.map,slice_to_end (replyToParts_offset hparts)]

theorem borrowed_eq (f : Frame) : borrowedAskPayload f=(splitReplyTo f).map Prod.snd := by
  rw [splitReplyTo_eq]
  unfold borrowedAskPayload
  rw [splitTraceParent_eq]
  cases hsplit : f.splitTraceParent with
  | error e => simp [bind,Except.bind,Except.map]
  | ok r =>
    obtain ⟨hstart,hpayload⟩:=splitTraceParent_start hsplit
    simp only [refuse_ok,bind,Except.bind,slice_to_end hstart,reads_ok,← hpayload]
    cases hparts : replyToParts r.2 f.header.frameLen with
    | error e => simp [Except.map]
    | ok q => simp [Except.map,slice_to_end (replyToParts_offset hparts)]

theorem splitReplyTo_no_panic (f : Frame) (p : Panic) : splitReplyTo f ≠ .error (.panic p) := by
  rw [splitReplyTo_eq]
  cases hsplit : f.splitTraceParent with
  | error e => simp [Except.bind]
  | ok r =>
    have hnone:=replyToParts_no_panic r.2 f.header.frameLen p
    cases hparts : replyToParts r.2 f.header.frameLen with
    | ok q => simp [Except.bind,hparts,Except.map]
    | error e =>
      rw [hparts] at hnone
      simpa [Except.bind,hparts,Except.map] using hnone

theorem borrowed_no_panic (f : Frame) (p : Panic) : borrowedAskPayload f ≠ .error (.panic p) := by
  rw [borrowed_eq]
  have hnone:=splitReplyTo_no_panic f p
  cases hsplit : splitReplyTo f with
  | ok r => simp [Except.map]
  | error e =>
    rw [hsplit] at hnone
    simpa [Except.map] using hnone

theorem or_trace_trace (x : UInt16) : (x ||| Flags.traceContext) &&& Flags.traceContext≠0 := by
  rw [Flags.or_and,UInt16.and_self]
  intro h
  exact absurd (UInt16.or_eq_zero_iff.mp h).2 (by decide)

theorem or_trace_batch {x : UInt16} (h : x &&& (Flags.batch ||| Flags.traceContext)=0) :
    (x ||| Flags.traceContext) &&& Flags.batch=0 := by
  have hmask : Flags.batch=(Flags.batch ||| Flags.traceContext) &&& Flags.batch := by decide
  have hapart : Flags.traceContext &&& Flags.batch=0 := by decide
  rw [Flags.or_and,hapart,UInt16.or_zero,hmask,← UInt16.and_assoc,h,UInt16.zero_and]

/-- What a reader makes of an address: the empty one stands for none. -/
def heard (replyTo : Option String) : Option String := replyTo.filter fun r => r ≠ ""

theorem replyToParts_begun (h : ∀ r∈replyTo, r.utf8ByteSize<2^32) (payload : Bytes) (n : UInt32) :
    replyToParts (replyToPrefix replyTo++payload) n=.ok (heard replyTo,(replyToPrefix replyTo).length) := by
  rw [replyToParts_eq]
  cases replyTo with
  | none =>
    have hlen : (leBytes 4 0).length=4 := Bincode.leBytes_length ..
    have hzero : ofLeBytes (leBytes 4 0)=0 := Bincode.ofLeBytes_leBytes (by omega)
    simp only [replyToPrefix,take_left' hlen,length_append,hlen,hzero,heard]
    rw [if_neg (by omega),if_neg (by omega)]
    rfl
  | some r =>
    have hr : r.utf8ByteSize<2^32 := h r rfl
    have hmod : r.utf8ByteSize%2^32=r.utf8ByteSize := Nat.mod_eq_of_lt hr
    have hlen : (leBytes 4 r.utf8ByteSize).length=4 := Bincode.leBytes_length ..
    have hsize : ofLeBytes (leBytes 4 r.utf8ByteSize)=r.utf8ByteSize := Bincode.ofLeBytes_leBytes (by omega)
    have hutf : (utf8 r).length=r.utf8ByteSize := Bincode.utf8_length r
    simp only [replyToPrefix,hmod,append_assoc,take_left' hlen,drop_left' hlen,length_append,hlen,
      hsize,hutf,take_left' hutf]
    rw [if_neg (by omega),if_neg (by omega)]
    by_cases hempty : r.utf8ByteSize=0
    · rw [if_pos hempty,hempty]
      have hr : r = "" := by simpa using hempty
      subst hr
      rfl
    · rw [if_neg hempty,readString,Bincode.fromUTF8_utf8]
      have hne : r ≠ "" := by
        intro heq
        simp [heq] at hempty
      simp [heard,hne,Except.map,Option.filter]

theorem ask_split (cid : UInt64) (path key : String) (payload : Bytes) (replyTo : Option String) :
    (ask cid path key payload replyTo).splitTraceParent=.ok (none,replyToPrefix replyTo++payload) := by
  simp [Frame.splitTraceParent,ask,newHeader]

structure Traced (f g : Frame) (parent : TraceParent) : Prop where
  type : f.header.frameType=FrameType.ask ∨ f.header.frameType=FrameType.tell
  free : f.header.flags &&& (Flags.batch ||| Flags.traceContext)=0
  valid : f.validatePayloadFlags=.ok ()
  size : f.bodyLen+traceContextBytes ≤ maxFrameLen
  frame : g={f with
    payload := 1::parent.traceId++parent.spanId++f.payload
    header := {f.header with flags:=f.header.flags ||| Flags.traceContext,frameLen:=0}}

theorem withTraceParent_ok : withTraceParent f parent=.ok g ↔ Traced f g parent := by
  unfold withTraceParent
  constructor
  · intro h
    split at h
    · contradiction
    · rename_i hkind
      push Not at hkind
      obtain ⟨_,hvalid,h⟩:=bind_eq_ok.mp h
      obtain ⟨size,hsize,h⟩:=bind_eq_ok.mp h
      obtain ⟨-,hle⟩:=Codec.validateSize_ok.mp hsize
      have hmax : traceContextBytes ≤ maxFrameLen := by decide
      exact ⟨hkind.1,hkind.2,hvalid,by omega,(Except.ok.inj h).symm⟩
  · intro h
    have hmax : traceContextBytes ≤ maxFrameLen := by decide
    have hsize : f.validateSize (maxFrameLen-traceContextBytes)=.ok f.bodyLen := by
      apply Codec.validateSize_ok.mpr
      have:=h.size
      exact ⟨rfl,by omega⟩
    rw [if_neg (by rintro (hk | hk); exacts [hk h.type,hk h.free]),h.valid,h.frame]
    simp only [bind,Except.bind,hsize]
    rfl

theorem decodeTraceParent_encoded (parent : TraceParent) (b : Bytes) :
    Wire.decodeTraceParent (1::parent.traceId++parent.spanId++b)=.ok parent := by
  have htrace:=parent.traceId_length
  have hspan:=parent.spanId_length
  have hlen : ¬((1::parent.traceId++parent.spanId++b).length<traceContextBytes ∨
      (1::parent.traceId++parent.spanId++b).getD 0 0≠1) := by
    simp only [cons_append,List.length_cons,length_append,traceContextBytes,List.getD_cons_zero,
      ne_eq,not_true_eq_false,or_false]
    omega
  have h1 : ((1::parent.traceId++parent.spanId++b).drop 1).take 16=parent.traceId := by
    simp only [cons_append,List.drop_succ_cons,List.drop_zero,append_assoc]
    exact take_left' htrace
  have h17 : ((1::parent.traceId++parent.spanId++b).drop 17).take 8=parent.spanId := by
    simp only [cons_append,List.drop_succ_cons,append_assoc,drop_left' htrace]
    exact take_left' hspan
  unfold Wire.decodeTraceParent
  rw [if_neg hlen,h1,h17,TraceParent.new_self]

theorem Traced.splits (h : Traced f g parent) : g.splitTraceParent=.ok (some parent,f.payload) := by
  have htype:=h.type
  have hflags : g.header.flags=f.header.flags ||| Flags.traceContext := by rw [h.frame]
  have hset : g.header.flags &&& Flags.traceContext≠0 := by
    rw [hflags]
    exact or_trace_trace _
  have hbatch : g.header.flags &&& Flags.batch=0 := by
    rw [hflags]
    exact or_trace_batch h.free
  have hkind : g.header.frameType=FrameType.ask ∨ g.header.frameType=FrameType.tell := by rwa [h.frame]
  have hpayload : g.payload=1::parent.traceId++parent.spanId++f.payload := by rw [h.frame]
  have hdrop : g.payload.drop traceContextBytes=f.payload := by
    have hlen : (1::parent.traceId++parent.spanId).length=traceContextBytes := by
      simp [parent.traceId_length,parent.spanId_length,traceContextBytes]
    rw [hpayload,drop_left' hlen]
  unfold Frame.splitTraceParent
  rw [if_neg hset,if_neg (by rintro (hk | hk); exacts [hk hbatch,hk hkind]),hdrop,hpayload,decodeTraceParent_encoded]
  rfl

theorem splitReplyTo_begun (h : ∀ r∈replyTo, r.utf8ByteSize<2^32) {trace : Option TraceParent}
    (hsplit : f.splitTraceParent=.ok (trace,replyToPrefix replyTo++payload)) :
    splitReplyTo f=.ok (heard replyTo,payload) := by
  rw [splitReplyTo_eq,hsplit]
  simp [Except.bind,Except.map,replyToParts_begun h]

theorem ask_traced (cid : UInt64) (path key : String) (payload : Bytes) (replyTo : Option String)
    (parent : TraceParent) (hkey : key≠durableKey)
    (hsize : (ask cid path key payload replyTo).bodyLen+traceContextBytes ≤ maxFrameLen) :
    ∃ g, withTraceParent (ask cid path key payload replyTo) parent=.ok g := by
  refine ⟨_,withTraceParent_ok.mpr ⟨.inl rfl,by simp [ask,newHeader],?_,hsize,rfl⟩⟩
  have hsupported : ¬(ask cid path key payload replyTo).Unsupported := by
    have hboth : ¬(0 : UInt16)=Flags.batch ||| Flags.urgent := by decide
    simp [Frame.Unsupported,ask,newHeader,hkey,hboth]
  unfold Frame.validatePayloadFlags
  rw [if_neg hsupported]
  simp [ask,newHeader]
  rfl

/-- The prefixes of an ASK come off again as they were put on, an empty address as none.
The two parsers agree on every frame, and none reads outside its payload. -/
theorem prefixes_round_trip :
    (∀ cid path key payload (replyTo : Option String), (∀ r∈replyTo, r.utf8ByteSize<2^32) →
      splitTraceParent (ask cid path key payload replyTo)=.ok (none,(ask cid path key payload replyTo).payload) ∧
      splitReplyTo (ask cid path key payload replyTo)=.ok (heard replyTo,payload) ∧
      ∀ parent g, withTraceParent (ask cid path key payload replyTo) parent=.ok g →
        splitTraceParent g=.ok (some parent,(ask cid path key payload replyTo).payload) ∧
        splitReplyTo g=.ok (heard replyTo,payload)) ∧
    (∀ f, borrowedAskPayload f=(splitReplyTo f).map Prod.snd) ∧
    ∀ f p, splitTraceParent f ≠ .error (.panic p) ∧ splitReplyTo f ≠ .error (.panic p) ∧
      borrowedAskPayload f ≠ .error (.panic p) := by
  refine ⟨?_,borrowed_eq,?_⟩
  · intro cid path key payload replyTo h
    have hplain:=ask_split cid path key payload replyTo
    refine ⟨?_,splitReplyTo_begun h hplain,?_⟩
    · rw [splitTraceParent_eq,hplain]
      rfl
    · intro parent g hg
      have htraced:=(withTraceParent_ok.mp hg).splits
      refine ⟨?_,splitReplyTo_begun h htraced⟩
      rw [splitTraceParent_eq,htraced]
      rfl
  · intro f p
    refine ⟨?_,splitReplyTo_no_panic f p,borrowed_no_panic f p⟩
    rw [splitTraceParent_eq]
    exact refuse_ne_panic _ p

def someParent : TraceParent := ⟨List.replicate 16 1,List.replicate 8 2,rfl,rfl,by decide,by decide⟩

theorem prefixes_round_trip_traced : ∃ g, withTraceParent (ask 91 "/app" "key" [7] (some "reply")) someParent=.ok g ∧
    splitTraceParent g=.ok (some someParent,(ask 91 "/app" "key" [7] (some "reply")).payload) ∧
    splitReplyTo g=.ok (some "reply",[7]) := by
  obtain ⟨g,hg⟩:=ask_traced 91 "/app" "key" [7] (some "reply") someParent (by decide) (by decide)
  obtain ⟨-,-,htrace⟩:=prefixes_round_trip.1 91 "/app" "key" [7] (some "reply") (by decide)
  exact ⟨g,hg,htrace someParent g hg⟩

theorem letters_size (n : ℕ) : (String.ofList (List.replicate n 'a')).utf8ByteSize=n := by
  induction n with
  | zero => rfl
  | succ n ih =>
    rw [List.replicate_succ',String.ofList_append,String.utf8ByteSize_append,ih]
    rfl

theorem replyToPrefix_wraps {r : String} (h : r.utf8ByteSize%2^32=0) :
    splitReplyTo (ask 91 "/app" "key" [] (some r))=.ok (none,utf8 r) := by
  have hlen : (leBytes 4 0).length=4 := Bincode.leBytes_length ..
  have hzero : ofLeBytes (leBytes 4 0)=0 := Bincode.ofLeBytes_leBytes (by omega)
  rw [splitReplyTo_eq,ask_split]
  simp only [refuse_ok,Except.bind,replyToPrefix,h,List.append_nil]
  rw [replyToParts_eq]
  simp only [take_left' hlen,length_append,hlen,hzero]
  rw [if_neg (by omega),if_neg (by omega)]
  simp [Except.map,drop_left' hlen]

/- The empty address, and one of four gibibytes, whose length the prefix cannot hold. -/
theorem addresses_lost : splitReplyTo (ask 91 "/app" "key" [1] (some ""))=.ok (none,[1]) ∧
    splitReplyTo (ask 91 "/app" "key" [] (some (String.ofList (List.replicate (2^32) 'a')))) =
      .ok (none,utf8 (String.ofList (List.replicate (2^32) 'a'))) := by
  constructor
  · decide +kernel
  · apply replyToPrefix_wraps
    rw [letters_size]
    exact Nat.mod_self _

end Parrot.Link
