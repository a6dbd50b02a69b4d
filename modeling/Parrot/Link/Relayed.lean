import Parrot.Link.Relay

/-! # Every relayed request ends once

The account of the table says that a request is pending or has one outcome, and what an
outcome can be is decided by the step that took its slot out. -/

namespace Parrot.Link.Hub
open Machine Parrot.Wire Slots

variable {h h' : Hub}

structure SameTable (h h' : Hub) : Prop where
  slots : h'.slots=h.slots
  outcomes : h'.outcomes=h.outcomes
  accepted : h'.accepted=h.accepted
  now : h'.now=h.now
  ttl : h'.ttl=h.ttl
  failed : h'.failed=h.failed
  closed : ∀ c, h.closed c=true → h'.closed c=true

theorem SameTable.refl (h : Hub) : SameTable h h := ⟨rfl,rfl,rfl,rfl,rfl,rfl,fun _ hc => hc⟩

theorem SameTable.trans {a b c : Hub} (x : SameTable a b) (y : SameTable b c) : SameTable a c :=
  ⟨y.slots.trans x.slots,y.outcomes.trans x.outcomes,y.accepted.trans x.accepted,y.now.trans x.now,
    y.ttl.trans x.ttl,y.failed.trans x.failed,fun i hi => y.closed i (x.closed i hi)⟩

theorem closed_close (h : Hub) (connection c : ℕ) (hc : h.closed c=true) : (h.close connection).closed c=true := by
  by_cases heq : c=connection
  · rw [close,heq]
    exact Function.update_self ..
  · rw [close]
    exact (Function.update_of_ne heq ..).trans hc

theorem close_same (h : Hub) (connection : ℕ) : SameTable h (h.close connection) :=
  ⟨rfl,rfl,rfl,rfl,rfl,rfl,h.closed_close connection⟩

theorem sendReply_same (h : Hub) (sender : FrameSender) (f : Frame) (room : Bool) :
    SameTable h (h.sendReply sender f room) := by
  have hlog : SameTable h {h with replies:=h.replies++[(sender,f)]} := ⟨rfl,rfl,rfl,rfl,rfl,rfl,fun _ hc => hc⟩
  unfold sendReply
  dsimp only
  split
  · exact hlog
  · exact hlog.trans (close_same ..)

theorem sendReply_replies (h : Hub) (sender : FrameSender) (f : Frame) (room : Bool) :
    (h.sendReply sender f room).replies=h.replies++[(sender,f)] := by
  unfold sendReply
  dsimp only
  split <;> rfl

theorem sendReplies_same (replies : List (FrameSender × Frame)) :
    ∀ (h : Hub) (rooms : List Bool), SameTable h (h.sendReplies replies rooms) := by
  induction replies with
  | nil => exact fun h _ => .refl h
  | cons x replies ih =>
    intro h rooms
    exact (sendReply_same h x.1 x.2 (rooms.headD true)).trans (ih ..)

theorem sendReplies_replies (replies : List (FrameSender × Frame)) :
    ∀ (h : Hub) (rooms : List Bool), (h.sendReplies replies rooms).replies=h.replies++replies := by
  induction replies with
  | nil => exact fun h _ => (List.append_nil _).symm
  | cons x replies ih =>
    intro h rooms
    rw [sendReplies,ih,sendReply_replies,List.append_assoc]
    rfl

theorem sendFrame_same (h : Hub) (sender : FrameSender) (f : Frame) (room : Bool) :
    SameTable h (h.sendFrame sender f room) := by
  unfold sendFrame
  split
  · exact ⟨rfl,rfl,rfl,rfl,rfl,rfl,fun _ hc => hc⟩
  · exact .refl h

/-- A request got a slot under an id that had none, on open connections, and went out under it. -/
structure Accepted (h h' : Hub) (back : FrameSender) (origCid : UInt64) (id : UInt64) (slot : RelaySlot) : Prop where
  fresh : get h.slots id=none
  slots : h'.slots=(id,slot)::h.slots
  ticket : slot.ticket=h.accepted
  origCid : slot.origCid=origCid
  back : slot.back=back
  created : slot.created=h.now
  now : h'.now=h.now
  backOpen : h.closed slot.back.connection=false
  targetOpen : h.closed slot.target.connection=false
  accepted : h'.accepted=h.accepted+1
  outcomes : h'.outcomes=h.outcomes
  failed : h'.failed=h.failed
  closed : ∀ c, h.closed c=true → h'.closed c=true

variable {back sender : FrameSender} {origCid id : UInt64} {slot : RelaySlot}

theorem insert_accepted (hi : h.insert id origCid back sender=some h') :
    Accepted h h' back origCid id ⟨origCid,back,sender,h.now,h.accepted⟩ := by
  unfold insert at hi
  split at hi
  · contradiction
  · next hc =>
    push Not at hc
    obtain ⟨-,hid,hback,htarget⟩:=hc
    cases hi
    refine ⟨?_,rfl,rfl,rfl,rfl,rfl,rfl,?_,?_,rfl,rfl,rfl,fun _ hc => hc⟩
    · simpa using hid
    · simpa using hback
    · simpa using htarget

theorem Accepted.same {a b c : Hub} (x : Accepted a b back origCid id slot) (y : SameTable b c) :
    Accepted a c back origCid id slot :=
  ⟨x.fresh,y.slots.trans x.slots,x.ticket,x.origCid,x.back,x.created,y.now.trans x.now,x.backOpen,x.targetOpen,
    y.accepted.trans x.accepted,y.outcomes.trans x.outcomes,y.failed.trans x.failed,
    fun i hi => y.closed i (x.closed i hi)⟩

theorem withTraceParent_cid {f g : Frame} {parent : Wal.TraceParent} (hg : withTraceParent f parent=.ok g) :
    g.header.correlationId=f.header.correlationId := by
  unfold withTraceParent at hg
  split at hg
  · contradiction
  · cases hv : f.validatePayloadFlags with
    | error e => simp [hv,bind,Except.bind] at hg
    | ok u =>
      cases hs : f.validateSize (maxFrameLen-traceContextBytes) with
      | error e => simp [hv,hs,bind,Except.bind] at hg
      | ok n =>
        simp only [hv,hs,bind,Except.bind,pure,Except.pure,Except.ok.injEq] at hg
        rw [← hg]

theorem traceRequest_cid {f g : Frame} {current : Option Wal.TraceParent}
    (hg : sender.traceRequest current f=.ok g) : g.header.correlationId=f.header.correlationId := by
  unfold FrameSender.traceRequest at hg
  split at hg
  · split at hg
    · exact withTraceParent_cid hg
    · rw [Except.ok.inj hg]
  · rw [Except.ok.inj hg]

/-- A request changed nothing but queues, or it has a slot and is on its way under the slot's id. -/
def Answered (h h' : Hub) (back : FrameSender) (origCid : UInt64) : Prop :=
  SameTable h h' ∨ ∃ id slot fwd, Accepted h h' back origCid id slot ∧
    fwd.header.correlationId=id ∧ (slot.target,fwd)∈h'.sent

theorem sendFrame_sent {x : FrameSender × Frame} (hx : x∈h.sent) (f : Frame) (room : Bool) :
    x∈(h.sendFrame sender f room).sent := by
  unfold sendFrame
  split
  · exact List.mem_append_left _ hx
  · exact hx

theorem forward_cases (env : Surroundings) {router : RelayRouter} (node : String) (frame : Frame) {fwd : Frame}
    (hcid : fwd.header.correlationId=router.nextCid) :
    Answered h (h.forward env router node frame fwd back sender origCid).1 back origCid := by
  unfold forward
  cases hi : h.insert router.nextCid origCid back sender with
  | none => exact .inl (sendReply_same ..)
  | some k =>
    right
    have hlog : SameTable k {k with sent:=k.sent++[(sender,fwd)]} := ⟨rfl,rfl,rfl,rfl,rfl,rfl,fun _ hc => hc⟩
    have hk:=(insert_accepted hi).same hlog
    have hsent : (sender,fwd)∈k.sent++[(sender,fwd)] := List.mem_append_right _ (List.mem_singleton.mpr rfl)
    dsimp only
    split
    · exact ⟨_,_,fwd,hk.same (sendFrame_same ..),hcid,sendFrame_sent hsent ..⟩
    · exact ⟨_,_,fwd,hk,hcid,hsent⟩

theorem tryRelayRequest_cases (env : Surroundings) (frame : Frame) (back : FrameSender) (origCid : UInt64) :
    Answered h (h.tryRelayRequest env frame back origCid).1 back origCid := by
  have hrefuse : ∀ (path : String) (code : ErrCode) (detail : String),
      SameTable h (h.refuse back origCid path code detail env.room).1 := fun _ _ _ => sendReply_same ..
  unfold tryRelayRequest
  split
  · split
    · exact .inl (.refl h)
    · split
      · exact .inl (hrefuse ..)
      · split
        · exact .inl (sendFrame_same ..)
        · split
          · exact .inl (hrefuse ..)
          · split
            · exact .inl (hrefuse ..)
            · dsimp only
              split
              · exact .inl (hrefuse ..)
              · next htrace =>
                split
                · exact .inl (hrefuse ..)
                · split
                  · exact forward_cases env _ frame (traceRequest_cid htrace)
                  · exact .inl (hrefuse ..)
  · exact .inl (.refl h)

structure Drained (h h' : Hub) (p : UInt64 × RelaySlot → Bool) (outcome : RelaySlot → Outcome) : Prop where
  slots : h'.slots=without h.slots p
  outcomes : h'.outcomes=h.outcomes++(h.slots.filter p).map fun e => (e.2,outcome e.2)
  replies : h'.replies=h.replies++((h.slots.filter p).map fun e => (e.2,outcome e.2)).filterMap answer
  accepted : h'.accepted=h.accepted
  now : h'.now=h.now
  ttl : h'.ttl=h.ttl
  closed : ∀ c, h.closed c=true → h'.closed c=true

theorem drain_drained (p : UInt64 × RelaySlot → Bool) (outcome : RelaySlot → Outcome) (failed : List ℕ)
    (rooms : List Bool) :
    Drained h ({(h.drain p outcome).1 with failed:=failed}.sendReplies (h.drain p outcome).2 rooms) p outcome := by
  have hs:=sendReplies_same (h.drain p outcome).2 {(h.drain p outcome).1 with failed:=failed} rooms
  exact ⟨hs.slots,hs.outcomes,sendReplies_replies ..,hs.accepted,hs.now,hs.ttl,hs.closed⟩

section Reply

variable {frame : Frame} {source : FrameSender} {room : Bool}

/-- How a reply of the right connection ends its slot. -/
def ending (h : Hub) (slot : RelaySlot) (frame : Frame) (source : FrameSender) : Outcome :=
  if h.now-slot.created≥h.ttl then .expired else .forwarded source frame

theorem relayReply_missing (hget : get h.slots frame.header.correlationId=none) :
    h.relayReply frame source room=(h,false) := by
  simp [relayReply,takeFrom,hget]

theorem relayReply_wrongSource (hget : get h.slots frame.header.correlationId=some slot)
    (hsource : slot.target.sameConnection source=false) : h.relayReply frame source room=(h,true) := by
  simp [relayReply,takeFrom,hget,hsource]

theorem relayReply_matched (hget : get h.slots frame.header.correlationId=some slot)
    (hsource : slot.target.sameConnection source=true) :
    h.relayReply frame source room=({h with
        slots := remove h.slots frame.header.correlationId
        outcomes := h.outcomes++[(slot,h.ending slot frame source)]}.sendReplies
          (answer (slot,h.ending slot frame source)).toList [room],true) := by
  simp [relayReply,takeFrom,hget,hsource,ending]

theorem relayReply_drained (hn : (h.slots.map Prod.fst).Nodup)
    (hget : get h.slots frame.header.correlationId=some slot) (hsource : slot.target.sameConnection source=true) :
    Drained h (h.relayReply frame source room).1 (fun e => e.1=frame.header.correlationId)
    (fun slot => h.ending slot frame source) := by
  rw [relayReply_matched hget hsource]
  have hone:=filter_id hn (mem_of_get hget)
  constructor
  · exact (sendReplies_same ..).slots
  · rw [(sendReplies_same ..).outcomes,hone]
    rfl
  · rw [sendReplies_replies,hone]
    simp only [List.map_cons,List.map_nil,List.filterMap_cons,List.filterMap_nil]
    cases answer (slot,h.ending slot frame source) <;> rfl
  · exact (sendReplies_same ..).accepted
  · exact (sendReplies_same ..).now
  · exact (sendReplies_same ..).ttl
  · exact fun c hc => (sendReplies_same ..).closed c hc

end Reply

structure Inv (h : Hub) : Prop where
  balanced : Balanced RelaySlot.ticket h.accepted h.slots (h.outcomes.map fun x => x.1.ticket)
  source : ∀ slot source reply, (slot,Outcome.forwarded source reply)∈h.outcomes →
    slot.target.sameConnection source=true
  past : ∀ e∈h.slots, e.2.created≤h.now
  failedClosed : ∀ c∈h.failed, h.closed c=true
  failedGone : ∀ c∈h.failed, ∀ e∈h.slots, e.2.back.connection≠c ∧ e.2.target.connection≠c

theorem withTable_inv (ttl capacity : ℕ) : Inv (withTable ttl capacity) :=
  ⟨.empty,fun _ _ _ hx => absurd hx List.not_mem_nil,fun _ he => absurd he List.not_mem_nil,
    fun _ hc => absurd hc List.not_mem_nil,fun _ hc => absurd hc List.not_mem_nil⟩

theorem SameTable.inv (x : SameTable h h') (hi : Inv h) : Inv h' := by
  constructor
  · rw [x.accepted,x.slots,x.outcomes]
    exact hi.balanced
  · rw [x.outcomes]
    exact hi.source
  · rw [x.slots,x.now]
    exact hi.past
  · rw [x.failed]
    exact fun c hc => x.closed c (hi.failedClosed c hc)
  · rw [x.failed,x.slots]
    exact hi.failedGone

theorem Accepted.inv (x : Accepted h h' back origCid id slot) (hi : Inv h) : Inv h' := by
  constructor
  · rw [x.accepted,x.slots,x.outcomes]
    exact hi.balanced.accept x.fresh x.ticket
  · rw [x.outcomes]
    exact hi.source
  · rw [x.slots,x.now]
    intro e he
    rcases List.mem_cons.mp he with he | he
    · rw [he]
      exact x.created.le
    · exact hi.past e he
  · rw [x.failed]
    exact fun c hc => x.closed c (hi.failedClosed c hc)
  · rw [x.failed,x.slots]
    intro c hc e he
    rcases List.mem_cons.mp he with he | he
    -- a connection that has failed is closed, and a slot starts on open ones
    · have hclosed:=hi.failedClosed c hc
      rw [he]
      constructor
      · rintro rfl
        exact absurd (x.backOpen.symm.trans hclosed) Bool.false_ne_true
      · rintro rfl
        exact absurd (x.targetOpen.symm.trans hclosed) Bool.false_ne_true
    · exact hi.failedGone c hc e he

theorem Drained.balanced {p : UInt64 × RelaySlot → Bool} {outcome : RelaySlot → Outcome} (x : Drained h h' p outcome)
    (hi : Inv h) : Balanced RelaySlot.ticket h'.accepted h'.slots (h'.outcomes.map fun x => x.1.ticket) := by
  rw [x.accepted,x.slots,x.outcomes,List.map_append,List.map_map]
  exact hi.balanced.settle p

theorem Drained.inv {p : UInt64 × RelaySlot → Bool} {outcome : RelaySlot → Outcome} (x : Drained h h' p outcome)
    (hi : Inv h) (hsource : ∀ e∈h.slots, p e=true → ∀ source reply, outcome e.2=.forwarded source reply →
    e.2.target.sameConnection source=true) (hfailed : ∀ c∈h'.failed, c∈h.failed ∨ h'.closed c=true ∧
    ∀ e : UInt64 × RelaySlot, p e=false → e.2.back.connection≠c ∧ e.2.target.connection≠c) : Inv h' := by
  constructor
  · exact x.balanced hi
  · intro slot source reply hx
    rw [x.outcomes,List.mem_append,List.mem_map] at hx
    rcases hx with hx | ⟨e,he,heq⟩
    · exact hi.source slot source reply hx
    · obtain ⟨he,hp⟩:=List.mem_filter.mp he
      obtain ⟨rfl,hout⟩:=Prod.mk.inj heq
      exact hsource e he hp source reply hout
  · rw [x.slots,x.now]
    exact fun e he => hi.past e (mem_without.mp he).1
  · intro c hc
    rcases hfailed c hc with hc | hc
    · exact x.closed c (hi.failedClosed c hc)
    · exact hc.1
  · rw [x.slots]
    intro c hc e he
    obtain ⟨he,hp⟩:=mem_without.mp he
    rcases hfailed c hc with hc | hc
    · exact hi.failedGone c hc e he
    · exact hc.2 e hp

theorem tick_drained (rooms : List Bool) :
    Drained h (h.step (.tick rooms)) (fun e => decide (h.now-e.2.created≥h.ttl)) (fun _ => .expired) :=
  drain_drained (fun e => decide (h.now-e.2.created≥h.ttl)) (fun _ => .expired) h.failed rooms

theorem reply_inv (hi : Inv h) (frame : Frame) (source : FrameSender) (room : Bool) :
    Inv (h.relayReply frame source room).1 := by
  cases hget : get h.slots frame.header.correlationId with
  | none =>
    rw [relayReply_missing hget]
    exact hi
  | some slot =>
    cases hsource : slot.target.sameConnection source with
    | false =>
      rw [relayReply_wrongSource hget hsource]
      exact hi
    | true =>
      apply (relayReply_drained hi.balanced.ids_nodup hget hsource).inv hi
      · intro e he hid source' reply hout
        have heq:=get_of_mem (s := e.2) hi.balanced.ids_nodup he
        rw [of_decide_eq_true hid,hget] at heq
        rw [← Option.some.inj heq] at hout ⊢
        simp only [ending] at hout
        split at hout
        · contradiction
        · rw [← (Outcome.forwarded.inj hout).1]
          exact hsource
      · rw [relayReply_matched hget hsource,(sendReplies_same ..).failed]
        exact fun c hc => .inl hc

theorem connectionClosed_inv (hi : Inv h) {connection : FrameSender} (hclosed : h.closed connection.connection=true)
    (rooms : List Bool) : Inv (h.connectionClosed connection rooms) := by
  have hd : Drained h (h.connectionClosed connection rooms) (fun e => touches connection e.2)
      (fun slot => if slot.back.sameConnection connection then .reclaimed else .lost) :=
    drain_drained (fun e => touches connection e.2)
      (fun slot => if slot.back.sameConnection connection then .reclaimed else .lost) _ rooms
  apply hd.inv hi
  · intro e he hp source reply hout
    split at hout <;> contradiction
  · intro c hc
    rw [connectionClosed,(sendReplies_same ..).failed] at hc
    rcases List.mem_cons.mp hc with heq | hc
    · right
      rw [heq]
      refine ⟨hd.closed _ hclosed,fun e hp => ?_⟩
      simpa [touches,FrameSender.sameConnection] using hp
    · exact .inl hc

theorem step_inv (hi : Inv h) (e : Event) : Inv (h.step e) := by
  cases e with
  | request env frame back origCid =>
    rcases tryRelayRequest_cases (h:=h) env frame back origCid with hs | ⟨id,slot,fwd,ha,-⟩
    · exact hs.inv hi
    · exact ha.inv hi
  | reply frame source room => exact reply_inv hi frame source room
  | close connection => exact (close_same h connection).inv hi
  | disconnected connection rooms =>
    simp only [step]
    split
    · next hclosed => exact connectionClosed_inv hi hclosed rooms
    · exact hi
  | tick rooms =>
    apply (tick_drained rooms).inv hi
    · exact fun e he hp source reply hout => Outcome.noConfusion hout
    · intro c hc
      rw [step,(sendReplies_same ..).failed] at hc
      exact .inl hc
  | wait d => exact ⟨hi.balanced,hi.source,fun e he => (hi.past e he).trans (Nat.le_add_right ..),
      hi.failedClosed,hi.failedGone⟩
  | reorder slots =>
    simp only [step]
    split
    · next hp => exact ⟨hi.balanced.reorder hp,hi.source,fun e he => hi.past e (hp.mem_iff.mp he),
        hi.failedClosed,fun c hc e he => hi.failedGone c hc e (hp.mem_iff.mp he)⟩
    · exact hi

theorem run_inv (hi : Inv h) (events : List Event) : Inv (h.run events) := by
  induction events generalizing h with
  | nil => exact hi
  | cons e events ih => exact ih (step_inv hi e)

/-- What a state promises about the requests it relays. -/
structure EndsOnce (h : Hub) : Prop where
  /- Each accepted request is in the table or has one outcome, never both. -/
  once : ((h.slots.map fun e => e.2.ticket)++h.outcomes.map fun x => x.1.ticket).Perm (List.range h.accepted)
  request : ∀ env frame back origCid, Answered h (h.step (.request env frame back origCid)) back origCid
  /- A reply ends the slot of its id, and no other, if it came over the connection the slot waits on. -/
  reply : ∀ frame source room slot, get h.slots frame.header.correlationId=some slot →
    slot.target.sameConnection source=true →
    (h.step (.reply frame source room)).slots=remove h.slots frame.header.correlationId ∧
    (h.step (.reply frame source room)).outcomes=h.outcomes++[(slot,h.ending slot frame source)] ∧
    ∃ out, out.header.correlationId=slot.origCid ∧ (h.now-slot.created<h.ttl → out=withCid frame slot.origCid) ∧
      (h.step (.reply frame source room)).replies=h.replies++[(slot.back,out)]
  stranger : ∀ frame source room, (∀ slot, get h.slots frame.header.correlationId=some slot →
    slot.target.sameConnection source=false) → h.step (.reply frame source room)=h
  source : ∀ slot source reply, (slot,Outcome.forwarded source reply)∈h.outcomes →
    slot.target.sameConnection source=true
  failed : ∀ c∈h.failed, ∀ e∈h.slots, e.2.target.connection≠c
  expired : ∀ rooms, ∀ e∈(h.step (.tick rooms)).slots, (h.step (.tick rooms)).now-e.2.created<h.ttl
  /- One sweep of the table after the deadline of the last request leaves nothing pending. -/
  settled : ∀ d≥h.ttl, ∀ rooms, (h.run [.wait d,.tick rooms]).slots=[] ∧
    ((h.run [.wait d,.tick rooms]).outcomes.map fun x => x.1.ticket).Perm (List.range h.accepted)

theorem tick_expired (rooms : List Bool) :
    ∀ e∈(h.step (.tick rooms)).slots, (h.step (.tick rooms)).now-e.2.created<h.ttl := by
  intro e he
  rw [(tick_drained rooms).slots] at he
  rw [(tick_drained rooms).now]
  simpa using (mem_without.mp he).2

theorem frame_ending (h : Hub) (slot : RelaySlot) (frame : Frame) (source : FrameSender) :
    ∃ out, (h.ending slot frame source).frame slot=some out ∧ out.header.correlationId=slot.origCid ∧
      (h.now-slot.created<h.ttl → out=withCid frame slot.origCid) := by
  unfold ending
  split
  · next hold => exact ⟨_,rfl,rfl,fun hlt => absurd hlt (not_lt.mpr hold)⟩
  · exact ⟨_,rfl,rfl,fun _ => rfl⟩

theorem reply_ends {frame : Frame} {source : FrameSender} (hi : Inv h) (room : Bool)
    (hget : get h.slots frame.header.correlationId=some slot) (hsource : slot.target.sameConnection source=true) :
    (h.step (.reply frame source room)).slots=remove h.slots frame.header.correlationId ∧
    (h.step (.reply frame source room)).outcomes=h.outcomes++[(slot,h.ending slot frame source)] ∧ ∃ out,
    out.header.correlationId=slot.origCid ∧ (h.now-slot.created<h.ttl → out=withCid frame slot.origCid) ∧
    (h.step (.reply frame source room)).replies=h.replies++[(slot.back,out)] := by
  have hd:=@relayReply_drained h slot frame source room hi.balanced.ids_nodup hget hsource
  have hone:=filter_id hi.balanced.ids_nodup (mem_of_get hget)
  obtain ⟨out,hout,hcid,hfresh⟩:=frame_ending h slot frame source
  refine ⟨hd.slots,?_,out,hcid,hfresh,?_⟩
  · have houtcomes:=hd.outcomes
    rw [hone] at houtcomes
    exact houtcomes
  · have hreplies:=hd.replies
    rw [hone] at hreplies
    apply hreplies.trans
    simp [answer,hout]

theorem wait_tick (hi : Inv h) {d : ℕ} (hd : d≥h.ttl) (rooms : List Bool) : (h.run [.wait d,.tick rooms]).slots=[] ∧
    ((h.run [.wait d,.tick rooms]).outcomes.map fun x => x.1.ticket).Perm (List.range h.accepted) := by
  have hdrained : Drained {h with now:=h.now+d} (h.run [.wait d,.tick rooms]) _ _ := tick_drained rooms
  have hnil : (h.run [.wait d,.tick rooms]).slots=[] := by
    rw [hdrained.slots]
    apply List.eq_nil_iff_forall_not_mem.mpr
    intro e he
    obtain ⟨he,hyoung⟩:=mem_without.mp he
    have hpast:=hi.past e he
    simp only [decide_eq_false_iff_not] at hyoung
    omega
  have haccount:=(run_inv hi [.wait d,.tick rooms]).balanced.account
  rw [hnil,hdrained.accepted] at haccount
  exact ⟨hnil,haccount⟩

theorem Inv.endsOnce (hi : Inv h) : EndsOnce h := by
  constructor
  · exact hi.balanced.account
  · exact fun env frame back origCid => tryRelayRequest_cases env frame back origCid
  · exact fun frame source room slot hget hsource => reply_ends hi room hget hsource
  · intro frame source room hother
    cases hget : get h.slots frame.header.correlationId with
    | none => exact congrArg Prod.fst (relayReply_missing hget)
    | some slot => exact congrArg Prod.fst (relayReply_wrongSource hget (hother slot hget))
  · exact hi.source
  · exact fun c hc e he => (hi.failedGone c hc e he).2
  · exact tick_expired
  · exact fun d hd rooms => wait_tick hi hd rooms

theorem relays_end_once (ttl capacity : ℕ) (events : List Event) : EndsOnce ((withTable ttl capacity).run events) :=
  (run_inv (withTable_inv ttl capacity) events).endsOnce

end Parrot.Link.Hub
