import Parrot.Resolve.Ingress

/-! # Responses in flight

A lookup that an invalidation has overtaken stays overtaken for as long as it waits, and a
response says something about the cache only through the lookup it was sent for. -/

namespace Parrot.Resolve
open Machine Parrot.Wire
open Link (ErrCode ReplyPayload)
open Ingress (resolveReply validResponse validInvalidate publish stale mark Event)

variable {g g' : Ingress} {f : Frame} {source now choice : ℕ} {slot slot' : ResolvePending}

structure Aged (slot slot' : ResolvePending) : Prop where
  same : slot'={slot with invalidated:=slot'.invalidated}
  kept : slot.invalidated=true → slot'.invalidated=true

theorem Aged.refl (slot : ResolvePending) : Aged slot slot := ⟨rfl,fun h => h⟩

theorem mark_aged (cacheKey : String) (slot : ResolvePending) : Aged slot (mark cacheKey slot) := by
  unfold mark
  split
  · exact ⟨rfl,fun _ => rfl⟩
  · exact Aged.refl slot

structure Opened (g g' : Ingress) (slot : ResolvePending) : Prop where
  identity : slot.identity=g.registered
  cacheKey : slot.cacheKey=resolveCacheKey (g.peers slot.connection) slot.key
  registered : g.registered<g'.registered

structure Settled (g g' : Ingress) (p : ℕ × ReplyPayload) (cid : ℕ) (slot : ResolvePending) : Prop where
  pending : g.resolvePending.get cid=some slot
  gone : g'.resolvePending.get cid=none
  identity : p.1=slot.identity
  valid : ∀ payload typeKey, p.2=.ok payload typeKey → slot.invalidated=false

structure Step (g g' : Ingress) : Prop where
  peers : g'.peers=g.peers
  registered : g.registered≤g'.registered
  pending : ∃ cid₀, ∀ cid slot', g'.resolvePending.get cid=some slot' →
    (∃ slot, g.resolvePending.get cid=some slot ∧ Aged slot slot') ∨ cid=cid₀ ∧ Opened g g' slot'
  replies : ∀ p∈g'.replies, p∈g.replies ∨ ∃ cid slot, Settled g g' p cid slot

theorem step_of (hpeers : g'.peers=g.peers) (hregistered : g'.registered=g.registered)
    (hpending : ∀ cid slot', g'.resolvePending.get cid=some slot' →
      ∃ slot, g.resolvePending.get cid=some slot ∧ Aged slot slot')
    (hreplies : ∀ p∈g'.replies, p∈g.replies ∨ ∃ cid slot, Settled g g' p cid slot) : Step g g' where
  peers := hpeers
  registered := hregistered.ge
  pending := ⟨0,fun cid slot' hget => .inl (hpending cid slot' hget)⟩
  replies := hreplies

theorem step_same (hpeers : g'.peers=g.peers) (hregistered : g'.registered=g.registered)
    (hpending : g'.resolvePending=g.resolvePending) (hreplies : g'.replies=g.replies) : Step g g' := by
  apply step_of hpeers hregistered
  · intro cid slot' hget
    rw [hpending] at hget
    exact ⟨slot',hget,Aged.refl slot'⟩
  · intro p hp
    rw [hreplies] at hp
    exact .inl hp

theorem register_step {sender minVersion : ℕ} {key : String} {cid : UInt64} {query : Frame}
    (h : g.register sender key minVersion cid=.ok (query,g')) : Step g g' := by
  unfold Ingress.register at h
  split at h
  · contradiction
  · split at h
    · contradiction
    · split at h
      · contradiction
      · split at h
        · contradiction
        · obtain ⟨-,rfl⟩:=Prod.mk.inj (Except.ok.inj h)
          refine ⟨rfl,Nat.le_succ _,⟨cid.toNat,?_⟩,fun p hp => .inl hp⟩
          intro x slot' hget
          dsimp only at hget
          rw [OrderedMap.get_insert] at hget
          split at hget
          · rename_i hx
            cases hget
            exact .inr ⟨hx,rfl,rfl,Nat.lt_succ_self _⟩
          · exact .inl ⟨slot',hget,Aged.refl slot'⟩

theorem removed_aged {m : OrderedMap ℕ ResolvePending} {x cid : ℕ} (h : (m.remove x).get cid=some slot') :
    ∃ slot, m.get cid=some slot ∧ Aged slot slot' := by
  rw [OrderedMap.get_remove] at h
  split at h
  · contradiction
  · exact ⟨slot',h,Aged.refl slot'⟩

theorem dropLease_step (g : Ingress) (cid : UInt64) (identity : ℕ) : Step g (g.dropLease cid identity) := by
  unfold Ingress.dropLease
  split
  · exact step_of rfl rfl (fun x slot' hget => removed_aged hget) (fun p hp => .inl hp)
  · exact step_same rfl rfl rfl rfl

theorem reply_step {cid : ℕ} {payload : ReplyPayload} (hget : g.resolvePending.get cid=some slot)
    (hvalid : ∀ bytes typeKey, payload=.ok bytes typeKey → slot.invalidated=false) (hpeers : g'.peers=g.peers)
    (hregistered : g'.registered=g.registered) (hpending : g'.resolvePending=g.resolvePending.remove cid)
    (hreplies : g'.replies=(slot.identity,payload)::g.replies) : Step g g' := by
  apply step_of hpeers hregistered
  · intro x slot' hx
    rw [hpending] at hx
    exact removed_aged hx
  · intro p hp
    rw [hreplies] at hp
    rcases List.mem_cons.mp hp with rfl | hold
    · refine .inr ⟨cid,slot,hget,?_,rfl,hvalid⟩
      rw [hpending]
      exact OrderedMap.get_remove_self
    · exact .inl hold

/-- The answer of a lookup that a response was accepted for. -/
structure Answered (g g' : Ingress) (f : Frame) (source now choice : ℕ) (slot : ResolvePending)
    (response : Response) : Prop where
  pending : g.resolvePending.get f.header.correlationId.toNat=some slot
  connection : slot.connection=source
  decoded : decodeResponse f.payload=.ok response
  key : response.key=slot.key ∧ f.path=slot.key
  waiting : slot.invalidated=false
  recent : ∀ entry, response.entry=some entry → slot.minVersion≤entry.version
  cache : g'.resolveCache=publish g.resolveCache slot.cacheKey now choice response.entry
  replies : g'.replies=(slot.identity,.ok f.payload responseKey)::g.replies

theorem validResponse_some {response : Response} (h : validResponse slot f=some response) :
    decodeResponse f.payload=.ok response ∧ response.key=slot.key ∧ f.path=slot.key := by
  unfold validResponse at h
  split at h
  · contradiction
  · rename_i r hdecode
    split at h
    · rename_i hbound
      cases h
      obtain ⟨hpath,-,hkey,-⟩:=hbound
      exact ⟨hdecode,hkey.symm,hpath.trans hkey.symm⟩
    · contradiction

theorem stale_false {response : Response} (h : stale slot response=false) :
    slot.invalidated=false ∧ ∀ entry, response.entry=some entry → slot.minVersion≤entry.version := by
  simp only [stale,Bool.or_eq_false_iff] at h
  refine ⟨h.1,?_⟩
  intro entry hentry
  simpa [hentry] using h.2

theorem response_cases (g : Ingress) (f : Frame) (source now choice : ℕ) :
    Step g (g.onResolveResponse f source now choice) ∧
      (((g.onResolveResponse f source now choice).resolveCache=g.resolveCache ∧
        ∀ i payload typeKey, (i,ReplyPayload.ok payload typeKey)∈(g.onResolveResponse f source now choice).replies →
          (i,ReplyPayload.ok payload typeKey)∈g.replies) ∨
      ∃ slot response, Answered g (g.onResolveResponse f source now choice) f source now choice slot response) := by
  unfold Ingress.onResolveResponse
  split
  · exact ⟨step_same rfl rfl rfl rfl,.inl ⟨rfl,fun _ _ _ h => h⟩⟩
  · split
    · exact ⟨step_same rfl rfl rfl rfl,.inl ⟨rfl,fun _ _ _ h => h⟩⟩
    · rename_i slot hget
      split
      · exact ⟨step_same rfl rfl rfl rfl,.inl ⟨rfl,fun _ _ _ h => h⟩⟩
      · rename_i hsource
        have herr (code : ErrCode) (detail : String) (i : ℕ) (payload : Bincode.Bytes) (typeKey : String)
            (h : (i,ReplyPayload.ok payload typeKey)∈(slot.identity,ReplyPayload.err code detail)::g.replies) :
            (i,ReplyPayload.ok payload typeKey)∈g.replies := by
          rcases List.mem_cons.mp h with heq | hold
          · exact absurd (congrArg Prod.snd heq) (by simp)
          · exact hold
        unfold Ingress.consume
        split
        · exact ⟨reply_step hget (by simp) rfl rfl rfl rfl,.inl ⟨rfl,herr _ _⟩⟩
        · rename_i response hvalid
          split
          · exact ⟨reply_step hget (by simp) rfl rfl rfl rfl,.inl ⟨rfl,herr _ _⟩⟩
          · rename_i hstale
            obtain ⟨hdecode,hkey⟩:=validResponse_some hvalid
            obtain ⟨hwaiting,hrecent⟩:=stale_false (Bool.not_eq_true _ ▸ hstale)
            exact ⟨reply_step hget (fun _ _ _ => hwaiting) rfl rfl rfl rfl,
              .inr ⟨slot,response,hget,not_not.mp hsource,hdecode,hkey,hwaiting,hrecent,rfl,rfl⟩⟩

theorem failResolve_step (g : Ingress) (cid : UInt64) (source : ℕ) (code : ErrCode) (detail : String) :
    Step g (g.failResolve cid source code detail) := by
  unfold Ingress.failResolve
  split
  · exact step_same rfl rfl rfl rfl
  · rename_i slot hget
    split
    · exact step_same rfl rfl rfl rfl
    · exact reply_step hget (by simp) rfl rfl rfl rfl

theorem onInvalidate_step (g : Ingress) (f : Frame) (source choice : ℕ) : Step g (g.onInvalidate f source choice) := by
  unfold Ingress.onInvalidate
  split
  · exact step_same rfl rfl rfl rfl
  · split
    · exact step_same rfl rfl rfl rfl
    · refine step_of rfl rfl ?_ ?_
      · intro cid slot' hget
        dsimp only at hget
        rw [OrderedMap.get_mapValues] at hget
        obtain ⟨slot,hslot,rfl⟩:=Option.map_eq_some_iff.mp hget
        exact ⟨slot,hslot,mark_aged _ slot⟩
      · exact fun p hp => .inl hp

theorem failAll_step (g : Ingress) (askCancel : Bool) (lost : ResolvePending → Bool) (code : ErrCode)
    (detail : String) : Step g ({g with askCancel:=askCancel}.failAll lost code detail) := by
  unfold Ingress.failAll
  refine step_of rfl rfl ?_ ?_
  · intro cid slot' hget
    dsimp only at hget
    rw [OrderedMap.get_retain] at hget
    obtain ⟨hslot,-⟩:=Option.filter_eq_some_iff.mp hget
    exact ⟨slot',hslot,Aged.refl slot'⟩
  · intro p hp
    rcases List.mem_append.mp hp with hnew | hold
    · obtain ⟨⟨cid,slot⟩,he,rfl⟩:=List.mem_map.mp hnew
      obtain ⟨hmem,hlost⟩:=List.mem_filter.mp he
      have hget:=OrderedMap.get_eq_some.mpr hmem
      refine .inr ⟨cid,slot,hget,?_,rfl,by simp⟩
      dsimp only at hlost ⊢
      rw [OrderedMap.get_retain,hget]
      simp [hlost]
    · exact .inl hold

theorem next_step (g : Ingress) (event : Event) : Step g (g.next event) := by
  cases event with
  | register sender key minVersion cid =>
    unfold Ingress.next
    dsimp only
    split
    · rename_i heq
      exact register_step heq
    · exact step_same rfl rfl rfl rfl
  | dropLease cid identity => exact dropLease_step g cid identity
  | cachedResolve authority key now =>
    unfold Ingress.next Ingress.cachedResolve
    dsimp only
    split <;> exact step_same rfl rfl rfl rfl
  | response f source now choice => exact (response_cases g f source now choice).1
  | replyErr cid source code detail => exact failResolve_step g cid source code detail
  | invalidate f source choice => exact onInvalidate_step g f source choice
  | connectionClosed connection => exact failAll_step g g.askCancel _ _ _
  | closeAsks => exact step_same rfl rfl rfl rfl
  | shutdown => exact failAll_step g true _ _ _

structure Bound (g : Ingress) : Prop where
  cacheKey : ∀ cid slot, g.resolvePending.get cid=some slot →
    slot.cacheKey=resolveCacheKey (g.peers slot.connection) slot.key
  identity : ∀ cid slot, g.resolvePending.get cid=some slot → slot.identity<g.registered
  unique : ∀ cid cid' slot slot', g.resolvePending.get cid=some slot → g.resolvePending.get cid'=some slot' →
    slot.identity=slot'.identity → cid=cid'
  replied : ∀ p∈g.replies, p.1<g.registered
  waiting : ∀ cid slot, g.resolvePending.get cid=some slot → ∀ p∈g.replies, p.1≠slot.identity

theorem start_bound (policy : ControlPolicy) (peers : ℕ → Peer) (cache : ResolveCache) :
    Bound (Ingress.start policy peers cache) := by
  constructor <;> intro x <;> intros <;> simp_all [Ingress.start]

theorem Aged.identity (h : Aged slot slot') : slot'.identity=slot.identity := by rw [h.same]

theorem Bound.step (h : Bound g) (hstep : Step g g') : Bound g' := by
  obtain ⟨cid₀,hpending⟩:=hstep.pending
  have hold : ∀ p∈g'.replies, p.1<g.registered := by
    intro p hp
    rcases hstep.replies p hp with hp | ⟨cid,slot,hsettled⟩
    · exact h.replied p hp
    · rw [hsettled.identity]
      exact h.identity cid slot hsettled.pending
  constructor
  · intro cid slot' hget
    rw [hstep.peers]
    rcases hpending cid slot' hget with ⟨slot,hslot,haged⟩ | ⟨-,hopened⟩
    · rw [haged.same]
      exact h.cacheKey cid slot hslot
    · exact hopened.cacheKey
  · intro cid slot' hget
    rcases hpending cid slot' hget with ⟨slot,hslot,haged⟩ | ⟨-,hopened⟩
    · rw [haged.identity]
      exact (h.identity cid slot hslot).trans_le hstep.registered
    · rw [hopened.identity]
      exact hopened.registered
  · intro cid cid' slot₁ slot₂ h₁ h₂ heq
    rcases hpending cid slot₁ h₁ with ⟨slot,hslot,haged⟩ | ⟨hx,hopened⟩
    · rcases hpending cid' slot₂ h₂ with ⟨slot',hslot',haged'⟩ | ⟨hx',hopened'⟩
      · exact h.unique cid cid' slot slot' hslot hslot' (by rw [← haged.identity,← haged'.identity,heq])
      · have hlt:=h.identity cid slot hslot
        rw [← haged.identity,heq,hopened'.identity] at hlt
        omega
    · rcases hpending cid' slot₂ h₂ with ⟨slot',hslot',haged'⟩ | ⟨hx',hopened'⟩
      · have hlt:=h.identity cid' slot' hslot'
        rw [← haged'.identity,← heq,hopened.identity] at hlt
        omega
      · exact hx.trans hx'.symm
  · intro p hp
    exact (hold p hp).trans_le hstep.registered
  · intro cid slot' hget p hp heq
    rcases hpending cid slot' hget with ⟨slot,hslot,haged⟩ | ⟨-,hopened⟩
    · rw [haged.identity] at heq
      rcases hstep.replies p hp with hp | ⟨cid',slot₁,hsettled⟩
      · exact h.waiting cid slot hslot p hp heq
      · have hcid:=h.unique cid' cid slot₁ slot hsettled.pending hslot (hsettled.identity.symm.trans heq)
        have hgone:=hsettled.gone
        rw [hcid,hget] at hgone
        contradiction
    · have hlt:=hold p hp
      rw [heq,hopened.identity] at hlt
      omega

theorem run_bound {events : List Event} (h : Bound g) : Bound (g.run events) := by
  induction events generalizing g with
  | nil => exact h
  | cons event events ih => exact ih (h.step (next_step g event))

structure Overtaken (i : ℕ) (g : Ingress) : Prop where
  registered : i<g.registered
  marked : ∀ cid slot, g.resolvePending.get cid=some slot → slot.identity=i → slot.invalidated=true
  unanswered : ∀ payload typeKey, (i,ReplyPayload.ok payload typeKey)∉g.replies

theorem Overtaken.step {i : ℕ} (h : Overtaken i g) (hstep : Step g g') : Overtaken i g' := by
  obtain ⟨cid₀,hpending⟩:=hstep.pending
  refine ⟨h.registered.trans_le hstep.registered,?_,?_⟩
  · intro cid slot' hget hi
    rcases hpending cid slot' hget with ⟨slot,hslot,haged⟩ | ⟨-,hopened⟩
    · exact haged.kept (h.marked cid slot hslot (haged.identity.symm.trans hi))
    · have hlt:=h.registered
      rw [← hi,hopened.identity] at hlt
      omega
  · intro payload typeKey hmem
    rcases hstep.replies _ hmem with hold | ⟨cid,slot,hsettled⟩
    · exact h.unanswered payload typeKey hold
    · have hmarked:=h.marked cid slot hsettled.pending hsettled.identity.symm
      rw [hsettled.valid payload typeKey rfl] at hmarked
      contradiction

theorem Overtaken.run {i : ℕ} {events : List Event} (h : Overtaken i g) : Overtaken i (g.run events) := by
  induction events generalizing g with
  | nil => exact h
  | cons event events ih => exact ih (h.step (next_step g event))

theorem Overtaken.cache (h : Overtaken slot.identity g)
    (hget : g.resolvePending.get f.header.correlationId.toNat=some slot) (source now choice : ℕ) :
    (g.onResolveResponse f source now choice).resolveCache=g.resolveCache := by
  rcases (response_cases g f source now choice).2 with hsame | ⟨slot',response,hanswered⟩
  · exact hsame.1
  · obtain rfl:=Option.some.inj (hget.symm.trans hanswered.pending)
    have hmarked:=h.marked _ slot hget rfl
    rw [hanswered.waiting] at hmarked
    contradiction

theorem onInvalidate_overtakes (h : Bound g) {value : Invalidate} {cid : ℕ} (hallowed : g.allowsResolve f source=true)
    (hvalue : validInvalidate f=some value) (hget : g.resolvePending.get cid=some slot)
    (hpeer : g.peers slot.connection=g.peers source) (hkey : slot.key=value.key) :
    Overtaken slot.identity (g.onInvalidate f source choice) := by
  have hstep:=onInvalidate_step g f source choice
  refine ⟨(h.identity cid slot hget).trans_le hstep.registered,?_,?_⟩
  · intro cid' slot' hget' hi
    unfold Ingress.onInvalidate at hget'
    simp only [hallowed,hvalue,Bool.true_eq_false,if_false] at hget'
    rw [OrderedMap.get_mapValues] at hget'
    obtain ⟨slot₁,hslot₁,rfl⟩:=Option.map_eq_some_iff.mp hget'
    obtain rfl:=h.unique cid' cid slot₁ slot hslot₁ hget ((mark_aged _ slot₁).identity.symm.trans hi)
    obtain rfl:=Option.some.inj (hslot₁.symm.trans hget)
    unfold mark
    rw [if_pos]
    rw [h.cacheKey cid' slot₁ hget,hpeer,hkey]
  · intro payload typeKey hmem
    rcases hstep.replies _ hmem with hold | ⟨cid',slot₁,hsettled⟩
    · exact h.waiting cid slot hget _ hold rfl
    · have hgone:=hsettled.gone
      obtain rfl:=h.unique cid' cid slot₁ slot hsettled.pending hget hsettled.identity.symm
      unfold Ingress.onInvalidate at hgone
      simp only [hallowed,hvalue,Bool.true_eq_false,if_false] at hgone
      rw [OrderedMap.get_mapValues,hget] at hgone
      contradiction

theorem peer_ne {p q : Peer} {key key' : String} (h : p≠q) : resolveCacheKey p key≠resolveCacheKey q key' :=
  fun heq => h (resolveCacheKey_inj heq).1

theorem publish_spared {c : ResolveCache} {x cacheKey : String} (hx : x≠cacheKey) (now choice : ℕ)
    (entry : Option Directory.DirEntry) : Spared c (publish c cacheKey now choice entry) x := by
  cases entry with
  | none => exact invalidate_spared hx
  | some entry => exact putWithTtl_spared hx entry.endpoints entry.version (seconds entry.ttlS) now choice

theorem spared_of_eq {c c' : ResolveCache} (h : c'=c) (x : String) : Spared c c' x := by
  rw [h]
  exact spared_refl c x

theorem next_spared (h : Bound g) {event : Event} {peer : Peer} (hpeer : ∀ c, event.source=some c → g.peers c≠peer)
    (key : String) : Spared g.resolveCache (g.next event).resolveCache (resolveCacheKey peer key) := by
  cases event with
  | register sender key' minVersion cid =>
    apply spared_of_eq
    unfold Ingress.next Ingress.register
    dsimp only
    split
    · rename_i query g' heq
      split at heq
      · contradiction
      · split at heq
        · contradiction
        · split at heq
          · contradiction
          · split at heq
            · contradiction
            · obtain ⟨-,rfl⟩:=Prod.mk.inj (Except.ok.inj heq)
              rfl
    · rfl
  | dropLease cid identity =>
    apply spared_of_eq
    unfold Ingress.next Ingress.dropLease
    dsimp only
    split <;> rfl
  | cachedResolve authority key' now =>
    unfold Ingress.next Ingress.cachedResolve
    dsimp only
    split
    · exact spared_refl _ _
    · exact get_spared _ now
  | response f source now choice =>
    rcases (response_cases g f source now choice).2 with hsame | ⟨slot,response,hanswered⟩
    · exact spared_of_eq hsame.1 _
    · have hcache:=hanswered.cache
      rw [h.cacheKey _ slot hanswered.pending,hanswered.connection] at hcache
      unfold Ingress.next
      dsimp only
      rw [hcache]
      exact publish_spared (peer_ne (hpeer source rfl).symm) now choice response.entry
  | replyErr cid source code detail =>
    apply spared_of_eq
    unfold Ingress.next Ingress.failResolve
    dsimp only
    split
    · rfl
    · split <;> rfl
  | invalidate f source choice =>
    unfold Ingress.next Ingress.onInvalidate
    dsimp only
    split
    · exact spared_refl _ _
    · split
      · exact spared_refl _ _
      · exact invalidateVersioned_spared (peer_ne (hpeer source rfl).symm) _ choice
  | connectionClosed | closeAsks | shutdown => exact spared_refl _ _

theorem response_foreign (hget : g.resolvePending.get f.header.correlationId.toNat=some slot)
    (hsource : slot.connection≠source) : (g.onResolveResponse f source now choice).resolvePending=g.resolvePending ∧
      (g.onResolveResponse f source now choice).resolveCache=g.resolveCache ∧
      (g.onResolveResponse f source now choice).replies=g.replies := by
  unfold Ingress.onResolveResponse
  split
  · simp [Ingress.close]
  · simp [hget,hsource]

/-- What was overtaken is never answered, and what comes for it leaves the cache alone. -/
structure Refused (i : ℕ) (g : Ingress) : Prop where
  unanswered : ∀ payload typeKey, (i,ReplyPayload.ok payload typeKey)∉g.replies
  cache : ∀ (f : Frame) slot, g.resolvePending.get f.header.correlationId.toNat=some slot → slot.identity=i →
    ∀ source now choice, (g.onResolveResponse f source now choice).resolveCache=g.resolveCache

structure Guarded (g : Ingress) : Prop where
  /- Nothing is stored for a lookup that an invalidation of its authority and key has overtaken,
  of no version, however long its response takes. -/
  overtaken : ∀ f source choice value cid slot, g.allowsResolve f source=true → validInvalidate f=some value →
    g.resolvePending.get cid=some slot → g.peers slot.connection=g.peers source → slot.key=value.key →
    ∀ events, Refused slot.identity ((g.onInvalidate f source choice).run events)
  /- A response is accepted for a lookup of the same connection and the same key, or changes no
  answer and no entry. -/
  accepted : ∀ f source now choice,((g.onResolveResponse f source now choice).resolveCache=g.resolveCache ∧
      ∀ i payload typeKey, (i,ReplyPayload.ok payload typeKey)∈(g.onResolveResponse f source now choice).replies →
        (i,ReplyPayload.ok payload typeKey)∈g.replies) ∨
    ∃ slot response, Answered g (g.onResolveResponse f source now choice) f source now choice slot response
  foreign : ∀ (f : Frame) slot, g.resolvePending.get f.header.correlationId.toNat=some slot →
    ∀ source now choice, slot.connection≠source →
      (g.onResolveResponse f source now choice).resolvePending=g.resolvePending ∧
        (g.onResolveResponse f source now choice).resolveCache=g.resolveCache ∧
        (g.onResolveResponse f source now choice).replies=g.replies
  separate : ∀ (event : Event) peer key, (∀ c, event.source=some c → g.peers c≠peer) →
    Spared g.resolveCache (g.next event).resolveCache (resolveCacheKey peer key)

/-- Invalidations beat the responses in flight, in every run of the ingress. -/
theorem invalidation_beats_response (policy : ControlPolicy) (peers : ℕ → Peer) (cache : ResolveCache)
    (events : List Event) : Guarded ((Ingress.start policy peers cache).run events) ∧
      ∀ p q key key', resolveCacheKey p key=resolveCacheKey q key' → p=q ∧ key=key' := by
  have hbound : Bound ((Ingress.start policy peers cache).run events) := run_bound (start_bound policy peers cache)
  refine ⟨⟨?_,?_,?_,?_⟩,?_⟩
  · intro f source choice value cid slot hallowed hvalue hget hpeer hkey later
    have hovertaken : Overtaken slot.identity ((Ingress.onInvalidate _ f source choice).run later) :=
      (onInvalidate_overtakes hbound hallowed hvalue hget hpeer hkey).run
    refine ⟨hovertaken.unanswered,?_⟩
    intro f' slot' hget' hi source' now' choice'
    rw [← hi] at hovertaken
    exact hovertaken.cache hget' source' now' choice'
  · intro f source now choice
    exact (response_cases _ f source now choice).2
  · intro f slot hget source now choice hsource
    exact response_foreign hget hsource
  · intro event peer key hpeer
    exact next_spared hbound hpeer key
  · intro p q key key' h
    exact resolveCacheKey_inj h

/- The invalidation comes over another connection of the same directory. -/
theorem invalidation_beats_response_crossing :
    Refused 0 ((((Ingress.start .insecureDevelopment (fun _ => ⟨.mutualTls,"dir"⟩) ResolveCache.new).run
      [.register 1 "n1" 0 7]).onInvalidate
        ⟨Link.newHeader FrameType.invalidate 0,"n1",responseKey,[1,2,0,110,49,5,0,0,0,0,0,0,0]⟩ 2 0).run
      [.register 1 "n1" 0 8]) :=
  (invalidation_beats_response .insecureDevelopment (fun _ => ⟨.mutualTls,"dir"⟩) ResolveCache.new
    [.register 1 "n1" 0 7]).1.overtaken ⟨Link.newHeader FrameType.invalidate 0,"n1",responseKey,
      [1,2,0,110,49,5,0,0,0,0,0,0,0]⟩ 2 0 ⟨"n1",5⟩ 7 ⟨0,1,"n1",resolveCacheKey ⟨.mutualTls,"dir"⟩ "n1",0,false⟩
    (by decide +kernel) (by decide +kernel) (by decide +kernel) rfl rfl [.register 1 "n1" 0 8]

end Parrot.Resolve
