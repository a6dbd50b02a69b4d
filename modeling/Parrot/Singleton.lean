import Mathlib.Order.Lattice

/-! # The singleton's lease (`singleton.rs:13-155`)

One candidate's view of who holds the lease and until when. -/

namespace Parrot.Singleton

structure LeaseParams where
  lease : ℕ
  renewInterval : ℕ

structure Candidate where
  node : String
  seq : ℕ
  deriving DecidableEq

inductive SingletonState where
  | vacant
  | leader
  | follower

inductive SingletonTransition where
  | acquired (c : Candidate)
  | steppedDown (c : Candidate)

structure SingletonLease where
  params : LeaseParams
  me : Candidate
  holder : Option (Candidate × ℕ)
  floorSeq : ℕ
  state : SingletonState

namespace SingletonLease

def new (me : Candidate) (params : LeaseParams) : SingletonLease := ⟨params,me,none,0,.vacant⟩

/-- A holder whose lease ran out leaves only its sequence number. -/
def expire (l : SingletonLease) (now : ℕ) : SingletonLease :=
  match l.holder with
  | some (c,expiry) =>
    if now≥expiry then {l with floorSeq:=max l.floorSeq c.seq,holder:=none,state:=.vacant} else l
  | none => l

/-- `tick` after the expiry. -/
def advance (l : SingletonLease) (now : ℕ) (quorumOk : Bool) : Option SingletonTransition × SingletonLease :=
  match l.state with
  | .leader =>
    if quorumOk then (none,{l with holder:=l.holder.map fun h => (h.1,now+l.params.lease)})
    else (some (.steppedDown l.me),{l with holder:=none,state:=.vacant})
  | _ =>
    if quorumOk ∧ l.holder.isNone ∧ l.me.seq>l.floorSeq then
      (some (.acquired l.me),{l with holder:=some (l.me,now+l.params.lease),state:=.leader})
    else (none,l)

def tick (l : SingletonLease) (now : ℕ) (quorumOk : Bool) : Option SingletonTransition × SingletonLease :=
  (l.expire now).advance now quorumOk

def take (l : SingletonLease) (now : ℕ) (holder : Candidate) : SingletonLease :=
  {l with
    floorSeq := max l.floorSeq holder.seq
    holder := some (holder,now+l.params.lease)
    state := if holder=l.me then .leader else .follower}

def observe (l : SingletonLease) (now : ℕ) (holder : Candidate) : SingletonLease :=
  match l.holder with
  | some (cur,_) => if cur.seq≥holder.seq then l else l.take now holder
  | none => l.take now holder

end SingletonLease

inductive LeaseEvent where
  | observe (now : ℕ) (holder : Candidate)
  | tick (now : ℕ) (quorumOk : Bool)

def LeaseEvent.now : LeaseEvent → ℕ
  | .observe now _ => now
  | .tick now _ => now

/-- A lease with the time of its last event and of the last observation of `c`. -/
structure Watched where
  lease : SingletonLease
  now : ℕ
  heard : Option ℕ

def Watched.next (c : Candidate) (w : Watched) : LeaseEvent → Watched
  | .observe now holder => ⟨w.lease.observe now holder,now,if holder=c then some now else w.heard⟩
  | .tick now quorumOk => ⟨(w.lease.tick now quorumOk).2,now,w.heard⟩

/-- Time does not go back, and no lease interval has passed since `c` was heard. -/
def Timely (w : Watched) (ev : LeaseEvent) : Prop :=
  w.now≤ev.now ∧ ∀ t, w.heard=some t → ev.now<t+w.lease.params.lease

/-- An observation of `c` is taken over, or the known holder is another one that `me`
could not succeed. -/
def Heeded (c : Candidate) (w : Watched) (ev : LeaseEvent) : Prop :=
  ∀ now, ev=.observe now c → ∀ cur expiry, w.lease.holder=some (cur,expiry) → c.seq≤cur.seq →
    cur≠w.lease.me ∧ w.lease.me.seq≤cur.seq

/-- The lease is acquired although `c` was heard. -/
def Displaced (w : Watched) (ev : LeaseEvent) : Prop :=
  w.heard.isSome ∧ ∃ now quorumOk, ev=.tick now quorumOk ∧ (w.lease.tick now quorumOk).1=some (.acquired w.lease.me)

/-- `P` holds of every event where it happens. -/
def Along (c : Candidate) (P : Watched → LeaseEvent → Prop) : Watched → List LeaseEvent → Prop
  | _,[] => True
  | w,ev::events => P w ev ∧ Along c P (w.next c ev) events

def Watched.start (me : Candidate) (params : LeaseParams) (now : ℕ) : Watched := ⟨.new me params,now,none⟩

def Held (l : SingletonLease) (deadline : ℕ) : Prop :=
  l.me.seq≤l.floorSeq ∨
  ∃ x expiry, l.holder=some (x,expiry) ∧ x≠l.me ∧ (deadline≤expiry ∨ l.me.seq≤x.seq)

structure WatchedOk (w : Watched) : Prop where
  leads : w.lease.state=.leader → ∃ expiry, w.lease.holder=some (w.lease.me,expiry)
  past : ∀ t, w.heard=some t → t≤w.now
  held : ∀ t, w.heard=some t → Held w.lease (t+w.lease.params.lease)

section lease
variable {l : SingletonLease} {deadline now : ℕ}

theorem start_ok (me : Candidate) (params : LeaseParams) (now : ℕ) : WatchedOk (.start me params now) where
  leads := fun h => nomatch h
  past := fun _ h => nomatch h
  held := fun _ h => nomatch h

theorem expire_held (h : Held l deadline) (hnow : now<deadline) : Held (l.expire now) deadline := by
  unfold SingletonLease.expire
  rcases h with h | ⟨x,expiry,hx,hne,hlater⟩
  · split
    · split
      · exact .inl (h.trans (le_max_left ..))
      · exact .inl h
    · exact .inl h
  · rw [hx]
    dsimp only
    split
    · rename_i hexpired
      rcases hlater with hlater | hseq
      · omega
      · exact .inl (hseq.trans (le_max_right ..))
    · exact .inr ⟨x,expiry,hx,hne,hlater⟩

theorem expire_leads (h : l.state=.leader → ∃ expiry, l.holder=some (l.me,expiry)) :
    (l.expire now).state=.leader → ∃ expiry, (l.expire now).holder=some ((l.expire now).me,expiry) := by
  unfold SingletonLease.expire
  split
  · split
    · intro hstate
      contradiction
    · exact h
  · exact h

theorem expire_fixed (l : SingletonLease) (now : ℕ) : (l.expire now).me=l.me ∧ (l.expire now).params=l.params := by
  unfold SingletonLease.expire
  split
  · split
    · exact ⟨rfl,rfl⟩
    · exact ⟨rfl,rfl⟩
  · exact ⟨rfl,rfl⟩

theorem advance_fixed (l : SingletonLease) (now : ℕ) (quorumOk : Bool) :
    (l.advance now quorumOk).2.me=l.me ∧ (l.advance now quorumOk).2.params=l.params := by
  unfold SingletonLease.advance
  split
  · split
    · exact ⟨rfl,rfl⟩
    · exact ⟨rfl,rfl⟩
  · split
    · exact ⟨rfl,rfl⟩
    · exact ⟨rfl,rfl⟩

theorem advance_leads (h : l.state=.leader → ∃ expiry, l.holder=some (l.me,expiry)) (quorumOk : Bool) :
    (l.advance now quorumOk).2.state=.leader →
      ∃ expiry, (l.advance now quorumOk).2.holder=some ((l.advance now quorumOk).2.me,expiry) := by
  unfold SingletonLease.advance
  split
  · rename_i hstate
    obtain ⟨expiry,hholder⟩:=h hstate
    split
    · intro _
      exact ⟨now+l.params.lease,by rw [hholder]; rfl⟩
    · intro hvacant
      contradiction
  · split
    · intro _
      exact ⟨_,rfl⟩
    · exact h

section
variable (hleads : l.state=.leader → ∃ expiry, l.holder=some (l.me,expiry))
include hleads

theorem advance_held (h : Held l deadline)
    (quorumOk : Bool) : (l.advance now quorumOk).1≠some (.acquired l.me) ∧ Held (l.advance now quorumOk).2 deadline := by
  unfold SingletonLease.advance
  split
  · rename_i hstate
    -- the leader's own lease is no one else's, so only the floor can hold
    obtain ⟨expiry,hholder⟩:=hleads hstate
    have hfloor : l.me.seq≤l.floorSeq := by
      rcases h with h | ⟨x,e,hx,hne,-⟩
      · exact h
      · rw [hholder] at hx
        exact absurd (congrArg Prod.fst (Option.some.inj hx)).symm hne
    split
    · exact ⟨by simp,.inl hfloor⟩
    · exact ⟨by simp,.inl hfloor⟩
  · have hbarred : ¬ (quorumOk=true ∧ l.holder.isNone=true ∧ l.me.seq>l.floorSeq) := by
      intro hcan
      rcases h with h | ⟨x,e,hx,-⟩
      · exact absurd hcan.2.2 (not_lt.mpr h)
      · rw [hx] at hcan
        exact absurd hcan.2.1 (by simp)
    rw [if_neg hbarred]
    exact ⟨by simp,h⟩

theorem tick_held (h : Held l deadline) (hnow : now<deadline) (quorumOk : Bool) :
    (l.tick now quorumOk).1≠some (.acquired l.me) ∧ Held (l.tick now quorumOk).2 deadline := by
  have hadvance:=@advance_held (l.expire now) deadline now (expire_leads hleads) (expire_held h hnow) quorumOk
  rw [(expire_fixed l now).1] at hadvance
  exact hadvance

end

theorem observe_leads (h : l.state=.leader → ∃ expiry, l.holder=some (l.me,expiry)) (x : Candidate) :
    (l.observe now x).state=.leader → ∃ expiry, (l.observe now x).holder=some ((l.observe now x).me,expiry) := by
  have htake : (l.take now x).state=.leader → ∃ expiry, (l.take now x).holder=some ((l.take now x).me,expiry) := by
    unfold SingletonLease.take
    intro hstate
    dsimp only at hstate ⊢
    split at hstate
    · rename_i heq
      exact ⟨_,by rw [heq]⟩
    · contradiction
  unfold SingletonLease.observe
  split
  · split
    · exact h
    · exact htake
  · exact htake

theorem observe_fixed (l : SingletonLease) (now : ℕ) (x : Candidate) :
    (l.observe now x).me=l.me ∧ (l.observe now x).params=l.params := by
  unfold SingletonLease.observe
  split
  · split
    · exact ⟨rfl,rfl⟩
    · exact ⟨rfl,rfl⟩
  · exact ⟨rfl,rfl⟩

theorem observe_held (h : Held l deadline) (hlater : deadline≤now+l.params.lease) (x : Candidate) :
    Held (l.observe now x) deadline := by
  have htake : Held (l.take now x) deadline := by
    by_cases hme : x=l.me
    · exact .inl (hme ▸ le_max_right ..)
    · exact .inr ⟨x,_,rfl,hme,.inl hlater⟩
  unfold SingletonLease.observe
  split
  · split
    · exact h
    · exact htake
  · exact htake

theorem observe_heeded {c : Candidate} (hne : c≠l.me) (hheed : ∀ cur expiry, l.holder=some (cur,expiry) →
    c.seq≤cur.seq → cur≠l.me ∧ l.me.seq≤cur.seq) : Held (l.observe now c) (now+l.params.lease) := by
  have htake : Held (l.take now c) (now+l.params.lease) := .inr ⟨c,_,rfl,hne,.inl le_rfl⟩
  unfold SingletonLease.observe
  split
  · rename_i cur expiry hholder
    split
    · rename_i hdropped
      obtain ⟨hother,hseq⟩:=hheed cur expiry hholder hdropped
      exact .inr ⟨cur,expiry,hholder,hother,.inr hseq⟩
    · exact htake
  · exact htake

end lease

section run
variable {c : Candidate} {w : Watched} {ev : LeaseEvent}

theorem next_fixed (c : Candidate) (w : Watched) (ev : LeaseEvent) :
    (w.next c ev).lease.me=w.lease.me ∧ (w.next c ev).lease.params=w.lease.params := by
  cases ev with
  | observe now x => exact observe_fixed w.lease now x
  | tick now quorumOk =>
    obtain ⟨hme,hparams⟩:=advance_fixed (w.lease.expire now) now quorumOk
    obtain ⟨hme',hparams'⟩:=expire_fixed w.lease now
    exact ⟨hme.trans hme',hparams.trans hparams'⟩

theorem next_ok (hne : c≠w.lease.me) (h : WatchedOk w) (htimely : Timely w ev) (hheed : Heeded c w ev) :
    ¬ Displaced w ev ∧ WatchedOk (w.next c ev) := by
  obtain ⟨hnow,hfresh⟩:=htimely
  have hparams:=(next_fixed c w ev).2
  cases ev with
  | observe now x =>
    refine ⟨?_,observe_leads h.leads x,?_,?_⟩
    · intro hd
      obtain ⟨-,_,_,hev,-⟩:=hd
      contradiction
    · intro t ht
      simp only [Watched.next] at ht ⊢
      split at ht
      · exact (Option.some.inj ht).ge
      · exact (h.past t ht).trans hnow
    · intro t ht
      rw [hparams]
      simp only [Watched.next] at ht ⊢
      split at ht
      · rename_i hx
        cases ht
        subst hx
        exact observe_heeded hne (hheed now rfl)
      · have hpast:=(h.past t ht).trans hnow
        exact observe_held (h.held t ht) (Nat.add_le_add_right hpast _) x
  | tick now quorumOk =>
    have htick : ∀ t, w.heard=some t → (w.lease.tick now quorumOk).1≠some (.acquired w.lease.me) ∧
        Held (w.lease.tick now quorumOk).2 (t+w.lease.params.lease) :=
      fun t ht => tick_held h.leads (h.held t ht) (hfresh t ht) quorumOk
    refine ⟨?_,advance_leads (expire_leads h.leads) quorumOk,fun t ht => (h.past t ht).trans hnow,?_⟩
    · intro hd
      obtain ⟨hheard,now',quorumOk',hev,hacquired⟩:=hd
      obtain ⟨t,ht⟩:=Option.isSome_iff_exists.mp hheard
      obtain ⟨rfl,rfl⟩:=LeaseEvent.tick.inj hev
      exact (htick t ht).1 hacquired
    · intro t ht
      rw [hparams]
      exact (htick t ht).2

theorem along_ok {events : List LeaseEvent} (hne : c≠w.lease.me) (h : WatchedOk w)
    (hrun : Along c (fun w ev => Timely w ev ∧ Heeded c w ev) w events) : Along c (fun w ev => ¬ Displaced w ev) w events := by
  induction events generalizing w with
  | nil => trivial
  | cons ev events ih =>
    obtain ⟨⟨htimely,hheed⟩,hrun⟩:=hrun
    obtain ⟨hnot,hnext⟩:=next_ok hne h htimely hheed
    refine ⟨hnot,ih ?_ hnext hrun⟩
    rwa [(next_fixed c w ev).1]

end run

/-- In a run that heeds every observation of `c`, no tick acquires the lease as long as
`c` is heard again in time. -/
theorem renewals_respected (me c : Candidate) (params : LeaseParams) (start : ℕ) (events : List LeaseEvent) (hne : c≠me)
    (hrun : Along c (fun w ev => Timely w ev ∧ Heeded c w ev) (.start me params start) events) :
    Along c (fun w ev => ¬ Displaced w ev) (.start me params start) events :=
  along_ok hne (start_ok me params start) hrun

theorem renewals_respected_below : Along ⟨"a",3⟩ (fun w ev => ¬ Displaced w ev) (.start ⟨"b",2⟩ ⟨10,3⟩ 0)
    [.observe 0 ⟨"a",3⟩,.observe 9 ⟨"a",3⟩,.tick 18 true] := by
  refine renewals_respected ⟨"b",2⟩ ⟨"a",3⟩ ⟨10,3⟩ 0 _ (by decide) ⟨⟨⟨by decide,by simp [Watched.start]⟩,?_⟩,
    ⟨⟨by decide,?_⟩,?_⟩,⟨⟨by decide,?_⟩,?_⟩,trivial⟩
  · intro now _ cur expiry hholder
    contradiction
  · intro t ht
    cases ht
    decide
  · intro now _ cur expiry hholder _
    obtain ⟨rfl,-⟩:=Prod.mk.inj (Option.some.inj hholder)
    decide
  · intro t ht
    cases ht
    decide
  · intro now hev
    contradiction

/-- The holder is heard at 0 and at 9, and displaced at 10. -/
theorem renewal_ignored : Along ⟨"a",3⟩ Timely (.start ⟨"b",5⟩ ⟨10,3⟩ 0)
      [.observe 0 ⟨"a",3⟩,.observe 9 ⟨"a",3⟩,.tick 10 true] ∧
    ¬ Along ⟨"a",3⟩ (fun w ev => ¬ Displaced w ev) (.start ⟨"b",5⟩ ⟨10,3⟩ 0)
      [.observe 0 ⟨"a",3⟩,.observe 9 ⟨"a",3⟩,.tick 10 true] := by
  constructor
  · refine ⟨⟨by decide,by simp [Watched.start]⟩,⟨by decide,?_⟩,⟨by decide,?_⟩,trivial⟩
    · intro t ht
      cases ht
      decide
    · intro t ht
      cases ht
      decide
  · intro h
    exact h.2.2.1 ⟨rfl,10,true,rfl,rfl⟩

end Parrot.Singleton
