import Mathlib.Data.List.Range
import Parrot.Scheduler.Refill

/-! # The ready queue is one priority queue

What lanes, slots and markers are for: a list of pending admissions, of which the oldest of the
better lane is next. -/

namespace Parrot.Scheduler
open List (length_append filter_nil append_nil map_append filter_filter nil_sublist filter_congr range append_assoc)
open Function (update_of_ne update_self update)
open QueueState

/-- `entries` are pending; the lists after `capacity` are history. -/
structure Pending where
  entries : List Entry
  registered : List ℕ
  closed : Bool
  capacity : ℕ
  admitted : List Entry
  popped : List Entry
  removed : List Entry
  dropped : List Entry
  taken : List Entry

namespace Pending

def start (capacity : ℕ) : Pending := ⟨[],[],false,capacity,[],[],[],[],[]⟩

def next (a : Pending) : Option Entry := a.entries.argmin fun e => e.admission.key

def enter (a : Pending) (mailbox : ℕ) (lane : Lane) : Pending :=
  let e : Entry := ⟨mailbox,lane,a.admitted.length⟩
  {a with entries:=a.entries++[e],admitted:=a.admitted++[e]}

def others (mailbox : ℕ) (l : List Entry) : List Entry := l.filter fun e => e.mailbox != mailbox

def own (mailbox : ℕ) (l : List Entry) : List Entry := l.filter fun e => e.mailbox==mailbox

def step (a : Pending) : QueueOp → Pending × QueueOutcome
  | .register mailbox =>
    if a.closed ∨ mailbox∈a.registered then (a,.accepted false)
    else ({a with registered:=mailbox::a.registered},.accepted true)
  | .pushWithLane mailbox lane =>
    if a.closed ∨ a.entries.length≥a.capacity then (a,.accepted false) else (a.enter mailbox lane,.accepted true)
  | .enqueueRegistered mailbox lane =>
    if a.closed ∨ mailbox∉a.registered then (a,.accepted false) else (a.enter mailbox lane,.accepted true)
  | .tryPop =>
    match a.next with
    | none => (a,.popped none)
    | some e => ({a with entries:=a.entries.erase e,popped:=a.popped++[e]},.popped (some e.mailbox))
  | .unregister mailbox =>
    ({a with
      entries := others mailbox a.entries
      registered := a.registered.filter (· ≠ mailbox)
      removed := a.removed++own mailbox a.entries},.done)
  | .closeAndTake =>
    ({a with entries:=[],registered:=[],closed:=true,taken:=a.taken++a.entries},
      .taken (a.entries.map Entry.mailbox))
  | .drop mailbox =>
    ({a with
      entries := others mailbox a.entries
      registered := a.registered.filter (· ≠ mailbox)
      dropped := a.dropped++own mailbox a.entries},.done)
  | .create _ => (a,.done)

def run (a : Pending) : List QueueOp → Pending × List QueueOutcome
  | [] => (a,[])
  | op::ops =>
    let (a,outcome):=a.step op
    let (a,outcomes):=a.run ops
    (a,outcome::outcomes)

end Pending

structure Represents (capacity : ℕ) (r : QueueRun) (a : Pending) : Prop where
  sound : Sound r.alive capacity r.state
  full : Full capacity r.state
  pending : (pendingOf r.alive r.state).Perm a.entries
  nextTicket : r.state.nextTicket=a.admitted.length
  closed : r.state.closed=a.closed
  registered : ∀ id, id∈a.registered ↔ r.alive id=true ∧ r.state.contains id=true
  capacity : a.capacity=capacity

variable {capacity : ℕ} {r : QueueRun} {a : Pending}

theorem start_represents (capacity : ℕ) : Represents capacity .start (.start capacity) where
  sound := new_sound _ capacity
  full h := absurd rfl h
  pending := List.Perm.refl _
  nextTicket := rfl
  closed := rfl
  registered id := by simp [Pending.start,QueueRun.start,QueueState.new,QueueState.contains]
  capacity := rfl

theorem Represents.room (h : Represents capacity r a) : capacity ≤ r.state.len ↔ a.capacity≤a.entries.length := by
  have hlen:=h.pending.length_eq
  have hbounded:=h.sound.bounded
  have hsize : (residentsOf r.state).length=r.state.len := by
    rw [residentsOf,QueueState.len,length_append,Nat.add_comm]
  rw [pendingOf,length_append,hsize] at hlen
  rw [h.capacity]
  by_cases hnil : r.state.markers=[]
  · rw [hnil,filter_nil,List.length_nil] at hlen
    omega
  · have:=h.full hnil
    omega

variable {mailbox : ℕ}

theorem register_represents (h : Represents capacity r a) (halive : r.alive mailbox=true) :
    Represents capacity (r.step capacity (.register mailbox)).1 (a.step (.register mailbox)).1 ∧
      (r.step capacity (.register mailbox)).2=(a.step (.register mailbox)).2 := by
  have hsame : (a.closed=true ∨ mailbox∈a.registered) ↔ (r.state.closed=true ∨ r.state.contains mailbox=true) := by
    rw [h.registered,h.closed,halive]
    simp
  simp only [QueueRun.step,Pending.step,QueueState.register]
  by_cases hno : r.state.closed=true ∨ r.state.contains mailbox=true
  · rw [if_pos hno,if_pos (hsame.mpr hno)]
    exact ⟨h,rfl⟩
  · rw [if_neg hno,if_neg fun hyes => hno (hsame.mp hyes)]
    have hmarkers : markersOf (r.state.registered++[⟨mailbox,none⟩])=r.state.markers := by
      rw [markersOf,List.filterMap_append]
      exact append_nil _
    have hnew : ∀ x∈r.state.registered, x.mailbox≠mailbox := by
      intro x hx heq
      exact hno (.inr (List.any_eq_true.mpr ⟨x,hx,beq_iff_eq.mpr heq⟩))
    have hids : ((r.state.registered++[(⟨mailbox,none⟩ : Registration)]).map Registration.mailbox).Nodup := by
      rw [map_append,List.nodup_append]
      refine ⟨h.sound.ids,List.nodup_singleton _,fun x hx y hy => ?_⟩
      obtain ⟨z,hz,rfl⟩:=List.mem_map.mp hx
      rw [List.mem_singleton.mp hy]
      exact hnew z hz
    refine ⟨⟨?_,?_,?_,h.nextTicket,h.closed,?_,h.capacity⟩,rfl⟩
    · refine h.sound.sublist (List.Sublist.refl _) (List.Sublist.refl _) hids ?_ ?_ rfl
      · show (markersOf _).Sublist _
        rw [hmarkers]
      · show r.state.deferredCount=(markersOf _).length
        rw [hmarkers]
        exact h.sound.count
    · intro hne
      exact h.full fun hnil => hne (hmarkers.trans hnil)
    · show (residentsOf r.state++(markersOf _).filter _).Perm a.entries
      rw [hmarkers]
      exact h.pending
    · intro id
      show id∈mailbox::a.registered ↔ r.alive id=true ∧
        (r.state.registered++[(⟨mailbox,none⟩ : Registration)]).any (fun x => x.mailbox==id)=true
      rw [List.mem_cons,h.registered,List.any_append,Bool.or_eq_true]
      simp only [List.any_cons,List.any_nil,Bool.or_false,beq_iff_eq]
      constructor
      · intro hid
        rcases hid with rfl | hid
        · exact ⟨halive,.inr rfl⟩
        · exact ⟨hid.1,.inl hid.2⟩
      · intro hid
        rcases hid.2 with hin | rfl
        · exact .inr ⟨hid.1,hin⟩
        · exact .inl rfl

theorem Represents.refilled (h : Represents capacity r a) {s : QueueState} (hs : Refilled r.alive capacity r.state s) :
    Represents capacity {r with state:=s} a where
  sound := hs.sound
  full := hs.full
  pending := hs.pending.trans h.pending
  nextTicket := hs.nextTicket.trans h.nextTicket
  closed := hs.closed.trans h.closed
  registered id := by
    rw [h.registered]
    exact and_congr_right fun hid => by rw [hs.contains id hid]
  capacity := h.capacity

variable {lane : Lane}

section
variable (h : Represents capacity r a)
include h

section
variable (halive : r.alive mailbox=true)
include halive

theorem Represents.entered
    (hroom : r.state.len<capacity) :
    Represents capacity
      {r with state:=QueueState.append (r.state.admission lane).2 ⟨mailbox,(r.state.admission lane).1⟩}
      (a.enter mailbox lane) := by
  have hnil : r.state.markers=[] := by
    by_contra hne
    have:=h.full hne
    omega
  let e : Entry := ⟨mailbox,lane,r.state.nextTicket⟩
  let s : QueueState := {r.state with nextTicket:=r.state.nextTicket+1}
  have hissued : ∀ x∈residentsOf r.state++r.state.markers, x.admission.ticket < r.state.nextTicket := h.sound.issued
  have hs : Sound r.alive capacity s :=
    ⟨h.sound.ids,h.sound.count,h.sound.bounded,h.sound.high_lane,h.sound.normal_lane,h.sound.tickets,
      fun x hx => Nat.lt_succ_of_lt (hissued x hx),h.sound.high_sorted,h.sound.normal_sorted,h.sound.behind,h.sound.held⟩
  have hsound : Sound r.alive capacity (s.append e) := by
    refine append_sound hs hroom halive (Nat.lt_succ_self _) ?_ ?_ ?_
    · exact fun x hx _ => hissued x (List.mem_append_left _ hx)
    · intro m hm
      rw [show s.markers=[] from hnil] at hm
      contradiction
    · exact fun x hx => Nat.ne_of_lt (hissued x hx)
  obtain ⟨hreg,-,hticket,hclosed,-⟩:=append_frame s e
  have hmarkers : (s.append e).markers=[] := (append_markers s e).trans hnil
  refine ⟨hsound,fun hne => absurd hmarkers hne,?_,?_,hclosed.trans h.closed,?_,h.capacity⟩
  · show (residentsOf (s.append e)++((s.append e).markers).filter _).Perm (a.entries++[⟨mailbox,lane,a.admitted.length⟩])
    have hpending:=h.pending
    rw [pendingOf,hnil,filter_nil,append_nil] at hpending
    rw [hmarkers,filter_nil,append_nil,← h.nextTicket]
    exact (append_residents s e).trans ((hpending.cons e).trans (List.perm_append_singleton e _).symm)
  · show (s.append e).nextTicket=(a.admitted++[_]).length
    rw [hticket,length_append,← h.nextTicket]
    rfl
  · intro id
    have hsame : (s.append e).contains id=r.state.contains id := by rw [QueueState.contains,hreg]; rfl
    exact (h.registered id).trans (by rw [← hsame]; rfl)

theorem push_represents :
    Represents capacity (r.step capacity (.pushWithLane mailbox lane)).1 (a.step (.pushWithLane mailbox lane)).1 ∧
      (r.step capacity (.pushWithLane mailbox lane)).2=(a.step (.pushWithLane mailbox lane)).2 := by
  have href:=h.refilled (refill_spec h.sound)
  have hsame : (a.closed=true ∨ a.entries.length≥a.capacity) ↔
      ((r.state.refill r.alive capacity).closed=true ∨ (r.state.refill r.alive capacity).len≥capacity) := by
    rw [← href.closed]
    exact or_congr_right href.room.symm
  simp only [QueueRun.step,Pending.step,QueueState.pushWithLane]
  by_cases hno : (r.state.refill r.alive capacity).closed=true ∨ (r.state.refill r.alive capacity).len≥capacity
  · rw [if_pos hno,if_pos (hsame.mpr hno)]
    exact ⟨href,rfl⟩
  · rw [if_neg hno,if_neg fun hyes => hno (hsame.mp hyes)]
    exact ⟨href.entered halive (not_le.mp fun hle => hno (.inr hle)),rfl⟩

theorem Represents.deferred
    (hfull : capacity ≤ r.state.len) (hreg : (⟨mailbox,none⟩ : Registration)∈r.state.registered) :
    Represents capacity
      {r with state := {QueueState.mark (r.state.admission lane).2 mailbox (some (r.state.admission lane).1) with
        deferredCount := r.state.deferredCount+1}} (a.enter mailbox lane) := by
  let e : Entry := ⟨mailbox,lane,r.state.nextTicket⟩
  let s : QueueState := {QueueState.mark (r.state.admission lane).2 mailbox (some (r.state.admission lane).1) with
    deferredCount := r.state.deferredCount+1}
  have hmarkers : s.markers.Perm (e::r.state.markers) := markersOf_set h.sound.ids hreg
  have hissued : ∀ x∈residentsOf r.state++r.state.markers, x.admission.ticket < r.state.nextTicket := h.sound.issued
  have hall : (residentsOf s++s.markers).Perm (e::(residentsOf r.state++r.state.markers)) :=
    (hmarkers.append_left (residentsOf r.state)).trans List.perm_middle
  have hids : (s.registered.map Registration.mailbox).Nodup := by
    have heq : s.registered.map Registration.mailbox=r.state.registered.map Registration.mailbox :=
      ids_mark (r.state.admission lane).2 mailbox (some (r.state.admission lane).1)
    rw [heq]
    exact h.sound.ids
  have hsound : Sound r.alive capacity s := by
    refine ⟨hids,?_,h.sound.bounded,h.sound.high_lane,h.sound.normal_lane,?_,?_,h.sound.high_sorted,
      h.sound.normal_sorted,?_,h.sound.held⟩
    · rw [hmarkers.length_eq,List.length_cons,← h.sound.count]
    · rw [(hall.map _).nodup_iff,List.map_cons,List.nodup_cons]
      refine ⟨?_,h.sound.tickets⟩
      intro hmem
      obtain ⟨x,hx,heq⟩:=List.mem_map.mp hmem
      exact absurd heq (Nat.ne_of_lt (hissued x hx))
    · intro x hx
      show x.admission.ticket < r.state.nextTicket+1
      rcases List.mem_cons.mp (hall.subset hx) with rfl | hx
      · exact Nat.lt_succ_self _
      · exact Nat.lt_succ_of_lt (hissued x hx)
    · intro x hx m hm hlane
      rcases List.mem_cons.mp (hmarkers.subset hm) with rfl | hm
      · exact hissued x (List.mem_append_left _ hx)
      · exact h.sound.behind x hx m hm hlane
  refine ⟨hsound,fun _ => hfull,?_,?_,h.closed,?_,h.capacity⟩
  · show (residentsOf r.state++s.markers.filter fun x => r.alive x.mailbox).Perm
      (a.entries++[⟨mailbox,lane,a.admitted.length⟩])
    have hlive:=hmarkers.filter fun x => r.alive x.mailbox
    rw [List.filter_cons_of_pos (p := fun x : Entry => r.alive x.mailbox) halive] at hlive
    rw [← h.nextTicket]
    exact ((hlive.append_left _).trans List.perm_middle).trans
      ((h.pending.cons e).trans (List.perm_append_singleton e _).symm)
  · show r.state.nextTicket+1=(a.admitted++[_]).length
    rw [length_append,← h.nextTicket]
    rfl
  · intro id
    have hsame : s.contains id=r.state.contains id :=
      contains_mark (r.state.admission lane).2 mailbox (some (r.state.admission lane).1) id
    exact (h.registered id).trans (by rw [← hsame])

end

theorem enqueue_represents (henabled : r.Enabled (.enqueueRegistered mailbox lane)) : Represents capacity
    (r.step capacity (.enqueueRegistered mailbox lane)).1 (a.step (.enqueueRegistered mailbox lane)).1 ∧
    (r.step capacity (.enqueueRegistered mailbox lane)).2=(a.step (.enqueueRegistered mailbox lane)).2 := by
  obtain ⟨halive,hidle⟩:=henabled
  simp only [QueueRun.step,Pending.step,QueueState.enqueueRegistered]
  by_cases hclosed : r.state.closed=true
  · rw [if_pos hclosed,if_pos (Or.inl (h.closed.symm.trans hclosed))]
    exact ⟨h,rfl⟩
  · rw [if_neg hclosed]
    have hopen : ¬ a.closed=true := fun hc => hclosed (h.closed.trans hc)
    have hknown:=h.registered mailbox
    cases hfind : r.state.registered.find? fun x => x.mailbox==mailbox with
    | none =>
      have hnot : mailbox∉a.registered := by
        rw [hknown]
        intro hin
        obtain ⟨x,hx,heq⟩:=List.any_eq_true.mp hin.2
        exact List.find?_eq_none.mp hfind x hx heq
      rw [if_pos (Or.inr hnot)]
      exact ⟨h,rfl⟩
    | some x =>
      have hx : x∈r.state.registered := List.mem_of_find?_eq_some hfind
      have hmailbox : x.mailbox=mailbox := beq_iff_eq.mp (List.find?_some (p := fun x : Registration => x.mailbox==mailbox) hfind)
      have hin : r.state.contains mailbox=true := List.any_eq_true.mpr ⟨x,hx,beq_iff_eq.mpr hmailbox⟩
      have hmem : mailbox∈a.registered := hknown.mpr ⟨halive,hin⟩
      have hfree : ∀ m∈r.state.markers, m.mailbox≠mailbox := fun m hm => hidle hin m (List.mem_append_right _ hm)
      have hgood : ¬ (a.closed=true ∨ mailbox∉a.registered) := by
        intro hbad
        rcases hbad with hbad | hbad
        · exact hopen hbad
        · exact hbad hmem
      rw [if_neg hgood]
      cases hdef : x.deferred with
      | some d =>
        have hmarker : (⟨mailbox,d⟩ : Entry)∈r.state.markers := by
          rw [markers_eq,mem_markersOf,← hmailbox,← hdef]
          exact hx
        exact absurd rfl (hfree _ hmarker)
      | none =>
        have hrefill:=refill_spec h.sound
        have href:=h.refilled hrefill
        have hstill:=hrefill.contains mailbox halive
        rw [hin] at hstill
        obtain ⟨y,hy,heq⟩:=List.any_eq_true.mp hstill
        have hnone : y.deferred=none := by
          cases hdy : y.deferred with
          | none => rfl
          | some d =>
            have hmarker : (⟨y.mailbox,d⟩ : Entry)∈(r.state.refill r.alive capacity).markers := by
              rw [markers_eq,mem_markersOf,← hdy]
              exact hy
            exact absurd (beq_iff_eq.mp heq) (hfree _ (hrefill.markers hmarker))
        have hreg : (⟨mailbox,none⟩ : Registration)∈(r.state.refill r.alive capacity).registered := by
          rw [← beq_iff_eq.mp heq,← hnone]
          exact hy
        dsimp only
        by_cases hroom : ((r.state.refill r.alive capacity).admission lane).2.len<capacity
        · rw [hdef,if_pos hroom]
          exact ⟨href.entered halive hroom,rfl⟩
        · rw [hdef,if_neg hroom]
          exact ⟨href.deferred halive (not_lt.mp hroom) hreg,rfl⟩

theorem pop_represents : Represents capacity (r.step capacity .tryPop).1
    (a.step .tryPop).1 ∧ (r.step capacity .tryPop).2=(a.step .tryPop).2 := by
  obtain ⟨res,s,hpop,hpopped,hspec⟩:=tryPop_spec h.sound h.full
  simp only [QueueRun.step,Pending.step,hpop]
  have hregistered : ∀ id, id∈a.registered ↔ r.alive id=true ∧ s.contains id=true := fun id =>
    (h.registered id).trans (and_congr_right fun hid => by rw [hspec.contains id hid])
  cases hpopped with
  | none hempty hempty' =>
    have hnil : a.entries=[] := by
      have hperm:=h.pending
      rw [hempty] at hperm
      exact hperm.nil_eq.symm
    have hnext : a.next=none := List.argmin_eq_none.mpr hnil
    rw [hnext]
    refine ⟨⟨hspec.sound,hspec.full,?_,hspec.nextTicket.trans h.nextTicket,hspec.closed.trans h.closed,hregistered,
      h.capacity⟩,rfl⟩
    rw [hempty',hnil]
  | @some e hperm hfirst =>
    have he : e∈pendingOf r.alive r.state := hperm.symm.subset (List.mem_cons_self ..)
    cases hnext : a.next with
    | none =>
      have hin:=h.pending.subset he
      rw [List.argmin_eq_none.mp hnext] at hin
      contradiction
    | some e' =>
      have hin : e'∈pendingOf r.alive r.state := h.pending.symm.subset (List.argmin_mem hnext)
      have hle : e'.admission.key≤e.admission.key :=
        List.le_of_mem_argmin (f := fun x : Entry => x.admission.key) (h.pending.subset he) hnext
      have hkey:=key_injective (le_antisymm (hfirst e' hin) hle)
      have hall : ∀ x∈pendingOf r.alive r.state, x∈residentsOf r.state++r.state.markers := by
        intro x hx
        exact List.mem_append.mpr (pending_markers hx)
      obtain rfl : e=e' := h.sound.eq_of_ticket (hall e he) (hall e' hin) (congrArg Admission.ticket hkey)
      refine ⟨⟨hspec.sound,hspec.full,?_,hspec.nextTicket.trans h.nextTicket,hspec.closed.trans h.closed,hregistered,
        h.capacity⟩,rfl⟩
      have herase:=(hperm.symm.trans h.pending).erase e
      rwa [List.erase_cons_head] at herase

end

theorem others_pending (mailbox : ℕ) (l : List Entry) (m : List Entry) :
    Pending.others mailbox (l++m)=Pending.others mailbox l++Pending.others mailbox m := List.filter_append ..

theorem others_markers {s : QueueState} (hids : (s.registered.map Registration.mailbox).Nodup) (mailbox : ℕ) :
    (Pending.others mailbox s.markers).length = if (s.registered.find? fun x => x.mailbox==mailbox).any
    (fun x => x.deferred.isSome) then s.markers.length-1 else s.markers.length := by
  by_cases hmem : ∃ m∈s.markers, m.mailbox=mailbox
  · obtain ⟨m,hm,rfl⟩:=hmem
    rw [find_registration hids (mem_markersOf.mp hm)]
    have hlen:=(markers_take hids hm).length_eq
    rw [List.length_cons] at hlen
    show _=s.markers.length-1
    unfold Pending.others
    omega
  · have hsame : Pending.others mailbox s.markers=s.markers := by
      rw [Pending.others,List.filter_eq_self]
      intro m hm
      rw [bne_iff_ne]
      exact fun heq => hmem ⟨m,hm,heq⟩
    rw [hsame,if_neg]
    intro hany
    cases hfind : s.registered.find? fun x => x.mailbox==mailbox with
    | none =>
      rw [hfind] at hany
      contradiction
    | some x =>
      rw [hfind] at hany
      obtain ⟨d,hd⟩:=Option.isSome_iff_exists.mp hany
      have hx : x∈s.registered := List.mem_of_find?_eq_some hfind
      refine hmem ⟨⟨x.mailbox,d⟩,?_,beq_iff_eq.mp (List.find?_some (p := fun x : Registration => x.mailbox==mailbox) hfind)⟩
      rw [markers_eq,mem_markersOf,← hd]
      exact hx

theorem contains_removed (registered : List Registration) (mailbox : ℕ) :
    (registered.filter fun x => x.mailbox != mailbox).any (fun x => x.mailbox==mailbox)=false := by
  rw [List.any_eq_false]
  intro x hx heq
  have hne:=(List.mem_filter.mp hx).2
  rw [bne_iff_ne] at hne
  exact hne (beq_iff_eq.mp heq)

section
variable (h : Represents capacity r a)
include h

theorem unregister_represents :
    Represents capacity (r.step capacity (.unregister mailbox)).1 (a.step (.unregister mailbox)).1 ∧
      (r.step capacity (.unregister mailbox)).2=(a.step (.unregister mailbox)).2 := by
  refine ⟨?_,rfl⟩
  let wasDeferred:=(r.state.registered.find? fun x => x.mailbox==mailbox).any fun x => x.deferred.isSome
  let s : QueueState := ⟨Pending.others mailbox r.state.normal,Pending.others mailbox r.state.high,
    r.state.registered.filter fun x => x.mailbox != mailbox,
    if wasDeferred then r.state.deferredCount-1 else r.state.deferredCount,r.state.nextTicket,r.state.closed⟩
  have hstate : (r.step capacity (.unregister mailbox)).1={r with state:=s.refill r.alive capacity} := by
    simp only [QueueRun.step,QueueState.unregister,s,wasDeferred]
    split
    · rfl
    · rfl
  have hmarkers : s.markers=Pending.others mailbox r.state.markers := markersOf_remove mailbox
  have hids : (s.registered.map Registration.mailbox).Nodup :=
    List.Nodup.sublist (List.filter_sublist.map _) h.sound.ids
  have hcount : s.deferredCount=s.markers.length := by
    rw [hmarkers]
    show (if wasDeferred then r.state.deferredCount-1 else r.state.deferredCount)=_
    rw [others_markers h.sound.ids,← h.sound.count]
  have hsound : Sound r.alive capacity s :=
    h.sound.sublist List.filter_sublist List.filter_sublist hids (by rw [hmarkers]; exact List.filter_sublist) hcount rfl
  have hrefill:=refill_spec hsound
  rw [hstate]
  refine ⟨hrefill.sound,hrefill.full,hrefill.pending.trans ?_,hrefill.nextTicket.trans h.nextTicket,
    hrefill.closed.trans h.closed,?_,h.capacity⟩
  · have hpending : pendingOf r.alive s=Pending.others mailbox (pendingOf r.alive r.state) := by
      have hlive : (Pending.others mailbox r.state.markers).filter (fun e => r.alive e.mailbox) =
          Pending.others mailbox (r.state.markers.filter fun e => r.alive e.mailbox) := by
        unfold Pending.others
        rw [filter_filter,filter_filter]
        simp only [Bool.and_comm]
      rw [pendingOf,pendingOf,others_pending,hmarkers,hlive,residentsOf,residentsOf,others_pending]
    rw [hpending]
    exact h.pending.filter _
  · intro id
    show id∈a.registered.filter _ ↔ _
    rw [List.mem_filter,h.registered,decide_eq_true_iff]
    by_cases hid : id=mailbox
    · have hgone : s.contains id=false := by
        rw [hid]
        exact contains_removed r.state.registered mailbox
      refine iff_of_false (fun hin => hin.2 hid) fun hin => ?_
      have hstill:=hrefill.contains id hin.1
      rw [hgone] at hstill
      exact absurd hin.2 (by rw [show (QueueState.contains _ id)=false from hstill]; decide)
    · have hsame : s.contains id=r.state.contains id := contains_remove hid
      refine ⟨fun hin => ⟨hin.1.1,?_⟩,fun hin => ⟨⟨hin.1,?_⟩,hid⟩⟩
      · exact (hrefill.contains id hin.1.1).trans (hsame.trans hin.1.2)
      · exact hsame.symm.trans ((hrefill.contains id hin.1).symm.trans hin.2)

theorem close_represents : Represents capacity (r.step capacity .closeAndTake).1
    (a.step .closeAndTake).1 ∧ (r.step capacity .closeAndTake).2=(a.step .closeAndTake).2 := by
  constructor
  · refine ⟨?_,fun hne => absurd rfl hne,List.Perm.refl _,h.nextTicket,rfl,?_,h.capacity⟩
    · exact h.sound.sublist (nil_sublist _) (nil_sublist _) List.nodup_nil (nil_sublist _) rfl rfl
    · intro id
      simp [Pending.step,QueueRun.step,QueueState.closeAndTake,QueueState.contains]
  · have hlive : (r.state.registered.filter fun x => x.deferred.isSome&&r.alive x.mailbox).map Registration.mailbox =
        (r.state.markers.filter fun e => r.alive e.mailbox).map Entry.mailbox := by
      rw [markers_eq]
      induction r.state.registered with
      | nil => rfl
      | cons x registered ih =>
        rw [markersOf_cons,List.filter_append,map_append,← ih]
        cases hx : x.deferred with
        | none => simp [hx]
        | some d =>
          cases halive : r.alive x.mailbox with
          | true | false => simp [hx,halive]
    simp only [QueueRun.step,Pending.step,QueueState.closeAndTake]
    congr 1
    rw [hlive,← map_append,Multiset.coe_eq_coe]
    refine List.Perm.map _ (List.Perm.trans ?_ h.pending)
    exact List.perm_append_comm.append_right _

theorem drop_represents (hfree : r.Enabled (.drop mailbox)) : Represents capacity (r.step capacity (.drop mailbox)).1
    (a.step (.drop mailbox)).1 ∧ (r.step capacity (.drop mailbox)).2=(a.step (.drop mailbox)).2 := by
  have hfree : ∀ e∈residentsOf r.state, e.mailbox≠mailbox := hfree
  refine ⟨⟨?_,h.full,?_,h.nextTicket,h.closed,?_,h.capacity⟩,rfl⟩
  · refine ⟨h.sound.ids,h.sound.count,h.sound.bounded,h.sound.high_lane,h.sound.normal_lane,h.sound.tickets,
      h.sound.issued,h.sound.high_sorted,h.sound.normal_sorted,h.sound.behind,fun e he => ?_⟩
    show update r.alive mailbox false e.mailbox=true
    rw [update_of_ne (hfree e he)]
    exact h.sound.held e he
  · have hpending : pendingOf (update r.alive mailbox false) r.state =
        Pending.others mailbox (pendingOf r.alive r.state) := by
      have hres : Pending.others mailbox (residentsOf r.state)=residentsOf r.state := by
        rw [Pending.others,List.filter_eq_self]
        intro e he
        rw [bne_iff_ne]
        exact hfree e he
      rw [pendingOf,pendingOf,others_pending,hres,Pending.others,filter_filter]
      congr 1
      apply filter_congr
      intro e _
      by_cases he : e.mailbox=mailbox
      · rw [he,update_self]
        simp
      · rw [update_of_ne he]
        simp [he]
    show (pendingOf (update r.alive mailbox false) r.state).Perm (Pending.others mailbox a.entries)
    rw [hpending]
    exact h.pending.filter _
  · intro id
    show id∈a.registered.filter _ ↔ update r.alive mailbox false id=true ∧ _
    rw [List.mem_filter,h.registered,decide_eq_true_iff]
    by_cases hid : id=mailbox
    · rw [hid,update_self]
      simp
    · rw [update_of_ne hid]
      exact ⟨fun hin => hin.1,fun hin => ⟨hin,hid⟩⟩

theorem create_represents (henabled : r.Enabled (.create mailbox)) :
    Represents capacity (r.step capacity (.create mailbox)).1 (a.step (.create mailbox)).1 ∧
      (r.step capacity (.create mailbox)).2=(a.step (.create mailbox)).2 := by
  obtain ⟨hdead,hfree⟩:=henabled
  have hkeep : ∀ id, r.alive id=true → update r.alive mailbox true id=true := by
    intro id hid
    by_cases heq : id=mailbox
    · rw [heq,update_self]
    · rwa [update_of_ne heq]
  refine ⟨⟨?_,h.full,?_,h.nextTicket,h.closed,?_,h.capacity⟩,rfl⟩
  · exact ⟨h.sound.ids,h.sound.count,h.sound.bounded,h.sound.high_lane,h.sound.normal_lane,h.sound.tickets,
      h.sound.issued,h.sound.high_sorted,h.sound.normal_sorted,h.sound.behind,fun e he => hkeep _ (h.sound.held e he)⟩
  · have hpending : pendingOf (update r.alive mailbox true) r.state=pendingOf r.alive r.state := by
      rw [pendingOf,pendingOf]
      congr 1
      apply filter_congr
      intro e he
      rw [update_of_ne]
      intro heq
      have hin : r.state.contains mailbox=true := List.any_eq_true.mpr ⟨_,mem_markersOf.mp he,beq_iff_eq.mpr heq⟩
      rw [hfree] at hin
      contradiction
    show (pendingOf (update r.alive mailbox true) r.state).Perm a.entries
    rw [hpending]
    exact h.pending
  · intro id
    show id∈a.registered ↔ update r.alive mailbox true id=true ∧ r.state.contains id=true
    rw [h.registered]
    by_cases hid : id=mailbox
    · rw [hid,update_self,hdead,hfree]
      simp
    · rw [update_of_ne hid]

theorem step_represents {op : QueueOp} (henabled : r.Enabled op) :
    Represents capacity (r.step capacity op).1 (a.step op).1 ∧ (r.step capacity op).2=(a.step op).2 := by
  cases op with
  | register mailbox => exact register_represents h henabled
  | pushWithLane mailbox lane => exact push_represents h henabled
  | enqueueRegistered mailbox lane => exact enqueue_represents h henabled
  | tryPop => exact pop_represents h
  | unregister mailbox => exact unregister_represents h
  | closeAndTake => exact close_represents h
  | drop mailbox => exact drop_represents h henabled
  | create mailbox => exact create_represents h henabled

theorem run_represents {ops : List QueueOp} (henabled : r.AllEnabled capacity ops) :
    Represents capacity (r.run capacity ops).1 (a.run ops).1 ∧ (r.run capacity ops).2=(a.run ops).2 := by
  induction ops generalizing r a with
  | nil => exact ⟨h,rfl⟩
  | cons op ops ih =>
    obtain ⟨hop,hops⟩:=henabled
    obtain ⟨hstep,hout⟩:=step_represents h hop
    obtain ⟨hrun,houts⟩:=ih hstep hops
    exact ⟨hrun,congrArg₂ List.cons hout houts⟩

end

namespace Pending

def places (a : Pending) : List Entry := a.entries++(a.popped++(a.removed++(a.dropped++a.taken)))

structure Booked (a : Pending) : Prop where
  numbered : a.admitted.map (fun e => e.admission.ticket)=range a.admitted.length
  placed : a.places.Perm a.admitted

theorem start_booked (capacity : ℕ) : (start capacity).Booked := ⟨rfl,List.Perm.refl _⟩

theorem enter_booked (h : a.Booked) (mailbox : ℕ) (lane : Lane) : (a.enter mailbox lane).Booked := by
  let e : Entry := ⟨mailbox,lane,a.admitted.length⟩
  constructor
  · show (a.admitted++[e]).map _=range (a.admitted++[e]).length
    rw [map_append,h.numbered,length_append,List.length_singleton,List.range_succ]
    rfl
  · have hmove : ((a.entries++[e])++(a.popped++(a.removed++(a.dropped++a.taken)))).Perm (a.places++[e]) := by
      rw [places,append_assoc,append_assoc]
      exact List.perm_append_comm.append_left a.entries
    exact hmove.trans (h.placed.append_right [e])

theorem others_own (mailbox : ℕ) (l : List Entry) : (others mailbox l++own mailbox l).Perm l := by
  have hown : own mailbox l=l.filter fun e => !(e.mailbox != mailbox) := by
    apply filter_congr
    intro e _
    rw [bne,Bool.not_not]
  rw [hown]
  exact List.filter_append_perm (fun e : Entry => e.mailbox != mailbox) l

theorem Booked.moved (h : a.Booked) {a' : Pending} (gone : List Entry) (hadmitted : a'.admitted=a.admitted)
    (hplaces : a'.places.Perm (a'.entries++(gone++(a.popped++(a.removed++(a.dropped++a.taken))))))
    (hgone : (a'.entries++gone).Perm a.entries) : a'.Booked := by
  constructor
  · rw [hadmitted]
    exact h.numbered
  · rw [hadmitted]
    refine hplaces.trans (List.Perm.trans ?_ h.placed)
    rw [← append_assoc]
    exact hgone.append_right _

theorem step_booked (h : a.Booked) (op : QueueOp) : (a.step op).1.Booked := by
  cases op with
  | register mailbox =>
    simp only [step]
    split
    · exact h
    · exact ⟨h.numbered,h.placed⟩
  | pushWithLane mailbox lane =>
    simp only [step]
    split
    · exact h
    · exact enter_booked h mailbox lane
  | enqueueRegistered mailbox lane =>
    simp only [step]
    split
    · exact h
    · exact enter_booked h mailbox lane
  | tryPop =>
    simp only [step]
    cases hnext : a.next with
    | none => exact h
    | some e =>
      refine h.moved [e] rfl ?_ ((List.perm_append_singleton e _).trans (List.perm_cons_erase (List.argmin_mem hnext)).symm)
      show (a.entries.erase e++((a.popped++[e])++_)).Perm (a.entries.erase e++([e]++(a.popped++_)))
      rw [append_assoc]
      exact List.perm_middle.append_left _
  | unregister mailbox =>
    refine h.moved (own mailbox a.entries) rfl ?_ (others_own mailbox a.entries)
    show (others mailbox a.entries++(a.popped++((a.removed++own mailbox a.entries)++(a.dropped++a.taken)))).Perm
      (others mailbox a.entries++(own mailbox a.entries++(a.popped++(a.removed++(a.dropped++a.taken)))))
    refine List.Perm.append_left _ ?_
    have hmove : ((a.popped++a.removed)++own mailbox a.entries).Perm (own mailbox a.entries++(a.popped++a.removed)) :=
      List.perm_append_comm
    simpa [append_assoc] using hmove.append_right (a.dropped++a.taken)
  | closeAndTake =>
    refine h.moved a.entries rfl ?_ (List.Perm.refl _)
    show ([]++(a.popped++(a.removed++(a.dropped++(a.taken++a.entries))))).Perm
      ([]++(a.entries++(a.popped++(a.removed++(a.dropped++a.taken)))))
    have hmove : ((a.popped++(a.removed++(a.dropped++a.taken)))++a.entries).Perm
        (a.entries++(a.popped++(a.removed++(a.dropped++a.taken)))) := List.perm_append_comm
    simpa [append_assoc] using hmove
  | drop mailbox =>
    refine h.moved (own mailbox a.entries) rfl ?_ (others_own mailbox a.entries)
    show (others mailbox a.entries++(a.popped++(a.removed++((a.dropped++own mailbox a.entries)++a.taken)))).Perm
      (others mailbox a.entries++(own mailbox a.entries++(a.popped++(a.removed++(a.dropped++a.taken)))))
    refine List.Perm.append_left _ ?_
    have hmove : ((a.popped++(a.removed++a.dropped))++own mailbox a.entries).Perm
        (own mailbox a.entries++(a.popped++(a.removed++a.dropped))) := List.perm_append_comm
    simpa [append_assoc] using hmove.append_right a.taken
  | create mailbox => exact h

theorem run_booked (h : a.Booked) (ops : List QueueOp) : (a.run ops).1.Booked := by
  induction ops generalizing a with
  | nil => exact h
  | cons op ops ih => exact ih (step_booked h op)

end Pending

/-- Every call has the outcome it has on the list of pending admissions: a pop returns the
first of them and none only when there is none, and a refused push changes nothing. -/
theorem queue_refines_pending (capacity : ℕ) (ops : List QueueOp) (henabled : QueueRun.start.AllEnabled capacity ops) :
    let r:=QueueRun.start.run capacity ops
    let a:=(Pending.start capacity).run ops
    r.2=a.2 ∧ r.1.state.len≤capacity ∧ r.1.state.deferredCount=r.1.state.markers.length ∧
    (pendingOf r.1.alive r.1.state).Perm a.1.entries ∧
    (a.1.entries++(a.1.popped++(a.1.removed++(a.1.dropped++a.1.taken)))).Perm a.1.admitted ∧
    (a.1.admitted.map fun e => e.admission.ticket).Nodup := by
  obtain ⟨hrun,houts⟩:=run_represents (start_represents capacity) henabled
  have hbooked:=Pending.run_booked (Pending.start_booked capacity) ops
  refine ⟨houts,hrun.sound.bounded,hrun.sound.count,hrun.pending,hbooked.placed,?_⟩
  rw [hbooked.numbered]
  exact List.nodup_range

def crowdedRun : List QueueOp :=
  [.register 1,.register 2,.register 3,.enqueueRegistered 1 .normal,.enqueueRegistered 2 .normal,
    .enqueueRegistered 3 .high,.tryPop,.drop 2,.tryPop,.tryPop]

theorem crowdedRun_enabled : QueueRun.start.AllEnabled 1 crowdedRun := by
  refine ⟨rfl,rfl,rfl,⟨rfl,fun _ => ?_⟩,⟨rfl,fun _ => ?_⟩,⟨rfl,fun _ => ?_⟩,trivial,?_,trivial,trivial,trivial⟩
  · decide +kernel
  · decide +kernel
  · decide +kernel
  · unfold QueueRun.Enabled
    decide +kernel

theorem queue_refines_pending_crowded : QueueRun.start.AllEnabled 1 crowdedRun ∧
    (QueueRun.start.run 1 crowdedRun).2=((Pending.start 1).run crowdedRun).2 ∧
    (QueueRun.start.run 1 crowdedRun).2=[.accepted true,.accepted true,.accepted true,.accepted true,.accepted true,
    .accepted true,.popped (some 3),.done,.popped (some 1),.popped none] :=
  ⟨crowdedRun_enabled,(queue_refines_pending 1 crowdedRun crowdedRun_enabled).1,by decide +kernel⟩

end Parrot.Scheduler
