import Parrot.Lib.Slots
import Parrot.Link.Sender

/-! # Pending callbacks (`registry.rs:12-210`, `ref_.rs:300-330`, `transport.rs:862-872`)

A request that waits for a reply has a slot in the registry and a guard that removes the
slot when the request is over, however it ends. -/

namespace Parrot.Link
open Machine Parrot.Wire Slots
open Bincode (Bytes)

inductive ReplyPayload where
  | ok (bytes : Bytes) (typeKey : String)
  | err (code : ErrCode) (detail : String)
  deriving DecidableEq

inductive RemoteError where
  | transport (detail : String)
  | callbacksFull (capacity : ℕ)

/-- `ticket` is the identity of the one-shot channel `tx`: no two registrations share one. -/
structure CallbackSlot where
  ticket : ℕ
  node : String
  connection : Option FrameSender
  deriving DecidableEq

/-- A guard knows the id it was made for and no more. `ticket` says which registration made it. -/
structure PendingCallback where
  ticket : ℕ
  cid : UInt64
  deriving DecidableEq

inductive PayloadSource where
  | reply («from» : FrameSender)
  | disconnect (connection : FrameSender)
  | shutdown
  deriving DecidableEq

/-- How a slot left the table: its channel got a payload, or a guard dropped it. -/
inductive Ending where
  | payload (source : PayloadSource) (payload : ReplyPayload)
  | dropped (guard : ℕ)
  deriving DecidableEq

def bound (connection : FrameSender) (slot : CallbackSlot) : Bool :=
  slot.connection.any fun owner => owner.sameConnection connection

/-- A payload comes from the slot's own connection or from the shutdown of the system, and a
slot is dropped by its own guard. -/
def Ending.Rightful (slot : CallbackSlot) : Ending → Prop
  | .payload (.reply «from») _ => bound «from» slot=true
  | .payload (.disconnect connection) _ => bound connection slot=true
  | .payload .shutdown _ => True
  | .dropped guard => guard=slot.ticket

/-- `endings` and `failed` only record what happened. -/
structure CallbackRegistry where
  capacity : ℕ
  slots : Table UInt64 CallbackSlot
  closed : ℕ → Bool
  guards : List PendingCallback
  registered : ℕ
  endings : List (CallbackSlot × Ending)
  failed : List ℕ

namespace CallbackRegistry

def new (capacity : ℕ) : CallbackRegistry := ⟨capacity,[],fun _ => false,[],0,[],[]⟩

def insertSlot (r : CallbackRegistry) (cid : UInt64) (node : String) (connection : Option FrameSender) :
    Except RemoteError CallbackRegistry :=
  if (get r.slots cid).isSome then .error (.transport "duplicate correlation id")
  else if r.slots.length≥r.capacity then .error (.callbacksFull r.capacity)
  else if connection.any fun c => r.closed c.connection then .error (.transport "connection already closed")
  else .ok {r with
    slots := (cid,⟨r.registered,node,connection⟩)::r.slots
    registered := r.registered+1}

def insertOn (r : CallbackRegistry) (cid : UInt64) (node : String) (connection : FrameSender) :
    Except RemoteError CallbackRegistry :=
  r.insertSlot cid node (some connection)

/-- A request registers and takes its guard with no wait in between. -/
def request (r : CallbackRegistry) (cid : UInt64) (node : String) (connection : FrameSender) :
    Except RemoteError CallbackRegistry := do
  let r' ← r.insertOn cid node connection
  return {r' with guards:=⟨r.registered,cid⟩::r'.guards}

/-- The slots of `p` leave the table. -/
def drain (r : CallbackRegistry) (p : UInt64 × CallbackSlot → Bool) (ending : Ending) : CallbackRegistry :=
  {r with
    slots := without r.slots p
    endings := r.endings++(r.slots.filter p).map fun e => (e.2,ending)}

def completeFrom (r : CallbackRegistry) (cid : UInt64) (payload : ReplyPayload) («from» : FrameSender) :
    CallbackRegistry × Bool :=
  match get r.slots cid with
  | none => (r,false)
  | some slot =>
    if bound «from» slot then (r.drain (fun e => e.1=cid) (.payload (.reply «from») payload),true)
    else (r,false)

def failConnection (r : CallbackRegistry) (connection : FrameSender) (code : ErrCode) (detail : String) :
    CallbackRegistry :=
  r.drain (fun e => bound connection e.2) (.payload (.disconnect connection) (.err code detail))

def failAll (r : CallbackRegistry) (code : ErrCode) (detail : String) : CallbackRegistry :=
  r.drain (fun _ => true) (.payload .shutdown (.err code detail))

def dropGuard (r : CallbackRegistry) (guard : PendingCallback) : CallbackRegistry :=
  {r.drain (fun e => e.1=guard.cid) (.dropped guard.ticket) with guards:=r.guards.erase guard}

def close (r : CallbackRegistry) (connection : ℕ) : CallbackRegistry :=
  {r with closed:=Function.update r.closed connection true}

inductive Event where
  | request (cid : UInt64) (node : String) (connection : FrameSender)
  | reply (cid : UInt64) (payload : ReplyPayload) («from» : FrameSender)
  | close (connection : ℕ)
  /- The driver reports the end of a connection after it has closed it. -/
  | disconnected (connection : FrameSender)
  /- A request is over: answered, failed, timed out or cancelled. -/
  | dropGuard (guard : PendingCallback)
  | shutdown
  /- A hash map may be walked in any order. -/
  | reorder (slots : Table UInt64 CallbackSlot)

def step (r : CallbackRegistry) : Event → CallbackRegistry
  | .request cid node connection =>
    match r.request cid node connection with
    | .ok r' => r'
    | .error _ => r
  | .reply cid payload «from» => (r.completeFrom cid payload «from»).1
  | .close connection => r.close connection
  | .disconnected connection =>
    if r.closed connection.connection then
      {r.failConnection connection .connectionLost "connection lost" with
        failed := connection.connection::r.failed}
    else r
  | .dropGuard guard => if guard∈r.guards then r.dropGuard guard else r
  | .shutdown => r.failAll .connectionLost "system shutdown"
  | .reorder slots => if slots.Perm r.slots then {r with slots:=slots} else r

def run (r : CallbackRegistry) (events : List Event) : CallbackRegistry := events.foldl step r

/-- A request does not take the id of a guard that is still alive. -/
def FreshId (r : CallbackRegistry) : Event → Prop
  | .request cid _ _ => ∀ guard∈r.guards, guard.cid≠cid
  | _ => True

def FreshIds (r : CallbackRegistry) : List Event → Prop
  | [] => True
  | e::events => r.FreshId e ∧ (r.step e).FreshIds events

structure Inv (r : CallbackRegistry) : Prop where
  balanced : Balanced CallbackSlot.ticket r.registered r.slots (r.endings.map fun x => x.1.ticket)
  rightful : ∀ x∈r.endings, x.2.Rightful x.1
  guarded : ∀ e∈r.slots, ⟨e.2.ticket,e.1⟩∈r.guards
  guardIds : (r.guards.map PendingCallback.cid).Nodup
  guardTickets : (r.guards.map PendingCallback.ticket).Nodup
  guardsOld : ∀ guard∈r.guards, guard.ticket < r.registered
  failedClosed : ∀ c∈r.failed, r.closed c=true
  failedGone : ∀ c∈r.failed, ∀ e∈r.slots, ∀ connection, e.2.connection=some connection → connection.connection≠c
  capacity : r.slots.length ≤ r.capacity

variable {r r' : CallbackRegistry}

theorem new_inv (capacity : ℕ) : Inv (new capacity) where
  balanced := .empty
  rightful _ hx := absurd hx List.not_mem_nil
  guarded _ he := absurd he List.not_mem_nil
  guardIds := List.nodup_nil
  guardTickets := List.nodup_nil
  guardsOld _ hg := absurd hg List.not_mem_nil
  failedClosed _ hc := absurd hc List.not_mem_nil
  failedGone _ hc := absurd hc List.not_mem_nil
  capacity := Nat.zero_le _

theorem drain_inv (hi : Inv r) {p : UInt64 × CallbackSlot → Bool} {ending : Ending}
    (hending : ∀ e∈r.slots, p e=true → ending.Rightful e.2) : Inv (r.drain p ending) where
  balanced := by
    simp only [drain,List.map_append,List.map_map]
    exact hi.balanced.settle p
  rightful x hx := by
    rcases List.mem_append.mp hx with hx | hx
    · exact hi.rightful x hx
    · obtain ⟨e,he,rfl⟩:=List.mem_map.mp hx
      obtain ⟨he,hp⟩:=List.mem_filter.mp he
      exact hending e he hp
  guarded e he := hi.guarded e (mem_without.mp he).1
  guardIds := hi.guardIds
  guardTickets := hi.guardTickets
  guardsOld := hi.guardsOld
  failedClosed := hi.failedClosed
  failedGone c hc e he := hi.failedGone c hc e (mem_without.mp he).1
  capacity := (List.length_filter_le ..).trans hi.capacity

variable {connection : FrameSender}

theorem insertOn_ok {cid : UInt64} {node : String}
    (h : r.insertOn cid node connection=.ok r') : get r.slots cid=none ∧ r.slots.length < r.capacity ∧
      r.closed connection.connection=false ∧ r'={r with
        slots := (cid,⟨r.registered,node,some connection⟩)::r.slots
        registered := r.registered+1} := by
  unfold insertOn insertSlot at h
  split at h
  · contradiction
  · next hid =>
    split at h
    · contradiction
    · next hroom =>
      split at h
      · contradiction
      · next hopen => exact ⟨by simpa using hid,not_le.mp hroom,by simpa using hopen,(Except.ok.inj h).symm⟩

theorem request_ok {cid : UInt64} {node : String}
    (h : r.request cid node connection=.ok r') : get r.slots cid=none ∧ r.slots.length < r.capacity ∧
      r.closed connection.connection=false ∧ r'={r with
        slots := (cid,⟨r.registered,node,some connection⟩)::r.slots
        registered := r.registered+1
        guards := ⟨r.registered,cid⟩::r.guards} := by
  unfold request at h
  cases hins : r.insertOn cid node connection with
  | error e =>
    rw [hins] at h
    contradiction
  | ok k =>
    rw [hins] at h
    obtain ⟨hid,hroom,hopen,rfl⟩:=insertOn_ok hins
    exact ⟨hid,hroom,hopen,(Except.ok.inj h).symm⟩

section
variable (hi : Inv r)
include hi

theorem request_inv {cid : UInt64} {node : String}
    (hfresh : r.FreshId (.request cid node connection)) (h : r.request cid node connection=.ok r') : Inv r' := by
  obtain ⟨hid,hroom,hopen,rfl⟩:=request_ok h
  constructor
  · exact hi.balanced.accept hid rfl
  · exact hi.rightful
  · intro e he
    rcases List.mem_cons.mp he with rfl | he
    · exact List.mem_cons_self ..
    · exact List.mem_cons_of_mem _ (hi.guarded e he)
  · apply List.nodup_cons.mpr ⟨?_,hi.guardIds⟩
    intro hmem
    obtain ⟨guard,hguard,heq⟩:=List.mem_map.mp hmem
    exact hfresh guard hguard heq
  · apply List.nodup_cons.mpr ⟨?_,hi.guardTickets⟩
    intro hmem
    obtain ⟨guard,hguard,heq⟩:=List.mem_map.mp hmem
    exact absurd heq (hi.guardsOld guard hguard).ne
  · intro guard hguard
    rcases List.mem_cons.mp hguard with rfl | hguard
    · exact Nat.lt_succ_self _
    · exact (hi.guardsOld guard hguard).trans (Nat.lt_succ_self _)
  · exact hi.failedClosed
  · intro c hc e he connection' hconnection
    rcases List.mem_cons.mp he with rfl | he
    -- a connection that has failed is closed, and this one was open
    · rintro rfl
      cases hconnection
      exact absurd (hopen.symm.trans (hi.failedClosed _ hc)) Bool.false_ne_true
    · exact hi.failedGone c hc e he connection' hconnection
  · exact hroom

theorem completeFrom_inv (cid : UInt64) (payload : ReplyPayload) («from» : FrameSender) :
    Inv (r.completeFrom cid payload «from»).1 := by
  unfold completeFrom
  cases hget : get r.slots cid with
  | none => exact hi
  | some slot =>
    dsimp only
    split
    · next hbound =>
      apply drain_inv hi
      intro e he hid
      have heq:=get_of_mem (s := e.2) hi.balanced.ids_nodup he
      rw [of_decide_eq_true hid,hget] at heq
      cases heq
      exact hbound
    · exact hi

theorem disconnected_inv (hclosed : r.closed connection.connection=true) :
    Inv {r.failConnection connection .connectionLost "connection lost" with
      failed := connection.connection::r.failed} := by
  have hd : Inv (r.failConnection connection .connectionLost "connection lost") := drain_inv hi fun e he hp => hp
  refine ⟨hd.balanced,hd.rightful,hd.guarded,hd.guardIds,hd.guardTickets,hd.guardsOld,?_,?_,hd.capacity⟩
  · intro c hc
    rcases List.mem_cons.mp hc with rfl | hc
    · exact hclosed
    · exact hi.failedClosed c hc
  · intro c hc e he connection' hconnection
    rcases List.mem_cons.mp hc with rfl | hc
    · have hp:=(mem_without.mp he).2
      simpa [bound,hconnection,FrameSender.sameConnection] using hp
    · exact hd.failedGone c hc e he connection' hconnection

theorem guard_slot {guard : PendingCallback} (hguard : guard∈r.guards)
    {e : UInt64 × CallbackSlot} (he : e∈r.slots) (hid : e.1=guard.cid) : guard.ticket=e.2.ticket := by
  have heq:=List.inj_on_of_nodup_map hi.guardIds (hi.guarded e he) hguard hid
  rw [← heq]

theorem dropGuard_inv {guard : PendingCallback} (hguard : guard∈r.guards) : Inv (r.dropGuard guard) := by
  have hd : Inv (r.drain (fun e => e.1=guard.cid) (.dropped guard.ticket)) :=
    drain_inv hi fun e he hid => guard_slot hi hguard he (of_decide_eq_true hid)
  refine ⟨hd.balanced,hd.rightful,?_,?_,?_,?_,hd.failedClosed,hd.failedGone,hd.capacity⟩
  · intro e he
    apply (List.mem_erase_of_ne ?_).mpr (hd.guarded e he)
    rintro rfl
    exact absurd (mem_without.mp he).2 (by simp)
  · exact hi.guardIds.sublist (List.erase_sublist.map _)
  · exact hi.guardTickets.sublist (List.erase_sublist.map _)
  · exact fun g hg => hi.guardsOld g (List.mem_of_mem_erase hg)

theorem step_inv {e : Event} (hfresh : r.FreshId e) : Inv (r.step e) := by
  cases e with
  | request cid node connection =>
    simp only [step]
    split
    · next h => exact request_inv hi hfresh h
    · exact hi
  | reply cid payload «from» => exact completeFrom_inv hi cid payload «from»
  | close connection =>
    refine ⟨hi.balanced,hi.rightful,hi.guarded,hi.guardIds,hi.guardTickets,hi.guardsOld,?_,hi.failedGone,hi.capacity⟩
    intro c hc
    by_cases heq : c=connection
    · rw [heq]
      exact Function.update_self ..
    · exact (Function.update_of_ne heq ..).trans (hi.failedClosed c hc)
  | disconnected connection =>
    simp only [step]
    split
    · next hclosed => exact disconnected_inv hi hclosed
    · exact hi
  | dropGuard guard =>
    simp only [step]
    split
    · next hguard => exact dropGuard_inv hi hguard
    · exact hi
  | shutdown => exact drain_inv hi fun _ _ _ => trivial
  | reorder slots =>
    simp only [step]
    split
    · next hp =>
      exact ⟨hi.balanced.reorder hp,hi.rightful,fun e he => hi.guarded e (hp.mem_iff.mp he),hi.guardIds,
        hi.guardTickets,hi.guardsOld,hi.failedClosed,fun c hc e he => hi.failedGone c hc e (hp.mem_iff.mp he),
        hp.length_eq.le.trans hi.capacity⟩
    · exact hi

theorem run_inv {events : List Event} (hfresh : r.FreshIds events) : Inv (r.run events) := by
  induction events generalizing r with
  | nil => exact hi
  | cons e events ih => exact ih (step_inv hi hfresh.1) hfresh.2

end

def peer : FrameSender := ⟨7,0,0,maxFrameLen⟩

def apart : List Event :=
  [.request 1 "n" peer,.reply 1 (.ok [] "k") peer,.dropGuard ⟨0,1⟩,.request 1 "n" peer]

end CallbackRegistry

end Parrot.Link
