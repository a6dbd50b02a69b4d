import Parrot.Mailbox.Mpsc
import Mathlib.Data.List.Nodup
import Mathlib.Data.List.Perm.Basic

/-! # What a mailbox is for

A bounded queue with a door: this is what the mailboxes of `thread/mailbox` show one caller
after another. -/

namespace Parrot.Mailbox

variable {β : Type}

structure Fifo (β : Type) where
  held : List β
  capacity : ℕ
  closed : Bool

inductive Call (β : Type) where
  | push (m : β) (strategy : BackpressureStrategy)
  | pop
  | sealUp
  | close

inductive Answer (β : Type) where
  | pushed (result : Option PushResult)
  | popped (m : Option β)
  | none

namespace Fifo

def new (capacity : UInt64) : Fifo β := ⟨[],max capacity.toNat 1,false⟩

def push (q : Fifo β) (m : β) (strategy : BackpressureStrategy) : Fifo β × PushResult :=
  if q.closed then (q,.err .closed)
  else if q.held.length<q.capacity then ({q with held:=q.held++[m]},.ok)
  else
    match strategy with
    | .dropNewest => (q,.err (.dropped q.capacity))
    | .error => (q,.err (.full q.capacity))
    | .dropOldest => ({q with held:=q.held.tail++[m]},.ok)
    | .block => (q,.waiting)

def step (q : Fifo β) : Call β → Fifo β × Answer β
  | .push m strategy => ((q.push m strategy).1,.pushed (some (q.push m strategy).2))
  | .pop => ({q with held:=q.held.tail},.popped q.held.head?)
  | .sealUp => ({q with closed:=true},.none)
  | .close => ({q with held:=[],closed:=true},.none)

def history (q : Fifo β) : List (Call β) → Fifo β × List (Answer β)
  | [] => (q,[])
  | call::calls => (((q.step call).1.history calls).1,(q.step call).2::((q.step call).1.history calls).2)

def Returns (q : Fifo β) : Call β → Prop
  | .push _ .block => q.closed=false → q.held.length<q.capacity
  | _ => True

def AllReturn (q : Fifo β) : List (Call β) → Prop
  | [] => True
  | call::calls => q.Returns call ∧ (q.step call).1.AllReturn calls

end Fifo

/-- A call has a number; `proceed` takes it through its next section, `wake` is a notification
that it waits for. -/
inductive Act (β : Type) where
  | push (t : ℕ) (m : β) (strategy : BackpressureStrategy)
  | close (t : ℕ)
  | proceed (t : ℕ)
  | wake (t : ℕ)
  | pop
  | sealUp

/-- The messages that came in, with the calls that pushed them, and where they went. `lost` are
the pushes that evicted a message and then failed; `returned` tells that a `close` returned. -/
structure Ledger (β : Type) where
  admitted : List (ℕ × β)
  delivered : List β
  evicted : List β
  disposed : List β
  lost : List ℕ
  returned : Bool

namespace Ledger

def new : Ledger β := ⟨[],[],[],[],[],false⟩

def calls (l : Ledger β) : List ℕ := l.admitted.map Prod.fst

def admits (l : Ledger β) (t : ℕ) (m : β) : Ledger β := {l with admitted:=l.admitted++[(t,m)]}

def deliver (l : Ledger β) (m : Option β) : Ledger β := {l with delivered:=l.delivered++m.toList}

def evict (l : Ledger β) (m : Option β) : Ledger β := {l with evicted:=l.evicted++m.toList}

def dispose (l : Ledger β) (held : List β) : Ledger β := {l with disposed:=l.disposed++held}

/-- A push gives up; the message that it evicted is gone as well. -/
def giveUp (l : Ledger β) (t : ℕ) (evicted : Option β) : Ledger β :=
  {l with lost:=if evicted.isSome then l.lost++[t] else l.lost}

/-- Every message that came in is delivered, evicted, disposed of or held, once. -/
def Balanced (l : Ledger β) (held : List β) : Prop :=
  (l.delivered++l.evicted++l.disposed++held).Perm (l.admitted.map Prod.snd)

variable {l : Ledger β} {held : List β} {t : ℕ} {m : β}

theorem new_balanced : (new : Ledger β).Balanced [] := List.Perm.refl []

section
variable (h : l.Balanced held)
include h

theorem Balanced.admits (t : ℕ) (m : β) : (l.admits t m).Balanced (held++[m]) := by
  unfold Balanced Ledger.admits at *
  rw [← List.append_assoc,List.map_append]
  exact h.append (List.Perm.refl _)

theorem Balanced.deliver : (l.deliver held.head?).Balanced held.tail := by
  cases held with
  | nil => simpa [Balanced,Ledger.deliver] using h
  | cons m rest =>
    refine List.Perm.trans ?_ h
    simp only [Ledger.deliver,List.head?_cons,Option.toList_some,List.tail_cons,List.append_assoc]
    refine List.Perm.append_left _ ?_
    simpa using (@List.perm_middle _ m (l.evicted++l.disposed) rest).symm

theorem Balanced.evict : (l.evict held.head?).Balanced held.tail := by
  cases held with
  | nil => simpa [Balanced,Ledger.evict] using h
  | cons m rest =>
    refine List.Perm.trans ?_ h
    simp only [Ledger.evict,List.head?_cons,Option.toList_some,List.tail_cons,List.append_assoc]
    refine List.Perm.append_left _ (List.Perm.append_left _ ?_)
    simpa using (@List.perm_middle _ m l.disposed rest).symm

theorem Balanced.dispose : (l.dispose held).Balanced [] := by
  simpa [Balanced,Ledger.dispose] using h

end

end Ledger

section turns
variable {κ : Type} {tasks tasks' : ℕ → Option κ} {t : ℕ} {k : κ}

theorem forall_update {P : ℕ → κ → Prop} (htasks : tasks'=Function.update tasks t (some k))
    (hother : ∀ u, u≠t → ∀ stage, tasks u=some stage → P u stage) (hown : P t k) {u : ℕ} {stage : κ}
    (hstage : tasks' u=some stage) : P u stage := by
  by_cases hut : u=t
  · subst hut
    rw [htasks,Function.update_self] at hstage
    rwa [← Option.some.inj hstage]
  · rw [htasks,Function.update_of_ne hut] at hstage
    exact hother u hut stage hstage

theorem calls_update {l l' : Ledger β} {done : κ} (hcalls : l.calls.Nodup) (hended : ∀ u∈l.calls, tasks u=some done)
    (htasks : tasks'=Function.update tasks t (some k)) (hfresh : t∉l.calls) (hnew : l'.calls=l.calls ∨
    l'.calls=l.calls++[t] ∧ k=done) : l'.calls.Nodup ∧ ∀ u∈l'.calls, tasks' u=some done := by
  have hold : ∀ u∈l.calls, tasks' u=some done := by
    intro u hu
    have hut : u≠t := by
      rintro rfl
      exact hfresh hu
    rw [htasks,Function.update_of_ne hut]
    exact hended u hu
  cases hnew with
  | inl hsame =>
    rw [hsame]
    exact ⟨hcalls,hold⟩
  | inr hone =>
    rw [hone.1]
    refine ⟨List.nodup_append_comm.mp (List.nodup_cons.mpr ⟨hfresh,hcalls⟩),fun u hu => ?_⟩
    cases List.mem_append.mp hu with
    | inl hmem => exact hold u hmem
    | inr hself => rw [List.mem_singleton.mp hself,htasks,Function.update_self,hone.2]

end turns

/-- A mailbox as its callers see it: states and steps, the messages held, what a push answered,
what a pop would take. -/
structure Implementation (β : Type) where
  State : Type
  new : UInt64 → State
  step : State → Act β → State
  held : State → List β
  result : State → ℕ → Option PushResult
  ledger : State → Ledger β

namespace Implementation
variable (I : Implementation β)

def run (s : I.State) (actions : List (Act β)) : I.State := actions.foldl I.step s

/-- One call from its start to its end; none has more than five sections. -/
def call (s : I.State) (t : ℕ) : Call β → I.State × Answer β
  | .push m strategy =>
    let s:=I.run s (.push t m strategy::List.replicate 5 (.proceed t))
    (s,.pushed (I.result s t))
  | .pop => (I.step s .pop,.popped (I.held s).head?)
  | .sealUp => (I.step s .sealUp,.none)
  | .close => (I.run s (.close t::List.replicate 5 (.proceed t)),.none)

/-- The calls one after another, numbered from `t` on. -/
def history (s : I.State) (t : ℕ) : List (Call β) → I.State × List (Answer β)
  | [] => (s,[])
  | c::calls =>
    ((history (I.call s t c).1 (t+1) calls).1,(I.call s t c).2::(history (I.call s t c).1 (t+1) calls).2)

structure Follows (R : ℕ → I.State → Fifo β → Prop) : Prop where
  new : ∀ capacity, R 0 (I.new capacity) (.new capacity)
  held : ∀ {t s q}, R t s q → I.held s=q.held
  call : ∀ {t s q} (c : Call β), R t s q → q.Returns c →
    R (t+1) (I.call s t c).1 (q.step c).1 ∧ (I.call s t c).2=(q.step c).2

theorem Follows.history {R : ℕ → I.State → Fifo β → Prop} (h : I.Follows R) {t : ℕ} {s : I.State} {q : Fifo β}
    (hR : R t s q) {calls : List (Call β)} (hall : q.AllReturn calls) :
    (I.history s t calls).2=(q.history calls).2 ∧ I.held (I.history s t calls).1=(q.history calls).1.held := by
  induction calls generalizing t s q with
  | nil => exact ⟨rfl,h.held hR⟩
  | cons c calls ih =>
    obtain ⟨hnext,hanswer⟩:=h.call c hR hall.1
    obtain ⟨hanswers,hheld⟩:=ih hnext hall.2
    refine ⟨?_,hheld⟩
    rw [Implementation.history,Fifo.history,hanswer,hanswers]

end Implementation
end Parrot.Mailbox
