import Parrot.Tell.Sequences

/-! # A sender that restarts

One sender and one receiver over direct connections. -/

namespace Parrot.Tell
open SortedMap (keys)

structure Link (α : Type) where
  /- the sender's counter for the receiver -/
  counter : ℕ
  wire : List (ℕ × α)
  /- the channel of the worker -/
  queue : List (ℕ × α)
  worker : Option (Reorder α)
  delivered : List (ℕ × α)
  late : ℕ
  /- every frame the worker has taken from its channel -/
  taken : List (ℕ × α)
  deriving DecidableEq

inductive Action (α : Type) where
  | send (frame : α)
  | dispatch
  | turn
  | timeout
  | recycle
  | disconnect
  | restart

variable {α : Type}

def Link.initial : Link α := ⟨0,[],[],none,[],0,[]⟩

/- `dispatch` is `on_tell` with `reorder_tx_of`, `disconnect` loses what is on the wire
and leaves the worker alone, as `connection_closed` does. -/
def Link.act (cap : ℕ) (s : Link α) : Action α → Option (Link α)
  | .send frame => some {s with counter:=bump s.counter,wire:=s.wire++[(bump s.counter,frame)]}
  | .dispatch =>
    match s.wire with
    | [] => none
    | p::rest => some {s with wire:=rest,queue:=s.queue++[p],worker:=some (s.worker.getD .initial)}
  | .turn =>
    match s.queue,s.worker with
    | p::rest,some st =>
      let turn:=st.arrive cap p.1 p.2
      some {s with
        queue := rest
        worker := some turn.state
        delivered := s.delivered++turn.delivered
        late := s.late+turn.late
        taken := s.taken++[p]}
    | _,_ => none
  | .timeout =>
    match s.worker with
    | some st =>
      if st.buf.isEmpty then none
      else some {s with worker:=some st.release.state,delivered:=s.delivered++st.release.delivered}
    | none => none
  | .recycle =>
    match s.worker with
    | some st => if st.buf.isEmpty&&s.queue.isEmpty then some {s with worker:=none} else none
    | none => none
  | .disconnect => some {s with wire:=[]}
  | .restart => some {s with counter:=0,wire:=[]}

/-- The links that actions lead to, each action being `Ok` where it is taken. -/
inductive Reached (cap : ℕ) (Ok : Link α → Action α → Prop) : Link α → Prop where
  | initial : Reached cap Ok .initial
  | act {s s' : Link α} {a : Action α} (h : Reached cap Ok s) (hok : Ok s a) (hact : s.act cap a=some s') :
    Reached cap Ok s'

structure Ahead (s : Link α) (e : ℕ) : Prop where
  buffered : Buffered e (s.worker.getD .initial)
  small : Small e (s.worker.getD .initial)
  pos : 1≤e
  counter : s.counter<2^31
  increasing : (keys (s.queue++s.wire)).Pairwise (·<·)
  bounded : ∀ x∈keys (s.queue++s.wire), x ≤ s.counter
  next : ∀ x∈keys (s.queue++s.wire), e≤x ∧ ∀ k∈keys (s.worker.getD .initial).buf, k<x
  behind : e ≤ s.counter+1 ∧ ∀ k∈keys (s.worker.getD .initial).buf, k ≤ s.counter
  channel : s.queue≠[] → s.worker≠none
  late : s.late=0
  taken : ∀ p∈s.taken, p∈s.delivered ∨ p∈(s.worker.getD .initial).buf

variable {s : Link α}

variable {st : Reorder α}

end Parrot.Tell
