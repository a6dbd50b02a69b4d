import Mathlib.Data.Finset.Basic

/-! # Leader-based log replication

An abstract protocol over arbitrary node and entry types: nodes vote in numbered
terms, a majority elects at most one leader a term, and only a term's leader
extends that term's log. The state carries the whole history (every vote with the
voter's log at that moment, every term's leader log, the longest prefix each node
ever acknowledged), so the safety argument needs no traces. -/

namespace ReplicatedLog
open Function (update)

structure State (ν ε : Type) where
  term : ν → ℕ
  log : ν → List ε
  voted : ν → ℕ → Option ν
  ballot : ν → ℕ → List ε
  cand : ν → ℕ → Option (List ε)
  leader : ℕ → Option ν
  electors : ℕ → Finset ν
  lead : ℕ → List ε
  acked : ν → ℕ → ℕ

variable {ν ε : Type}

def init : State ν ε where
  term := fun _ => 0
  log := fun _ => []
  voted := fun _ _ => none
  ballot := fun _ _ => []
  cand := fun _ _ => none
  leader := fun _ => none
  electors := fun _ => ∅
  lead := fun _ => []
  acked := fun _ _ => 0

structure Grows (s s' : State ν ε) : Prop where
  term_le : ∀ i, s.term i ≤ s'.term i
  voted : ∀ i t c, s.voted i t=some c → s'.voted i t=some c
  cand : ∀ i t l, s.cand i t=some l → s'.cand i t=some l
  leader : ∀ t c, s.leader t=some c → s'.leader t=some c
  lead : ∀ t, s.lead t<+:s'.lead t
  acked_le : ∀ i t, s.acked i t ≤ s'.acked i t
  frozen : ∀ i t, t<s.term i → s'.acked i t=s.acked i t

theorem Grows.refl (s : State ν ε) : Grows s s :=
  ⟨fun _ => le_rfl,fun _ _ _ h => h,fun _ _ _ h => h,fun _ _ h => h,
    fun _ => List.prefix_rfl,fun _ _ => le_rfl,fun _ _ _ => rfl⟩

theorem Grows.trans {a b c : State ν ε} (h : Grows a b) (g : Grows b c) : Grows a c :=
  ⟨fun i => (h.term_le i).trans (g.term_le i),fun i t x hx => g.voted i t x (h.voted i t x hx),
    fun i t x hx => g.cand i t x (h.cand i t x hx),
    fun t x hx => g.leader t x (h.leader t x hx),
    fun t => (h.lead t).trans (g.lead t),
    fun i t => (h.acked_le i t).trans (g.acked_le i t),
    fun i t ht => (g.frozen i t (ht.trans_le (h.term_le i))).trans (h.frozen i t ht)⟩

section protocol
variable (termOf : ε → ℕ) (Maj : Finset ν → Prop)

def lastTerm (l : List ε) : ℕ := (l.getLast?.map termOf).getD 0

def UpToDate (l l' : List ε) : Prop :=
  lastTerm termOf l'<lastTerm termOf l ∨ lastTerm termOf l'=lastTerm termOf l ∧ l'.length≤l.length

def set2 [DecidableEq ν] {β : Type} (f : ν → ℕ → β) (i : ν) (t : ℕ) (b : β) : ν → ℕ → β :=
  update f i (update (f i) t b)

/-- A follower keeps its log when it already holds the acknowledged prefix, and
otherwise takes exactly that prefix. -/
def adopt [DecidableEq ε] (own lead : List ε) (m : ℕ) : List ε :=
  if lead.take m<+:own then own else lead.take m

inductive Step [DecidableEq ν] [DecidableEq ε] (i : ν) : State ν ε → State ν ε → Prop where
  | advance (s : State ν ε) (t : ℕ) (h : s.term i<t) :
      Step i s {s with term:=update s.term i t}
  | campaign (s : State ν ε) (t : ℕ) (h : s.term i<t) :
      Step i s {s with
        term := update s.term i t
        voted := set2 s.voted i t (some i)
        ballot := set2 s.ballot i t (s.log i)
        cand := set2 s.cand i t (some (s.log i))}
  | vote (s : State ν ε) (c : ν) (l : List ε) (hfree : s.voted i (s.term i)=none)
      (hcand : s.cand c (s.term i)=some l) (hup : UpToDate termOf l (s.log i)) :
      Step i s {s with
        voted := set2 s.voted i (s.term i) (some c)
        ballot := set2 s.ballot i (s.term i) (s.log i)}
  | elect (s : State ν ε) (V : Finset ν) (hfree : s.leader (s.term i)=none)
      (hcand : s.cand i (s.term i)=some (s.log i)) (hmaj : Maj V)
      (hV : ∀ v∈V, s.voted v (s.term i)=some i) :
      Step i s {s with
        leader := update s.leader (s.term i) (some i)
        electors := update s.electors (s.term i) V
        lead := update s.lead (s.term i) (s.log i)}
  | propose (s : State ν ε) (e : ε) (hlead : s.leader (s.term i)=some i)
      (hlog : s.lead (s.term i)=s.log i) (he : termOf e=s.term i) :
      Step i s {s with
        log := update s.log i (s.log i++[e])
        lead := update s.lead (s.term i) (s.log i++[e])}
  | accept (s : State ν ε) (c : ν) (m : ℕ) (hlead : s.leader (s.term i)=some c)
      (hm : m≤(s.lead (s.term i)).length) :
      Step i s {s with
        log := update s.log i (adopt (s.log i) (s.lead (s.term i)) m)
        acked := set2 s.acked i (s.term i) (max m (s.acked i (s.term i)))}

def Traced (s : State ν ε) (l : List ε) : Prop :=
  ∀ k e, l[k]? = some e → s.leader (termOf e)≠none ∧ l.take (k+1)<+:s.lead (termOf e)

/- `l` still holds the first `m` entries of term `t`, unless a leader strictly
between `t` and `b` does not have them. -/
def Retained (s : State ν ε) (l : List ε) (t m b : ℕ) : Prop :=
  (s.lead t).take m<+:l ∨ ∃ u, t<u ∧ u<b ∧ s.leader u≠none ∧ ¬ (s.lead t).take m<+:s.lead u

structure Coherent (s : State ν ε) : Prop where
  voted_le : ∀ i t, s.voted i t≠none → t ≤ s.term i
  cand_le : ∀ i t, s.cand i t≠none → 0<t ∧ t ≤ s.term i
  acked_le : ∀ i t, 0<s.acked i t → t ≤ s.term i
  vote : ∀ i t c, s.voted i t=some c → ∃ l, s.cand c t=some l ∧ UpToDate termOf l (s.ballot i t)
  cand : ∀ c t l, s.cand c t=some l → (∀ e∈l, termOf e<t) ∧ Traced termOf s l
  vacant : ∀ t, s.leader t=none → s.lead t=[]
  elected : ∀ t c, s.leader t=some c → Maj (s.electors t) ∧ (∀ v∈s.electors t, s.voted v t=some c) ∧
    ∃ l, s.cand c t=some l ∧ l<+:s.lead t ∧ ∀ e∈(s.lead t).drop l.length, termOf e=t
  lead_traced : ∀ t, Traced termOf s (s.lead t)
  log_traced : ∀ i, Traced termOf s (s.log i)
  ballot_traced : ∀ i t, s.voted i t≠none → Traced termOf s (s.ballot i t)
  log_term : ∀ i, ∀ e∈s.log i, termOf e ≤ s.term i
  acked_length : ∀ i t, s.acked i t≤(s.lead t).length
  log_retained : ∀ i t m, m ≤ s.acked i t → Retained s (s.log i) t m (s.term i+1)
  ballot_retained : ∀ i t', s.voted i t'≠none → (s.leader t'≠none → i∈s.electors t') →
    ∀ t m, t<t' → m ≤ s.acked i t → Retained s (s.ballot i t') t m t'

end protocol
end ReplicatedLog
