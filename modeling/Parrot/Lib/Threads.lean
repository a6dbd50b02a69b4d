import Mathlib.Algebra.BigOperators.Group.List.Basic

/-! # Threads over a shared state

A pool is a shared state and the threads at work on it. An event changes the shared
state on its own and may start a thread, a move takes one thread one atomic step
further. Two rules carry the proofs about a pool: an invariant of every step is an
invariant of every run, and a resource that each step hands from one holder to another
is never held twice. -/

namespace Threads

structure Pool (σ τ : Type) where
  shared : σ
  threads : List τ

structure Program (σ τ ε κ : Type) where
  enter : ε → σ → Option (σ × Option τ)
  step : κ → σ → τ → Option (σ × τ)

inductive Action (ε κ : Type) where
  | enter (event : ε)
  | step (thread : ℕ) (move : κ)

variable {σ τ ε κ : Type}

namespace Program

def next (P : Program σ τ ε κ) (p : Pool σ τ) : Action ε κ → Option (Pool σ τ)
  | .enter e => (P.enter e p.shared).map fun (s,t) => ⟨s,p.threads++t.toList⟩
  | .step i k => do
    let t ← p.threads[i]?
    let (s,t) ← P.step k p.shared t
    some ⟨s,p.threads.set i t⟩

def run (P : Program σ τ ε κ) (p : Pool σ τ) : List (Action ε κ) → Option (Pool σ τ)
  | [] => some p
  | a::actions => (P.next p a).bind fun p => P.run p actions

/-- Every action of the run is taken in a state where the condition holds. -/
def Along (P : Program σ τ ε κ) (C : Pool σ τ → Action ε κ → Prop) (p : Pool σ τ) : List (Action ε κ) → Prop
  | [] => True
  | a::actions => C p a ∧ ∀ p'∈P.next p a, P.Along C p' actions

instance alongDecidable (P : Program σ τ ε κ) (C : Pool σ τ → Action ε κ → Prop) [∀ p a, Decidable (C p a)] (p : Pool σ τ) :
    (actions : List (Action ε κ)) → Decidable (P.Along C p actions)
  | [] => isTrue trivial
  | a::actions =>
    have (p' : Pool σ τ) : Decidable (P.Along C p' actions) := alongDecidable P C p' actions
    inferInstanceAs (Decidable (C p a ∧ ∀ p'∈P.next p a, P.Along C p' actions))

variable {P : Program σ τ ε κ} {p p' : Pool σ τ} {a : Action ε κ} {actions : List (Action ε κ)}

theorem next_cases (h : P.next p a=some p') :
    (∃ e s t, a=.enter e ∧ P.enter e p.shared=some (s,t) ∧ p'=⟨s,p.threads++t.toList⟩) ∨ ∃ k l t r s t',
    a=.step l.length k ∧ p.threads=l++t::r ∧ P.step k p.shared t=some (s,t') ∧ p'=⟨s,l++t'::r⟩ := by
  cases a with
  | enter e =>
    simp only [next,Option.map_eq_some_iff,Prod.exists] at h
    obtain ⟨s,t,hs,rfl⟩:=h
    exact .inl ⟨e,s,t,rfl,hs,rfl⟩
  | step i k =>
    simp only [next,bind,Option.bind_eq_some_iff,Prod.exists,Option.some.injEq] at h
    obtain ⟨t,ht,s,t',hs,rfl⟩:=h
    obtain ⟨hi,rfl⟩:=List.getElem?_eq_some_iff.mp ht
    have hlen : (p.threads.take i).length=i := List.length_take_of_le (by omega)
    refine .inr ⟨k,p.threads.take i,p.threads[i],p.threads.drop (i+1),s,t',by rw [hlen],?_,hs,?_⟩
    · simp
    · rw [List.set_eq_take_append_cons_drop,if_pos hi]

theorem run_append {more : List (Action ε κ)} : P.run p (actions++more)=(P.run p actions).bind fun p => P.run p more := by
  induction actions generalizing p with
  | nil => rfl
  | cons a actions ih =>
    simp only [List.cons_append,run,Option.bind_assoc]
    congr 1
    funext q
    exact ih

theorem run_invariant {C : Pool σ τ → Action ε κ → Prop} {I : Pool σ τ → Prop} (hnext : ∀ p a p', I p → C p a →
    P.next p a=some p' → I p') (h : I p) (hC : P.Along C p actions) (hrun : P.run p actions=some p') : I p' := by
  induction actions generalizing p with
  | nil =>
    cases hrun
    exact h
  | cons a actions ih =>
    obtain ⟨q,hq,hrest⟩:=Option.bind_eq_some_iff.mp hrun
    exact ih (hnext p a q h hC.1 hq) (hC.2 q hq) hrest

theorem along_true : P.Along (fun _ _ => True) p actions := by
  induction actions generalizing p with
  | nil => trivial
  | cons a actions ih => exact ⟨trivial,fun _ _ => ih⟩

def held (h : τ → ℕ) : List τ → ℕ
  | [] => 0
  | t::threads => h t+held h threads

@[simp] theorem held_nil (h : τ → ℕ) : held h []=0 := rfl

@[simp] theorem held_cons (h : τ → ℕ) (t : τ) (r : List τ) : held h (t::r)=h t+held h r := rfl

@[simp] theorem held_append (h : τ → ℕ) (l r : List τ) : held h (l++r)=held h l+held h r := by
  induction l with
  | nil => simp
  | cons t l ih =>
    simp only [List.cons_append,held_cons,ih]
    omega

variable {threads : List τ}

theorem held_eq_zero {h : τ → ℕ} (hzero : ∀ t∈threads, h t=0) : held h threads=0 := by
  induction threads with
  | nil => rfl
  | cons t threads ih =>
    rw [held_cons,hzero t (by simp),ih fun t ht => hzero t (by simp [ht])]

theorem held_erase [DecidableEq τ] (h : τ → ℕ) {t : τ} (ht : t∈threads) :
    held h (threads.erase t)+h t=held h threads := by
  induction threads with
  | nil => simp at ht
  | cons u threads ih =>
    by_cases hu : u=t
    · subst hu
      simp only [List.erase_cons_head,held_cons]
      omega
    · have:=ih (List.mem_of_ne_of_mem (Ne.symm hu) ht)
      rw [List.erase_cons_tail (by simpa using hu)]
      simp only [held_cons]
      omega

theorem le_held {h : τ → ℕ} {t : τ} (ht : t∈threads) : h t≤held h threads := by
  induction threads with
  | nil => simp at ht
  | cons u threads ih =>
    rw [held_cons]
    rcases List.mem_cons.mp ht with rfl | ht
    · omega
    · have:=ih ht
      omega

theorem next_balanced (stored limit : σ → ℕ) (h : τ → ℕ) (hp : stored p.shared+held h p.threads=limit p.shared)
    (henter : ∀ e s t, P.enter e p.shared=some (s,t) →
      stored s+held h t.toList+limit p.shared=stored p.shared+limit s)
    (hstep : ∀ k t s t', t∈p.threads → stored p.shared+h t≤limit p.shared → P.step k p.shared t=some (s,t') →
      stored s+h t'+limit p.shared=stored p.shared+h t+limit s)
    (hnext : P.next p a=some p') : stored p'.shared+held h p'.threads=limit p'.shared := by
  obtain ⟨e,s,t,_,he,rfl⟩ | ⟨k,l,t,r,s,t',_,hl,hs,rfl⟩:=next_cases hnext
  · have:=henter e s t he
    simp only [held_append]
    omega
  · rw [hl,held_append,held_cons] at hp
    have:=hstep k t s t' (by simp [hl]) (by omega) hs
    simp only [held_append,held_cons]
    omega

end Program
end Threads
