import Mathlib.Algebra.Group.Nat.Defs
import Mathlib.Data.List.Basic

/-! # Machine integers, checked slices and panics

A 64-bit target: `u64` and `usize` values are naturals with explicit bounds.
Every index, slice and unchecked addition of the modelled code goes through one
of the functions below, so a run that would abort shows up as a `Panic`. -/

namespace Machine

def u64Max : ℕ := 2^64-1
def isizeMax : ℕ := 2^63-1

inductive Panic where
  | indexOutOfBounds
  | arithmeticOverflow
  | debugAssert
  /- `Vec` growth beyond `isize::MAX` bytes: the allocator's own limit. -/
  | capacityOverflow
  deriving DecidableEq

def checkedAdd (a b : ℕ) : Option ℕ := if a+b≤u64Max then some (a+b) else none
def checkedMul (a b : ℕ) : Option ℕ := if a*b≤u64Max then some (a*b) else none
def saturatingAdd (a b : ℕ) : ℕ := min (a+b) u64Max

def add (a b : ℕ) : Except Panic ℕ :=
  if a+b≤u64Max then .ok (a+b) else .error .arithmeticOverflow

def sub (a b : ℕ) : Except Panic ℕ :=
  if b≤a then .ok (a-b) else .error .arithmeticOverflow

/- `char::is_control`. -/
def isControl (c : Char) : Bool := c.val<0x20||(0x7f≤c.val&&c.val<0xa0)

variable {α : Type}

def index (l : List α) (i : ℕ) : Except Panic α :=
  match l[i]? with
  | some x => .ok x
  | none => .error .indexOutOfBounds

/- `&l[a..b]`. -/
def slice (l : List α) (a b : ℕ) : Except Panic (List α) :=
  if a≤b ∧ b≤l.length then .ok ((l.take b).drop a) else .error .indexOutOfBounds

/- `Vec::extend` for elements of `size` bytes. -/
def extend (size : ℕ) (l m : List α) : Except Panic (List α) :=
  if size*(l.length+m.length) ≤ isizeMax then .ok (l++m) else .error .capacityOverflow

theorem checkedAdd_eq_some {a b c : ℕ} : checkedAdd a b=some c ↔ c=a+b ∧ a+b≤u64Max := by
  unfold checkedAdd
  split
  · rename_i h
    exact ⟨fun hc => ⟨(Option.some.inj hc).symm,h⟩,fun hc => by rw [hc.1]⟩
  · rename_i h
    exact ⟨fun hc => by contradiction,fun hc => absurd hc.2 h⟩

theorem checkedMul_eq_some {a b c : ℕ} : checkedMul a b=some c ↔ c=a*b ∧ a*b≤u64Max := by
  unfold checkedMul
  split
  · rename_i h
    exact ⟨fun hc => ⟨(Option.some.inj hc).symm,h⟩,fun hc => by rw [hc.1]⟩
  · rename_i h
    exact ⟨fun hc => by contradiction,fun hc => absurd hc.2 h⟩

theorem add_ok {a b : ℕ} (h : a+b≤u64Max) : add a b=.ok (a+b) := if_pos h

theorem sub_ok {a b : ℕ} (h : b≤a) : sub a b=.ok (a-b) := if_pos h

variable {l : List α}

theorem index_ok {i : ℕ} {x : α} (h : l[i]? = some x) : index l i=.ok x := by
  simp only [index,h]

theorem slice_ok {a b : ℕ} (hab : a≤b) (hb : b≤l.length) :
    slice l a b=.ok ((l.take b).drop a) := if_pos ⟨hab,hb⟩

theorem extend_cases (size : ℕ) (l m : List α) : (extend size l m=.ok (l++m) ∧ size*(l.length+m.length) ≤ isizeMax) ∨
    extend size l m=.error .capacityOverflow := by
  unfold extend
  split
  · exact .inl ⟨rfl,by assumption⟩
  · exact .inr rfl

theorem bind_eq_ok {ε β : Type} {x : Except ε α} {f : α → Except ε β} {b : β} :
    (x >>= f)=.ok b ↔ ∃ a, x=.ok a ∧ f a=.ok b := by
  cases x with
  | error | ok => simp [bind,Except.bind]

theorem forM_eq_ok {ε : Type} {f : α → Except ε Unit} : l.forM f=.ok () ↔ ∀ a∈l, f a=.ok () := by
  induction l with
  | nil => exact ⟨fun _ => nofun,fun _ => rfl⟩
  | cons a l ih =>
    change (f a >>= fun _ => l.forM f)=.ok () ↔ _
    rw [bind_eq_ok,List.forall_mem_cons,← ih]
    exact ⟨fun ⟨_,ha,hl⟩ => ⟨ha,hl⟩,fun ⟨ha,hl⟩ => ⟨(),ha,hl⟩⟩

theorem mapM_total {ε β : Type} {f : α → Except ε β} (h : ∀ a∈l, ∃ b, f a=.ok b) :
    ∃ bs, l.mapM f=.ok bs ∧ bs.length=l.length := by
  induction l with
  | nil => exact ⟨[],rfl,rfl⟩
  | cons a l ih =>
    obtain ⟨b,hb⟩:=h a (List.mem_cons_self ..)
    obtain ⟨bs,hbs,hlen⟩:=ih fun x hx => h x (List.mem_cons_of_mem a hx)
    refine ⟨b::bs,?_,by rw [List.length_cons,List.length_cons,hlen]⟩
    rw [List.mapM_cons,hb,hbs]
    rfl

section loops
variable {σ ε : Type} {f : σ → α → Except ε σ} {P : List α → σ → Prop}

theorem foldlM_invariant (hstep : ∀ done st a st', P done st → f st a=.ok st' → P (done++[a]) st') {l done : List α}
    {st st' : σ} (h : P done st) (hrun : l.foldlM f st=.ok st') : P (done++l) st' := by
  induction l generalizing done st with
  | nil =>
    cases hrun
    rwa [List.append_nil]
  | cons a l ih =>
    rw [List.foldlM_cons] at hrun
    cases ha : f st a with
    | error e => simp [ha,bind,Except.bind] at hrun
    | ok st1 =>
      simp only [ha,bind,Except.bind] at hrun
      have hnext:=ih (hstep done st a st1 h ha) hrun
      rwa [List.append_assoc] at hnext

theorem foldlM_total {l : List α} (hstep : ∀ done a rest st, l=done++a::rest → P done st → ∃ st', f st a=.ok st' ∧
    P (done++[a]) st') {st : σ} (h : P [] st) : ∃ st', l.foldlM f st=.ok st' := by
  have hrest : ∀ rest done st, l=done++rest → P done st → ∃ st', rest.foldlM f st=.ok st' := by
    intro rest
    induction rest with
    | nil => exact fun done st _ _ => ⟨st,rfl⟩
    | cons a rest ih =>
      intro done st hl hd
      obtain ⟨st1,ha,h1⟩:=hstep done a rest st hl hd
      obtain ⟨st',hst'⟩:=ih (done++[a]) st1 (by rw [hl,List.append_assoc]; rfl) h1
      refine ⟨st',?_⟩
      rw [List.foldlM_cons,ha]
      exact hst'
  exact hrest l [] st rfl h

end loops

end Machine

namespace Except
variable {ε α : Type} {c : Prop} [Decidable c] {e : ε} {a : α} {x : Except ε α}

theorem of_ite_left (h : (if c then .error e else x)=.ok a) : ¬c ∧ x=.ok a := by
  split at h
  · contradiction
  · rename_i hc
    exact ⟨hc,h⟩

theorem of_ite_right (h : (if c then x else .error e)=.ok a) : c ∧ x=.ok a := by
  split at h
  · rename_i hc
    exact ⟨hc,h⟩
  · contradiction

end Except
