import Mathlib.Data.List.Range
import Parrot.Lib.SortedMap

/-! # The reorder worker (`ingress.rs:2207-2353`)

One worker per source node: the next sequence it expects and the frames that came early. -/

namespace Parrot.Tell
open List (length_append mem_append_left mem_append_right mem_cons_self reverseRecOn range' range'_succ mem_cons)
open SortedMap (keys Sorted)

def wrappingAdd (a b : ℕ) : ℕ := (a+b)%2^32
def wrappingSub (a b : ℕ) : ℕ := (a+2^32-b)%2^32

/- The numbers behind `expected` on the circle. -/
def isLate (seq expected : ℕ) : Bool := decide (wrappingSub seq expected>(2^32-1)/2)

structure Reorder (α : Type) where
  expected : ℕ
  buf : List (ℕ × α)
  deriving DecidableEq

variable {α : Type}

def Reorder.initial : Reorder α := ⟨1,[]⟩

/-- What one turn of the loop delivers, and what it counts. -/
structure Turn (α : Type) where
  delivered : List (ℕ × α)
  state : Reorder α
  /- `REORDER_GAP_FLUSHED` -/
  flushed : ℕ
  /- `LATE_TELL_DROPPED` -/
  late : ℕ

/-- The consecutive successors at the front of the buffer. -/
def drain : ℕ → List (ℕ × α) → List (ℕ × α) × Reorder α
  | expected,[] => ([],⟨expected,[]⟩)
  | expected,e::rest =>
    if e.1=expected then
      let (chain,st):=drain (wrappingAdd expected 1) rest
      (e::chain,st)
    else ([],⟨expected,e::rest⟩)

/-- The smallest buffered frame goes out, and the gap before it is given up. -/
def Reorder.release (st : Reorder α) : Turn α :=
  match st.buf with
  | [] => ⟨[],st,0,0⟩
  | e::rest =>
    let (chain,st):=drain (wrappingAdd e.1 1) rest
    ⟨e::chain,st,1,0⟩

inductive Event (α : Type) where
  | arrive (seq : ℕ) (frame : α)
  | timeout

variable (cap : ℕ)

def Reorder.arrive (st : Reorder α) (seq : ℕ) (frame : α) : Turn α :=
  if seq=st.expected then
    let (chain,st):=drain (wrappingAdd st.expected 1) st.buf
    ⟨(seq,frame)::chain,st,0,0⟩
  else if isLate seq st.expected then ⟨[],st,0,1⟩
  else
    let st:={st with buf:=SortedMap.insert seq frame st.buf}
    if st.buf.length>cap then st.release else ⟨[],st,0,0⟩

def Reorder.turn (st : Reorder α) : Event α → Turn α
  | .arrive seq frame => st.arrive cap seq frame
  | .timeout => st.release

/-- A run of the worker: its state, all it delivered and its counters. -/
def Turn.next (t : Turn α) (event : Event α) : Turn α :=
  let turn:=t.state.turn cap event
  ⟨t.delivered++turn.delivered,turn.state,t.flushed+turn.flushed,t.late+turn.late⟩

variable (events : List (Event α))

def run : Turn α :=
  events.foldl (Turn.next cap) ⟨[],.initial,0,0⟩

def Turn.seqs (t : Turn α) : List ℕ := keys t.delivered

theorem run_snoc (event : Event α) : run cap (events++[event])=(run cap events).next cap event := by
  simp [run]

theorem drain_append (expected : ℕ) (buf : List (ℕ × α)) :
    (drain expected buf).1++(drain expected buf).2.buf=buf := by
  induction buf generalizing expected with
  | nil => rfl
  | cons e rest ih =>
    simp only [drain]
    split
    · rw [List.cons_append,ih]
    · rfl

theorem release_append (st : Reorder α) : st.release.delivered++st.release.state.buf=st.buf := by
  unfold Reorder.release
  cases hbuf : st.buf with
  | nil => simp [hbuf]
  | cons e rest =>
    dsimp only
    rw [List.cons_append,drain_append]

theorem release_late (st : Reorder α) : st.release.late=0 := by
  unfold Reorder.release
  cases st.buf with
  | nil => rfl
  | cons e rest => rfl

theorem turn_conserves (st : Reorder α) (event : Event α) :
    (∀ p, p∈(st.turn cap event).delivered ∨ p∈(st.turn cap event).state.buf → p∈st.buf ∨ event=.arrive p.1 p.2) ∧
    (st.turn cap event).delivered.length+(st.turn cap event).state.buf.length+(st.turn cap event).late ≤
    st.buf.length+1 := by
  cases event with
  | timeout =>
    have happend:=release_append st
    have hlen:=congrArg List.length happend
    have hlate:=release_late st
    rw [length_append] at hlen
    refine ⟨?_,by simp only [Reorder.turn]; omega⟩
    intro p hp
    rw [← happend]
    exact .inl (List.mem_append.mpr hp)
  | arrive seq frame =>
    simp only [Reorder.turn]
    unfold Reorder.arrive
    split
    · rename_i heq
      have happend:=drain_append (wrappingAdd st.expected 1) st.buf
      have hlen:=congrArg List.length happend
      rw [length_append] at hlen
      refine ⟨?_,by simp only [List.length_cons]; omega⟩
      intro p hp
      rw [← happend]
      rcases hp with hp | hp
      · rcases List.mem_cons.mp hp with rfl | hp
        · exact .inr rfl
        · exact .inl (mem_append_left _ hp)
      · exact .inl (mem_append_right _ hp)
    · split
      · refine ⟨?_,by simp⟩
        intro p hp
        rcases hp with hp | hp
        · contradiction
        · exact .inl hp
      · have hins : ∀ p, p∈SortedMap.insert seq frame st.buf →
            p∈st.buf ∨ (.arrive seq frame : Event α)=.arrive p.1 p.2 := by
          intro p hp
          rcases SortedMap.mem_insert seq frame st.buf hp with rfl | hp
          · exact .inr rfl
          · exact .inl hp
        have hle:=SortedMap.length_insert_le seq frame st.buf
        dsimp only
        split
        · have happend:=release_append ({st with buf:=SortedMap.insert seq frame st.buf} : Reorder α)
          have hlen:=congrArg List.length happend
          have hlate:=release_late ({st with buf:=SortedMap.insert seq frame st.buf} : Reorder α)
          rw [length_append] at hlen
          dsimp only at hlen
          refine ⟨?_,by omega⟩
          intro p hp
          have hmem:=List.mem_append.mpr hp
          rw [happend] at hmem
          exact hins p hmem
        · refine ⟨?_,by simpa using hle⟩
          intro p hp
          rcases hp with hp | hp
          · contradiction
          · exact hins p hp

theorem run_conserves : (∀ p, p∈(run cap events).delivered ∨ p∈(run cap events).state.buf → .arrive p.1 p.2∈events) ∧
    (run cap events).delivered.length+(run cap events).state.buf.length+(run cap events).late≤events.length := by
  induction events using reverseRecOn with
  | nil => simp [run,Reorder.initial]
  | append_singleton events event ih =>
    obtain ⟨hmem,hlen⟩:=ih
    obtain ⟨hmem',hlen'⟩:=turn_conserves cap (run cap events).state event
    rw [run_snoc]
    simp only [Turn.next,length_append,List.length_singleton]
    refine ⟨?_,by omega⟩
    have hnow : ∀ p, p∈(run cap events).state.buf ∨ event=.arrive p.1 p.2 → .arrive p.1 p.2∈events++[event] := by
      rintro p (hp | heq)
      · exact mem_append_left _ (hmem p (.inr hp))
      · rw [heq]
        exact mem_append_right _ (List.mem_singleton_self _)
    intro p hp
    rcases hp with hp | hp
    · rcases List.mem_append.mp hp with hp | hp
      · exact mem_append_left _ (hmem p (.inl hp))
      · exact hnow p (hmem' p (.inl hp))
    · exact hnow p (hmem' p (.inr hp))

/-! ### The buffer lies beyond the expected number

`e` is the next number as the order of assignment has it: `expected` is `e` except
that it is 0 once all 32-bit numbers are used up. -/

structure Buffered (e : ℕ) (st : Reorder α) : Prop where
  expected : st.expected=e%2^32
  le : e≤2^32
  sorted : Sorted st.buf
  above : ∀ k∈keys st.buf, e<k ∧ k<2^32

theorem wrappingAdd_mod (e : ℕ) : wrappingAdd (e%2^32) 1=(e+1)%2^32 := by
  simp [wrappingAdd,Nat.add_mod]

variable {buf : List (ℕ × α)}

theorem drain_spec {e : ℕ} (he : e≤2^32) (hsorted : Sorted buf) (hbuf : ∀ k∈keys buf, e≤k ∧ k<2^32) : ∃ n,
    (drain (e%2^32) buf).1=buf.take n ∧ keys (buf.take n)=range' e n ∧ (drain (e%2^32) buf).2.buf=buf.drop n ∧
    Buffered (e+n) (drain (e%2^32) buf).2 := by
  induction buf generalizing e with
  | nil => exact ⟨0,rfl,rfl,rfl,rfl,he,hsorted,by simp [drain]⟩
  | cons x rest ih =>
    obtain ⟨hmin,hrest⟩:=List.pairwise_cons.mp hsorted
    obtain ⟨hge,hlt⟩:=hbuf x.1 (mem_cons_self ..)
    have hmod : e%2^32=e := Nat.mod_eq_of_lt (by omega)
    by_cases hx : x.1=e
    · have hbuf' : ∀ k∈keys rest, e+1≤k ∧ k<2^32 := by
        intro k hk
        have h1:=hmin k hk
        have h2:=(hbuf k (List.mem_cons_of_mem _ hk)).2
        omega
      obtain ⟨n,hout,hkeys,hleft,hnext⟩:=ih (by omega) hrest hbuf'
      have hdrain : drain (e%2^32) (x::rest)=(x::(drain ((e+1)%2^32) rest).1,(drain ((e+1)%2^32) rest).2) := by
        simp only [drain]
        rw [if_pos (hx.trans hmod.symm),wrappingAdd_mod]
      refine ⟨n+1,?_,?_,?_,?_⟩
      · rw [hdrain,hout]
        rfl
      · rw [List.take_succ_cons,SortedMap.keys_cons,hkeys,hx,range'_succ]
      · rw [hdrain]
        exact hleft
      · rw [hdrain,show e+(n+1)=e+1+n by omega]
        exact hnext
    · have hdrain : drain (e%2^32) (x::rest)=([],⟨e%2^32,x::rest⟩) := by
        simp only [drain]
        rw [if_neg (by omega)]
      refine ⟨0,?_,rfl,?_,?_⟩
      · rw [hdrain]
        rfl
      · rw [hdrain]
        rfl
      · rw [hdrain]
        refine ⟨rfl,he,hsorted,?_⟩
        intro k hk
        have h2:=hbuf k hk
        rcases List.mem_cons.mp hk with rfl | hk
        · omega
        · have h1:=hmin k hk
          omega

/-- A turn from `e` to `e'` delivers consecutive numbers from `e` on, from `e` itself
unless a gap is given up, and loses nothing that was not behind `e`. -/
structure Moves (e : ℕ) (buf : List (ℕ × α)) (arrived : Option ℕ) (turn : Turn α) (e' : ℕ) : Prop where
  buffered : Buffered e' turn.state
  out : ∃ k n, keys turn.delivered=range' k n ∧ e≤k ∧ (n=0 → e'=e) ∧ (0<n → e'=k+n) ∧ (turn.flushed=0 → k=e)
  kept : ∀ x, x∈keys turn.delivered ∨ x∈keys turn.state.buf ↔ x∈keys buf ∨ arrived=some x ∧ e≤x

variable {arrived : Option ℕ}

theorem Moves.le {e e' : ℕ} {turn : Turn α} (h : Moves e buf arrived turn e') : e≤e' := by
  obtain ⟨k,n,-,hk,hzero,hpos,-⟩:=h.out
  rcases Nat.eq_zero_or_pos n with hn | hn
  · rw [hzero hn]
  · rw [hpos hn]
    omega

theorem Moves.between {e e' x : ℕ} {turn : Turn α}
    (h : Moves e buf arrived turn e') (hx : x∈keys turn.delivered) : e≤x ∧ x<e' := by
  obtain ⟨k,n,hkeys,hk,-,hpos,-⟩:=h.out
  rw [hkeys,List.mem_range'_1] at hx
  have hn : 0<n := by omega
  rw [hpos hn]
  omega

theorem mem_take_or_drop (n : ℕ) (l : List (ℕ × α)) (x : ℕ) : x∈keys (l.take n) ∨ x∈keys (l.drop n) ↔ x∈keys l := by
  rw [← List.mem_append,← SortedMap.keys_append,List.take_append_drop]

theorem release_moves {e : ℕ} {st : Reorder α} (h : Buffered e st) : (∃ e', Moves e st.buf none st.release e') ∧
    (st.buf≠[] → st.release.state.buf.length<st.buf.length) := by
  cases hbuf : st.buf with
  | nil =>
    have hrel : st.release=⟨[],st,0,0⟩ := by
      unfold Reorder.release
      rw [hbuf]
    rw [hrel]
    refine ⟨⟨e,h,⟨e,0,rfl,Nat.le_refl e,fun _ => rfl,nofun,fun _ => rfl⟩,?_⟩,?_⟩
    · simp [hbuf]
    · intro hne
      contradiction
  | cons x rest =>
    have hsorted:=h.sorted
    have habove:=h.above
    rw [hbuf] at hsorted habove
    obtain ⟨hmin,hrest⟩:=List.pairwise_cons.mp hsorted
    obtain ⟨hx,hlt⟩:=habove x.1 (mem_cons_self ..)
    have hrestAbove : ∀ k∈keys rest, x.1+1≤k ∧ k<2^32 := by
      intro k hk
      exact ⟨hmin k hk,(habove k (List.mem_cons_of_mem _ hk)).2⟩
    obtain ⟨n,hout,hkeys,hleft,hnext⟩:=drain_spec (by omega) hrest hrestAbove
    have hadd : wrappingAdd x.1 1=(x.1+1)%2^32 := rfl
    have hrel : st.release=⟨x::rest.take n,(drain ((x.1+1)%2^32) rest).2,1,0⟩ := by
      unfold Reorder.release
      rw [hbuf]
      dsimp only
      rw [hadd,← hout]
    rw [hrel]
    refine ⟨⟨x.1+1+n,hnext,⟨x.1,n+1,?_,hx.le,nofun,fun _ => by omega,nofun⟩,?_⟩,?_⟩
    · rw [SortedMap.keys_cons,hkeys,range'_succ]
    · intro y
      have hmem:=mem_take_or_drop n rest y
      simp only [hleft,SortedMap.keys_cons,mem_cons]
      rw [← hmem]
      simp only [reduceCtorEq,false_and,or_false]
      exact or_assoc
    · intro _
      simp only [hleft,List.length_drop,List.length_cons]
      omega

theorem wrappingSub_ahead {seq e : ℕ} (h : e ≤ seq) (hseq : seq<2^32) : wrappingSub seq e=seq-e := by
  unfold wrappingSub
  omega

theorem wrappingSub_behind {seq e : ℕ} (h : seq<e) (he : e<2^32) : wrappingSub seq e=2^32-(e-seq) := by
  unfold wrappingSub
  omega

theorem isLate_behind {seq e : ℕ} (h : seq<e) (he : e<2^32) (hclose : e ≤ seq+2^31) : isLate seq e=true := by
  unfold isLate
  rw [wrappingSub_behind h he]
  exact decide_eq_true (by omega)

theorem isLate_ahead {seq e : ℕ} (h : e ≤ seq) (hseq : seq<2^32) (hclose : seq<e+2^31) : isLate seq e=false := by
  unfold isLate
  rw [wrappingSub_ahead h hseq]
  exact decide_eq_false (by omega)

theorem quiet_moves {e : ℕ} {st : Reorder α} {late : ℕ} (h : Buffered e st)
    (hmem : ∀ x, x∈keys st.buf ↔ x∈keys buf ∨ arrived=some x ∧ e≤x) : Moves e buf arrived ⟨[],st,0,late⟩ e := by
  refine ⟨h,⟨e,0,rfl,Nat.le_refl e,fun _ => rfl,nofun,fun _ => rfl⟩,?_⟩
  intro x
  rw [← hmem x]
  simp

theorem arrive_next {e cap : ℕ} {st : Reorder α} (h : Buffered e st) (he : e<2^32) (frame : α) :
    (∃ e', Moves e st.buf (some e) (st.arrive cap e frame) e') ∧ (st.arrive cap e frame).late=0 ∧
    (st.arrive cap e frame).flushed=0 ∧ (st.arrive cap e frame).state.buf.length ≤ st.buf.length := by
  have hexp : st.expected=e := h.expected.trans (Nat.mod_eq_of_lt he)
  have hbuf : ∀ k∈keys st.buf, e+1≤k ∧ k<2^32 := fun k hk => h.above k hk
  obtain ⟨n,hout,hkeys,hleft,hnext⟩:=drain_spec (by omega) h.sorted hbuf
  have hadd : wrappingAdd e 1=(e+1)%2^32 := rfl
  unfold Reorder.arrive
  rw [if_pos hexp.symm,hexp,hadd]
  refine ⟨⟨e+1+n,hnext,⟨e,n+1,?_,Nat.le_refl e,nofun,fun _ => by omega,fun _ => rfl⟩,?_⟩,rfl,rfl,?_⟩
  · simp only [SortedMap.keys_cons,hout,hkeys,range'_succ]
  · intro y
    have hmem:=mem_take_or_drop n st.buf y
    simp only [hout,hleft,SortedMap.keys_cons,mem_cons,Option.some.injEq]
    rw [or_assoc,hmem]
    constructor
    · rintro (rfl | hy)
      · exact .inr ⟨rfl,le_rfl⟩
      · exact .inl hy
    · rintro (hy | ⟨rfl,-⟩)
      · exact .inr hy
      · exact .inl rfl
  · simp only [hleft,List.length_drop]
    omega

theorem arrive_late {e cap seq : ℕ} {st : Reorder α} (h : Buffered e st) (he : e<2^32) (frame : α)
    (hlt : seq<e) (hclose : e ≤ seq+2^31) : st.arrive cap seq frame=⟨[],st,0,1⟩ := by
  have hexp : st.expected=e := h.expected.trans (Nat.mod_eq_of_lt he)
  unfold Reorder.arrive
  rw [if_neg (by omega),hexp,if_pos (isLate_behind hlt he hclose)]

theorem arrive_early {e cap seq : ℕ} {st : Reorder α} (h : Buffered e st) (frame : α)
    (hlt : e<seq) (hseq : seq<2^32) (hclose : seq<e+2^31) :
    Buffered e ({st with buf:=SortedMap.insert seq frame st.buf} : Reorder α) ∧
      st.arrive cap seq frame=if (SortedMap.insert seq frame st.buf).length>cap then
        ({st with buf:=SortedMap.insert seq frame st.buf} : Reorder α).release
      else ⟨[],{st with buf:=SortedMap.insert seq frame st.buf},0,0⟩ := by
  have hexp : st.expected=e := h.expected.trans (Nat.mod_eq_of_lt (by omega))
  refine ⟨⟨h.expected,h.le,SortedMap.sorted_insert seq frame h.sorted,?_⟩,?_⟩
  · intro k hk
    rcases (SortedMap.mem_keys_insert ..).mp hk with rfl | hk
    · exact ⟨hlt,hseq⟩
    · exact h.above k hk
  · have hnot : ¬ isLate seq st.expected=true := by
      rw [hexp,isLate_ahead hlt.le hseq hclose]
      decide
    unfold Reorder.arrive
    rw [if_neg (by omega),if_neg hnot]

theorem arrive_moves {e cap : ℕ} {st : Reorder α} (h : Buffered e st) (he : e<2^32) {seq : ℕ} (frame : α)
    (hseq : seq<2^32) (hahead : seq<e+2^31) (hbehind : e ≤ seq+2^31) :
    (∃ e', Moves e st.buf (some seq) (st.arrive cap seq frame) e') ∧ (e ≤ seq → (st.arrive cap seq frame).late=0) ∧
    (st.buf.length≤cap → (st.arrive cap seq frame).state.buf.length≤cap) := by
  rcases Nat.lt_trichotomy seq e with hlt | rfl | hlt
  · rw [arrive_late h he frame hlt hbehind]
    refine ⟨⟨e,quiet_moves h ?_⟩,fun hle => by omega,fun hcap => hcap⟩
    intro x
    constructor
    · exact .inl
    · rintro (hx | ⟨heq,hle⟩)
      · exact hx
      · have:=Option.some.inj heq
        omega
  · obtain ⟨⟨e',hmoves⟩,hlate,-,hlen⟩:=@arrive_next _ seq cap st h he frame
    exact ⟨⟨e',hmoves⟩,fun _ => hlate,fun hcap => hlen.trans hcap⟩
  · obtain ⟨hbuffered,harrive⟩:=@arrive_early _ e cap seq st h frame hlt hseq hahead
    have hmem : ∀ x, x∈keys (SortedMap.insert seq frame st.buf) ↔ x∈keys st.buf ∨ some seq=some x ∧ e≤x := by
      intro x
      rw [SortedMap.mem_keys_insert,Option.some.injEq]
      constructor
      · rintro (rfl | hx)
        · exact .inr ⟨rfl,hlt.le⟩
        · exact .inl hx
      · rintro (hx | ⟨rfl,-⟩)
        · exact .inr hx
        · exact .inl rfl
    rw [harrive]
    split
    · obtain ⟨⟨e',hmoves⟩,hshort⟩:=release_moves hbuffered
      refine ⟨⟨e',hmoves.buffered,hmoves.out,?_⟩,fun _ => release_late _,?_⟩
      · intro x
        rw [hmoves.kept,← hmem x]
        simp
      · intro hcap
        have h1:=hshort (SortedMap.insert_ne_nil seq frame st.buf)
        have h2:=SortedMap.length_insert_le seq frame st.buf
        dsimp only at h1
        omega
    · refine ⟨⟨e,quiet_moves hbuffered hmem⟩,fun _ => rfl,fun _ => ?_⟩
      dsimp only
      omega

structure Sound (t : Turn α) (e : ℕ) : Prop where
  buffered : Buffered e t.state
  pos : 1≤e
  increasing : t.seqs.Pairwise (·<·)
  below : ∀ m∈t.seqs, m<e
  last : e=1 ∨ ∃ m∈t.seqs, m+1=e
  contiguous : t.flushed=0 → t.seqs=range' 1 (e-1)

theorem initial_sound : Sound (⟨[],.initial,0,0⟩ : Turn α) 1 where
  buffered := ⟨rfl,by decide,List.Pairwise.nil,by simp [Reorder.initial]⟩
  pos := Nat.le_refl 1
  increasing := List.Pairwise.nil
  below := by simp [Turn.seqs]
  last := .inl rfl
  contiguous := fun _ => rfl

theorem moves_sound {t turn : Turn α} {e e' : ℕ} (h : Sound t e) (hmoves : Moves e t.state.buf arrived turn e') :
    Sound ⟨t.delivered++turn.delivered,turn.state,t.flushed+turn.flushed,t.late+turn.late⟩ e' := by
  have hseqs : Turn.seqs ⟨t.delivered++turn.delivered,turn.state,t.flushed+turn.flushed,t.late+turn.late⟩ =
      t.seqs++keys turn.delivered := SortedMap.keys_append ..
  have hle:=hmoves.le
  obtain ⟨k,n,hkeys,hk,hzero,hpos,hflushed⟩:=hmoves.out
  constructor
  · exact hmoves.buffered
  · exact h.pos.trans hle
  · rw [hseqs,List.pairwise_append]
    refine ⟨h.increasing,?_,?_⟩
    · rw [hkeys]
      exact List.pairwise_lt_range'
    · intro a ha b hb
      exact (h.below a ha).trans_le (hmoves.between hb).1
  · intro m hm
    rw [hseqs] at hm
    rcases List.mem_append.mp hm with hm | hm
    · exact (h.below m hm).trans_le hle
    · exact (hmoves.between hm).2
  · rcases Nat.eq_zero_or_pos n with hn | hn
    · rw [hzero hn]
      rcases h.last with hone | ⟨m,hm,heq⟩
      · exact .inl hone
      · exact .inr ⟨m,by rw [hseqs]; exact mem_append_left _ hm,heq⟩
    · refine .inr ⟨k+n-1,?_,?_⟩
      · rw [hseqs,hkeys]
        refine mem_append_right _ (List.mem_range'_1.mpr ?_)
        omega
      · rw [hpos hn]
        omega
  · intro hnone
    have h0 : t.flushed=0 := Nat.eq_zero_of_add_eq_zero_right hnone
    have hkeq:=hflushed (Nat.eq_zero_of_add_eq_zero_left hnone)
    have hpos1:=h.pos
    rw [hseqs,h.contiguous h0,hkeys,hkeq]
    rcases Nat.eq_zero_or_pos n with hn | hn
    · rw [hzero hn,hn,List.range'_zero,List.append_nil]
    · rw [hpos hn,hkeq]
      have happend:=@List.range'_append_1 1 (e-1) n
      rw [show 1+(e-1)=e by omega] at happend
      rw [happend]
      congr 1
      omega

structure Small (e : ℕ) (st : Reorder α) : Prop where
  le : e≤2^31
  buf : ∀ k∈keys st.buf, k<2^31

theorem moves_small {turn : Turn α} {st : Reorder α} {e e' : ℕ} (h : Small e st) (harrived : ∀ seq, arrived=some seq →
    seq<2^31) (hmoves : Moves e st.buf arrived turn e') : Small e' turn.state := by
  have hkept : ∀ x, x∈keys turn.delivered ∨ x∈keys turn.state.buf → x<2^31 := by
    intro x hx
    rcases (hmoves.kept x).mp hx with hx | ⟨heq,-⟩
    · exact h.buf x hx
    · exact harrived x heq
  refine ⟨?_,fun k hk => hkept k (.inr hk)⟩
  obtain ⟨k,n,hkeys,-,hzero,hpos,-⟩:=hmoves.out
  rcases Nat.eq_zero_or_pos n with hn | hn
  · rw [hzero hn]
    exact h.le
  · have hmem : k+n-1∈keys turn.delivered := by
      rw [hkeys]
      refine List.mem_range'_1.mpr ?_
      omega
    have hlast:=hkept _ (.inl hmem)
    rw [hpos hn]
    omega

theorem turn_small {cap e : ℕ} {st : Reorder α} (h : Buffered e st) (hsmall : Small e st) (hpos : 1≤e)
    {event : Event α} (hevent : ∀ seq frame, event=.arrive seq frame → 0<seq ∧ seq<2^31) : ∃ e' arrived,
    Moves e st.buf arrived (st.turn cap event) e' ∧ Small e' (st.turn cap event).state ∧
    (∀ seq frame, event=.arrive seq frame → arrived=some seq ∧ (e ≤ seq → (st.turn cap event).late=0)) ∧
    (st.buf.length≤cap → (st.turn cap event).state.buf.length≤cap) := by
  have hle:=hsmall.le
  cases event with
  | arrive seq frame =>
    obtain ⟨h0,hlt⟩:=hevent seq frame rfl
    obtain ⟨⟨e',hmoves⟩,hlate,hcap⟩ :=
      @arrive_moves _ e cap st h (by omega) seq frame (by omega) (by omega) (by omega)
    refine ⟨e',some seq,hmoves,moves_small hsmall ?_ hmoves,?_,hcap⟩
    · intro x hx
      rw [← Option.some.inj hx]
      exact hlt
    · intro x f hx
      obtain ⟨rfl,-⟩:=Event.arrive.inj hx
      exact ⟨rfl,hlate⟩
  | timeout =>
    obtain ⟨⟨e',hmoves⟩,hshort⟩:=release_moves h
    have hnone : ∀ seq, (none : Option ℕ)=some seq → seq<2^31 := by
      intro seq heq
      contradiction
    refine ⟨e',none,hmoves,moves_small hsmall hnone hmoves,?_,?_⟩
    · intro seq frame heq
      contradiction
    intro hcap
    cases hbuf : st.buf with
    | nil =>
      have hrel : st.release=⟨[],st,0,0⟩ := by
        unfold Reorder.release
        rw [hbuf]
      simp only [Reorder.turn,hrel]
      exact hcap
    | cons x rest => exact (hshort (by rw [hbuf]; simp)).le.trans hcap

theorem run_small {events : List (Event α)} (hevents : ∀ seq frame, .arrive seq frame∈events → 0<seq ∧ seq<2^31) :
    (∃ e, Sound (run cap events) e ∧ Small e (run cap events).state) ∧ (run cap events).state.buf.length≤cap := by
  induction events using reverseRecOn with
  | nil =>
    have hsmall : Small 1 (Reorder.initial : Reorder α) := ⟨by decide,by simp [Reorder.initial]⟩
    exact ⟨⟨1,initial_sound,hsmall⟩,Nat.zero_le _⟩
  | append_singleton events event ih =>
    obtain ⟨⟨e,hsound,hsmall⟩,hcap⟩:=ih fun seq frame hmem => hevents seq frame (mem_append_left _ hmem)
    have hevent : ∀ seq frame, event=.arrive seq frame → 0<seq ∧ seq<2^31 := by
      intro seq frame heq
      exact hevents seq frame (by rw [heq]; exact mem_append_right _ (List.mem_singleton_self _))
    obtain ⟨e',arrived,hmoves,hsmall',-,hcap'⟩ :=
      @turn_small _ cap _ _ hsound.buffered hsmall hsound.pos event hevent
    rw [run_snoc]
    exact ⟨⟨e',moves_sound hsound hmoves,hsmall'⟩,hcap' hcap⟩

theorem run_keeps {pre post : List (Event α)} {x : ℕ} (hevents : ∀ seq frame, .arrive seq frame∈pre++post → 0<seq ∧
    seq<2^31) (hx : x∈(run cap pre).seqs ∨ x∈keys (run cap pre).state.buf) : x∈(run cap (pre++post)).seqs ∨
    x∈keys (run cap (pre++post)).state.buf := by
  induction post using reverseRecOn with
  | nil => simpa using hx
  | append_singleton post event ih =>
    rw [← List.append_assoc] at hevents ⊢
    have hbefore : ∀ seq frame, .arrive seq frame∈pre++post → 0<seq ∧ seq<2^31 :=
      fun seq frame hmem => hevents seq frame (mem_append_left _ hmem)
    obtain ⟨⟨e,hsound,hsmall⟩,-⟩:=run_small cap hbefore
    have hevent : ∀ seq frame, event=.arrive seq frame → 0<seq ∧ seq<2^31 := by
      intro seq frame heq
      exact hevents seq frame (by rw [heq]; exact mem_append_right _ (List.mem_singleton_self _))
    obtain ⟨e',arrived,hmoves,-⟩:=@turn_small _ cap _ _ hsound.buffered hsmall hsound.pos event hevent
    have hseqs : ((run cap (pre++post)).next cap event).seqs=(run cap (pre++post)).seqs++
      keys ((run cap (pre++post)).state.turn cap event).delivered := SortedMap.keys_append ..
    rw [run_snoc,hseqs]
    rcases ih hbefore with hx | hx
    · exact .inl (mem_append_left _ hx)
    · rcases (hmoves.kept x).mpr (.inl hx) with hx | hx
      · exact .inl (mem_append_right _ hx)
      · exact .inr hx

/- Whatever arrives in whatever order, frames go out in the order of their numbers, each
at most once, and one that never does came after a later frame had gone out. -/
theorem tell_ordering (cap : ℕ) (events : List (Event α))
    (hevents : ∀ seq frame, .arrive seq frame∈events → 0<seq ∧ seq<2^31) : (run cap events).seqs.Pairwise (·<·) ∧
    (∀ pre seq frame post, events=pre++.arrive seq frame::post → seq∈(run cap events).seqs ∨
    seq∈keys (run cap events).state.buf ∨ ∃ m∈(run cap pre).seqs, seq < m) ∧ (run cap events).state.buf.length≤cap ∧
    ((run cap events).flushed=0 → (run cap events).seqs=range' 1 ((run cap events).state.expected-1)) := by
  obtain ⟨⟨e,hsound,hsmall⟩,hcap⟩:=run_small cap hevents
  have hexp : (run cap events).state.expected=e := by
    have hle:=hsmall.le
    exact hsound.buffered.expected.trans (Nat.mod_eq_of_lt (by omega))
  refine ⟨hsound.increasing,?_,hcap,?_⟩
  · intro pre seq frame post hsplit
    have hpre : ∀ x f, .arrive x f∈pre → 0<x ∧ x<2^31 := by
      intro x f hmem
      exact hevents x f (by rw [hsplit]; exact mem_append_left _ hmem)
    have hsplit' : events=(pre++[.arrive seq frame])++post := by rw [hsplit,List.append_cons]
    have harrive : ∀ x f, (.arrive seq frame : Event α)=.arrive x f → 0<x ∧ x<2^31 := by
      intro x f heq
      exact hevents x f (by rw [hsplit,← heq]; simp)
    obtain ⟨⟨e0,hsound0,hsmall0⟩,-⟩:=run_small cap hpre
    obtain ⟨e1,arrived,hmoves,-,harrived,-⟩:=@turn_small _ cap _ _ hsound0.buffered hsmall0 hsound0.pos _ harrive
    obtain ⟨rfl,-⟩:=harrived seq frame rfl
    have hseqs : ((run cap pre).next cap (.arrive seq frame)).seqs=(run cap pre).seqs++
      keys ((run cap pre).state.turn cap (.arrive seq frame)).delivered := SortedMap.keys_append ..
    have hstays : ∀ hx : seq∈(run cap (pre++[.arrive seq frame])).seqs ∨
        seq∈keys (run cap (pre++[.arrive seq frame])).state.buf,
        seq∈(run cap events).seqs ∨ seq∈keys (run cap events).state.buf := by
      intro hx
      rw [hsplit'] at hevents ⊢
      exact run_keeps cap hevents hx
    rcases Nat.lt_or_ge seq e0 with hlt | hge
    · -- behind what was released before it came
      rcases hsound0.last with hone | ⟨m,hm,hme⟩
      · have:=(harrive seq frame rfl).1
        omega
      · rcases Nat.lt_or_ge seq m with hsm | hsm
        · exact .inr (.inr ⟨m,hm,hsm⟩)
        · obtain rfl : m=seq := by omega
          have hdelivered : m∈(run cap (pre++[.arrive m frame])).seqs := by
            rw [run_snoc,hseqs]
            exact mem_append_left _ hm
          rcases hstays (.inl hdelivered) with hx | hx
          · exact .inl hx
          · exact .inr (.inl hx)
    · have hnow : seq∈(run cap (pre++[.arrive seq frame])).seqs ∨
          seq∈keys (run cap (pre++[.arrive seq frame])).state.buf := by
        rw [run_snoc,hseqs]
        rcases (hmoves.kept seq).mpr (.inr ⟨rfl,hge⟩) with hx | hx
        · exact .inl (mem_append_right _ hx)
        · exact .inr hx
      rcases hstays hnow with hx | hx
      · exact .inl hx
      · exact .inr (.inl hx)
  · intro hnone
    rw [hexp]
    exact hsound.contiguous hnone

theorem tell_ordering_swapped : (run 4 [.arrive 2 "b",.arrive 1 "a"]).seqs.Pairwise (·<·) :=
  (tell_ordering 4 [.arrive 2 "b",.arrive 1 "a"] fun seq frame h => by
    simp only [mem_cons,Event.arrive.injEq,List.not_mem_nil,or_false] at h
    omega).1

example : (run 4 [.arrive 2 "b",.arrive 1 "a"]).delivered=[(1,"a"),(2,"b")] := by decide

end Parrot.Tell
