import Mathlib.Data.List.Perm.Subperm
import Parrot.Tell.Reorder

/-! # Numbers of a sender (`ref_.rs:82-92`) at the reorder worker

A sender counts the frames for each target from 1 and skips 0 when its counter wraps. -/

namespace Parrot.Tell
open List (range' map_append length_range' mem_range'_1)
open SortedMap (keys)

abbrev SeqCounters := String → ℕ

def bump (c : ℕ) : ℕ := if wrappingAdd c 1=0 then 1 else wrappingAdd c 1

def nextSeq (g : SeqCounters) (node : String) : ℕ × SeqCounters :=
  (bump (g node),Function.update g node (bump (g node)))

/-- The numbers that calls for several targets hand out for `node`. -/
def numbersFor (node : String) : SeqCounters → List String → List ℕ
  | _,[] => []
  | g,target::calls =>
    let (seq,g'):=nextSeq g target
    if target=node then seq::numbersFor node g' calls else numbersFor node g' calls

/-- The number of the `i`-th frame for a target. -/
def assigned : ℕ → ℕ
  | 0 => 0
  | i+1 => bump (assigned i)

theorem numbersFor_eq (node : String) (g : SeqCounters) (calls : List String) {k : ℕ} (hg : g node=assigned k) :
    numbersFor node g calls=(range' (k+1) (calls.count node)).map assigned := by
  induction calls generalizing g k with
  | nil => rfl
  | cons target calls ih =>
    simp only [numbersFor,nextSeq]
    by_cases ht : target=node
    · subst ht
      rw [if_pos rfl,List.count_cons_self,List.range'_succ,List.map_cons,hg,
        @ih _ (k+1) (by rw [Function.update_self]; rfl)]
      rfl
    · rw [if_neg ht,List.count_cons_of_ne ht,ih _ (by rw [Function.update_of_ne (Ne.symm ht),hg])]

theorem assigned_small {i : ℕ} (hi : i<2^32) : assigned i=i := by
  induction i with
  | zero => rfl
  | succ i ih =>
    simp only [assigned,bump,ih (by omega),wrappingAdd,Nat.mod_eq_of_lt hi]
    rw [if_neg (by omega)]

/-- The `i`-th frame of a stream, marked with its place in the order of assignment. -/
def arrival (i : ℕ) : Event ℕ := .arrive (assigned i) i

def Turn.places (t : Turn ℕ) : List ℕ := t.delivered.map Prod.snd

/-- Each of the first `n` frames goes out when it arrives. -/
def InStep (cap n : ℕ) : Prop :=
  ∀ k, k≤n → (run cap ((range' 1 k).map arrival)).places=range' 1 k ∧
    (run cap ((range' 1 k).map arrival)).state.buf=[]

/-- When a frame arrives, only the `window-1` frames right before it may be missing. -/
def Windowed (window : ℕ) (order : List ℕ) : Prop :=
  ∀ pre i post, order=pre++i::post → ∀ j, 1≤j → j+window ≤ i → j∈pre

/-- `n` frames that arrive out of order go out in order, and all of them do. -/
def InWindow (cap n : ℕ) : Prop :=
  ∀ window order, window<cap → order.Perm (range' 1 n) → Windowed window order →
    (run cap (order.map arrival)).places=range' 1 n

theorem arrivals_snoc (k : ℕ) : (range' 1 (k+1)).map arrival=(range' 1 k).map arrival++[arrival (k+1)] := by
  rw [List.range'_1_concat,map_append,List.map_singleton,Nat.add_comm 1 k]

theorem arrive_expected (cap e place : ℕ) :
    (⟨e,[]⟩ : Reorder ℕ).arrive cap e place=⟨[(e,place)],⟨wrappingAdd e 1,[]⟩,0,0⟩ := by
  unfold Reorder.arrive
  rw [if_pos rfl]
  rfl

theorem arrive_wrapped (cap place : ℕ) : (⟨0,[]⟩ : Reorder ℕ).arrive cap 1 place =
    if cap=0 then ⟨[(1,place)],⟨2,[]⟩,1,0⟩ else ⟨[],⟨0,[(1,place)]⟩,0,0⟩ := by
  unfold Reorder.arrive
  rw [if_neg (by decide),if_neg (by decide)]
  by_cases hcap : cap=0
  · subst hcap
    rfl
  · rw [if_neg hcap]
    exact if_neg (show ¬ 1>cap by omega)

theorem inOrder_state (cap k : ℕ) (hk : cap=0 ∨ k<2^32) : (run cap ((range' 1 k).map arrival)).places=range' 1 k ∧
    (run cap ((range' 1 k).map arrival)).state=⟨wrappingAdd (assigned k) 1,[]⟩ := by
  induction k with
  | zero => exact ⟨rfl,rfl⟩
  | succ k ih =>
    obtain ⟨hplaces,hstate⟩:=ih (by omega)
    rw [arrivals_snoc,run_snoc]
    have hturn : ∃ flushed, (run cap ((range' 1 k).map arrival)).state.turn cap (arrival (k+1)) =
        ⟨[(assigned (k+1),k+1)],⟨wrappingAdd (assigned (k+1)) 1,[]⟩,flushed,0⟩ := by
      rw [hstate]
      simp only [arrival,Reorder.turn,assigned,bump]
      by_cases hwrap : wrappingAdd (assigned k) 1=0
      · -- only a worker without a buffer gets here
        have hcap : cap=0 := by
          rcases hk with hk | hk
          · exact hk
          · rw [assigned_small (by omega),wrappingAdd,Nat.mod_eq_of_lt hk] at hwrap
            omega
        rw [if_pos hwrap,hwrap,arrive_wrapped,if_pos hcap]
        exact ⟨1,rfl⟩
      · rw [if_neg hwrap,arrive_expected]
        exact ⟨0,rfl⟩
    obtain ⟨flushed,hturn⟩:=hturn
    unfold Turn.next
    rw [hturn]
    refine ⟨?_,rfl⟩
    have hrange : range' 1 (k+1)=range' 1 k++[k+1] := by
      rw [List.range'_1_concat,Nat.add_comm 1 k]
    simp only [Turn.places] at hplaces ⊢
    rw [map_append,hplaces,hrange]
    rfl

theorem inStep_iff (cap n : ℕ) : InStep cap n ↔ cap=0 ∨ n<2^32 := by
  constructor
  · intro h
    by_contra hnot
    push Not at hnot
    obtain ⟨hcap,hn⟩:=hnot
    -- the frame after the last 32-bit number stays in the buffer
    obtain ⟨m,hm⟩ : ∃ m, m+1=2^32 := ⟨2^32-1,rfl⟩
    obtain ⟨-,hstate⟩:=inOrder_state cap m (.inr (by omega))
    have hassigned : assigned m=m := assigned_small (by omega)
    have hzero : wrappingAdd m 1=0 := by rw [wrappingAdd,hm,Nat.mod_self]
    rw [hassigned,hzero] at hstate
    have hnext : arrival (m+1)=.arrive 1 (m+1) := by
      simp only [arrival,assigned]
      rw [hassigned,bump,if_pos hzero]
    have hbuf:=(h (m+1) (by omega)).2
    rw [arrivals_snoc,run_snoc,hnext] at hbuf
    unfold Turn.next at hbuf
    rw [hstate] at hbuf
    simp only [Reorder.turn] at hbuf
    rw [arrive_wrapped,if_neg hcap] at hbuf
    contradiction
  · intro h k hk
    obtain ⟨hplaces,hstate⟩:=inOrder_state cap k (by omega)
    exact ⟨hplaces,by rw [hstate]⟩

theorem Moves.delivered_eq {α : Type} {e e' : ℕ} {buf : List (ℕ × α)} {arrived : Option ℕ} {turn : Turn α}
    (h : Moves e buf arrived turn e') (hflushed : turn.flushed=0) : keys turn.delivered=range' e (e'-e) := by
  obtain ⟨k,n,hkeys,-,hzero,hpos,hk⟩:=h.out
  rw [hkeys,hk hflushed]
  rcases Nat.eq_zero_or_pos n with hn | hn
  · rw [hzero hn,hn,Nat.sub_self]
  · rw [hpos hn,hk hflushed,Nat.add_sub_cancel_left]

structure Gathering (window : ℕ) (pre : List ℕ) (t : Turn ℕ) (e : ℕ) : Prop where
  sound : Sound t e
  flushed : t.flushed=0
  near : ∀ k∈keys t.state.buf, k<e+window
  arrived : ∀ x, x∈pre ↔ (1≤x ∧ x<e) ∨ x∈keys t.state.buf

theorem length_le_window {e window : ℕ} {buf : List (ℕ × ℕ)} (hsorted : SortedMap.Sorted buf)
    (hbuf : ∀ k∈keys buf, e<k ∧ k<e+window) : buf.length≤window := by
  have hnodup : (keys buf).Nodup := hsorted.imp fun h => Nat.ne_of_lt h
  have hsub : keys buf⊆range' (e+1) window := by
    intro k hk
    have:=hbuf k hk
    exact List.mem_range'_1.mpr ⟨by omega,by omega⟩
  have hlen:=(List.subperm_of_subset hnodup hsub).length_le
  rwa [SortedMap.length_keys,length_range'] at hlen

theorem window_turn {cap window e i : ℕ} {st : Reorder ℕ} (h : Buffered e st) (hnear : ∀ k∈keys st.buf, k<e+window)
    (hcap : window<cap) (hei : e ≤ i) (hi : i<2^32) (hwindow : i<e+window) (hclose : i<e+2^31) (place : ℕ) : ∃ e',
    Moves e st.buf (some i) (st.arrive cap i place) e' ∧ (st.arrive cap i place).flushed=0 := by
  rcases Nat.eq_or_lt_of_le hei with rfl | hlt
  · obtain ⟨⟨e',hmoves⟩,-,hflushed,-⟩:=@arrive_next _ e cap st h hi place
    exact ⟨e',hmoves,hflushed⟩
  · obtain ⟨hbuffered,harrive⟩:=@arrive_early _ e cap i st h place hlt hi hclose
    have hroom : (SortedMap.insert i place st.buf).length≤window := by
      refine @length_le_window e _ _ hbuffered.sorted ?_
      intro k hk
      refine ⟨(hbuffered.above k hk).1,?_⟩
      rcases (SortedMap.mem_keys_insert ..).mp hk with rfl | hk
      · exact hwindow
      · exact hnear k hk
    rw [harrive,if_neg (by omega)]
    refine ⟨e,quiet_moves hbuffered ?_,rfl⟩
    intro x
    rw [SortedMap.mem_keys_insert,Option.some.injEq]
    constructor
    · rintro (rfl | hx)
      · exact .inr ⟨rfl,hei⟩
      · exact .inl hx
    · rintro (hx | ⟨rfl,-⟩)
      · exact .inr hx
      · exact .inl rfl

theorem gathering_next {cap window e i : ℕ} {pre : List ℕ} {t : Turn ℕ} (h : Gathering window pre t e)
    (hcap : window<cap) (hi : i<2^32) (hpos : 1 ≤ i) (hnew : i∉pre)
    (hwindow : ∀ j, 1≤j → j+window ≤ i → j∈pre) (hclose : window≤2^31 ∨ i≤2^31) (place : ℕ) :
    ∃ e', Gathering window (pre++[i]) (t.next cap (.arrive i place)) e' := by
  have hpos1:=h.sound.pos
  -- `e` is still missing, so `i` is neither behind it nor a window ahead
  have hmissing : e∉pre := by
    intro hmem
    rcases (h.arrived e).mp hmem with ⟨-,hlt⟩ | hbuf
    · exact Nat.lt_irrefl e hlt
    · exact Nat.lt_irrefl e (h.sound.buffered.above e hbuf).1
  have hei : e ≤ i := by
    by_contra hlt
    exact hnew ((h.arrived i).mpr (.inl ⟨hpos,by omega⟩))
  have hiw : i<e+window := by
    by_contra hge
    exact hmissing (hwindow e hpos1 (by omega))
  obtain ⟨e',hmoves,hflushed⟩ :=
    @window_turn cap window e i t.state h.sound.buffered h.near hcap hei hi hiw (by omega) place
  have hle:=hmoves.le
  refine ⟨e',moves_sound h.sound hmoves,?_,?_,?_⟩
  · change t.flushed+(t.state.arrive cap i place).flushed=0
    rw [h.flushed,hflushed]
  · intro k hk
    rcases (hmoves.kept k).mp (.inr hk) with hk | ⟨heq,-⟩
    · have:=h.near k hk
      omega
    · rw [← Option.some.inj heq]
      omega
  · intro x
    have hkept:=hmoves.kept x
    rw [hmoves.delivered_eq hflushed,mem_range'_1,Option.some.injEq] at hkept
    have hbuf : (t.next cap (.arrive i place)).state.buf=(t.state.arrive cap i place).state.buf := rfl
    rw [List.mem_append,List.mem_singleton,h.arrived x,hbuf]
    constructor
    · rintro ((hx | hx) | rfl)
      · exact .inl ⟨hx.1,by omega⟩
      · rcases hkept.mpr (.inl hx) with hx | hx
        · exact .inl ⟨by omega,by omega⟩
        · exact .inr hx
      · rcases hkept.mpr (.inr ⟨rfl,hei⟩) with hx | hx
        · exact .inl ⟨hpos,by omega⟩
        · exact .inr hx
    · rintro (hx | hx)
      · rcases Nat.lt_or_ge x e with hxe | hxe
        · exact .inl (.inl ⟨hx.1,hxe⟩)
        · rcases hkept.mp (.inl ⟨hxe,by omega⟩) with hx | ⟨rfl,-⟩
          · exact .inl (.inr hx)
          · exact .inr rfl
      · rcases hkept.mp (.inr hx) with hx | ⟨rfl,-⟩
        · exact .inl (.inr hx)
        · exact .inr rfl

theorem gathering_run {cap window : ℕ} {order : List ℕ} (hcap : window<cap) (hnodup : order.Nodup)
    (hbounds : ∀ i∈order, 1 ≤ i ∧ i<2^32) (hwindow : Windowed window order)
    (hclose : window≤2^31 ∨ ∀ i∈order, i≤2^31) : ∃ e, Gathering window order (run cap (order.map arrival)) e := by
  induction order using List.reverseRecOn with
  | nil =>
    refine ⟨1,initial_sound,rfl,by simp [run,Reorder.initial],?_⟩
    intro x
    simp only [run,Reorder.initial,List.map_nil,List.foldl_nil,SortedMap.keys_nil,List.not_mem_nil,or_false,
      false_iff]
    omega
  | append_singleton pre i ih =>
    have hlast : i∈pre++[i] := List.mem_append_right _ (List.mem_singleton_self i)
    have hnew : i∉pre := fun hmem => (List.nodup_append.mp hnodup).2.2 i hmem i (List.mem_singleton_self i) rfl
    obtain ⟨e,hgather⟩:=ih (List.nodup_append.mp hnodup).1
      (fun j hj => hbounds j (List.mem_append_left _ hj))
      (fun p j q hsplit => hwindow p j (q++[i]) (by rw [hsplit]; simp))
      (hclose.imp_right fun h j hj => h j (List.mem_append_left _ hj))
    obtain ⟨hpos,hi⟩:=hbounds i hlast
    have hevent : arrival i=.arrive i i := by rw [arrival,assigned_small hi]
    rw [map_append,List.map_singleton,run_snoc,hevent]
    exact gathering_next hgather hcap hi hpos hnew (hwindow pre i [] rfl)
      (hclose.imp_right fun h => h i hlast) i

theorem places_eq {cap : ℕ} {order : List ℕ} (hbounds : ∀ i∈order, i<2^32) :
    (run cap (order.map arrival)).places=(run cap (order.map arrival)).seqs := by
  refine List.map_congr_left ?_
  intro p hp
  obtain ⟨i,hi,heq⟩:=List.mem_map.mp ((run_conserves cap (order.map arrival)).1 p (.inl hp))
  rw [arrival,assigned_small (hbounds i hi)] at heq
  obtain ⟨h1,h2⟩:=Event.arrive.inj heq
  rw [← h1,← h2]

theorem inWindow_of_small {cap n : ℕ} (hn : n<2^32) (hclose : cap≤2^31+1 ∨ n≤2^31) : InWindow cap n := by
  intro window order hcap hperm hwindow
  have hmem : ∀ i, i∈order ↔ 1 ≤ i ∧ i≤n := by
    intro i
    rw [hperm.mem_iff,mem_range'_1]
    omega
  have hbounds : ∀ i∈order, 1 ≤ i ∧ i<2^32 := by
    intro i hi
    have:=(hmem i).mp hi
    omega
  have hclose' : window≤2^31 ∨ ∀ i∈order, i≤2^31 := by
    rcases hclose with h | h
    · exact .inl (by omega)
    · refine .inr ?_
      intro i hi
      have:=(hmem i).mp hi
      omega
  obtain ⟨e,hgather⟩:=gathering_run hcap (hperm.nodup_iff.mpr List.nodup_range') hbounds hwindow hclose'
  have hseqs:=hgather.sound.contiguous hgather.flushed
  have hpos:=hgather.sound.pos
  -- nothing between 1 and `n` is missing, and nothing beyond was sent
  have hend : e=n+1 := by
    have hge : ¬ e≤n := by
      intro hle
      rcases (hgather.arrived e).mp ((hmem e).mpr ⟨hpos,hle⟩) with ⟨-,hlt⟩ | hbuf
      · exact Nat.lt_irrefl e hlt
      · exact Nat.lt_irrefl e (hgather.sound.buffered.above e hbuf).1
    have hle : e≤n+1 := by
      by_contra hgt
      have hin:=(hmem (e-1)).mp ((hgather.arrived (e-1)).mpr (.inl ⟨by omega,by omega⟩))
      omega
    omega
  rw [places_eq fun i hi => (hbounds i hi).2,hseqs,hend,Nat.add_sub_cancel]

theorem run_late_le {α : Type} (cap : ℕ) (pre post : List (Event α)) :
    (run cap pre).late≤(run cap (pre++post)).late := by
  induction post using List.reverseRecOn with
  | nil => rw [List.append_nil]
  | append_singleton post event ih =>
    rw [← List.append_assoc,run_snoc]
    exact ih.trans (Nat.le_add_right ..)

def leapOrder (n : ℕ) : List ℕ := (2^31+1)::(range' 1 (2^31)++range' (2^31+2) (n-2^31-1))

theorem leapOrder_perm {n : ℕ} (hn : 2^31<n) : (leapOrder n).Perm (range' 1 n) := by
  unfold leapOrder
  obtain ⟨m,hm⟩ : ∃ m, m=2^31 := ⟨_,rfl⟩
  rw [← hm] at hn ⊢
  have hsplit : range' 1 n=range' 1 m++(m+1)::range' (m+2) (n-m-1) := by
    have htail : (m+1)::range' (m+2) (n-m-1)=range' (1+m) (n-m) := by
      have hsucc : n-m=(n-m-1)+1 := by omega
      rw [congrArg (range' (1+m)) hsucc,List.range'_succ,Nat.add_comm 1 m]
    rw [htail,List.range'_append_1]
    congr 1
    omega
  rw [hsplit]
  exact List.perm_middle.symm

theorem leapOrder_windowed {n : ℕ} (hn : 2^31<n) : Windowed (2^31+1) (leapOrder n) := by
  intro pre i post hsplit j hj hji
  have hmem : j∈leapOrder n := by
    have hi : i∈range' 1 n := by
      rw [← (leapOrder_perm hn).mem_iff,hsplit]
      exact List.mem_append_right _ (List.mem_cons_self ..)
    rw [(leapOrder_perm hn).mem_iff,mem_range'_1]
    rw [mem_range'_1] at hi
    omega
  rw [hsplit] at hmem
  rcases List.mem_append.mp hmem with hbefore | hafter
  · exact hbefore
  · -- all but the first frame come in order
    have hsorted : (range' 1 (2^31)++range' (2^31+2) (n-2^31-1)).Pairwise (·<·) := by
      rw [List.pairwise_append]
      refine ⟨List.pairwise_lt_range',List.pairwise_lt_range',?_⟩
      intro a ha b hb
      rw [mem_range'_1] at ha hb
      omega
    cases pre with
    | nil =>
      have hi : 2^31+1=i := (List.cons.inj hsplit).1
      omega
    | cons x pre =>
      have htail : range' 1 (2^31)++range' (2^31+2) (n-2^31-1)=pre++i::post := (List.cons.inj hsplit).2
      rw [htail,List.pairwise_append] at hsorted
      have hlt:=(List.pairwise_cons.mp hsorted.2.1).1
      rcases List.mem_cons.mp hafter with rfl | hafter
      · omega
      · have:=hlt j hafter
        omega

theorem not_inWindow {cap n : ℕ} (hcap : 2^31+1<cap) (hn : 2^31<n) : ¬ InWindow cap n := by
  intro h
  have hplaces:=congrArg List.length (h _ _ hcap (leapOrder_perm hn) (leapOrder_windowed hn))
  have hcount:=(run_conserves cap ((leapOrder n).map arrival)).2
  have hlen : (leapOrder n).length=n := by
    rw [(leapOrder_perm hn).length_eq,length_range']
  have hlate : 1≤(run cap ((leapOrder n).map arrival)).late := by
    have hfirst : (run cap [arrival (2^31+1)]).late=1 := by
      have hevent : arrival (2^31+1)=.arrive (2^31+1) (2^31+1) := by
        rw [arrival,assigned_small (by omega)]
      rw [hevent]
      simp only [run,List.foldl_cons,List.foldl_nil,Turn.next,Reorder.turn,Reorder.initial]
      unfold Reorder.arrive
      rw [if_neg (show ¬ 2^31+1=1 by decide),if_pos (by decide),Nat.zero_add]
    have hle:=run_late_le cap [arrival (2^31+1)]
      ((range' 1 (2^31)++range' (2^31+2) (n-2^31-1)).map arrival)
    rw [hfirst] at hle
    exact hle
  simp only [Turn.places,List.length_map,length_range'] at hplaces hcount
  omega

theorem inStep_and_inWindow (cap n : ℕ) : InStep cap n ∧ InWindow cap n ↔
    (cap=0 ∨ n<2^32) ∧ (cap≤2^31+1 ∨ n≤2^31) := by
  rw [inStep_iff]
  constructor
  · rintro ⟨hstep,hwindow⟩
    refine ⟨hstep,?_⟩
    by_contra hnot
    push Not at hnot
    exact not_inWindow (by omega) (by omega) hwindow
  · rintro ⟨hstep,hclose⟩
    refine ⟨hstep,?_⟩
    rcases hstep with rfl | hn
    · intro window order hlt
      exact absurd hlt (Nat.not_lt_zero window)
    · exact inWindow_of_small hn hclose

/- The two sides agree on streams of any length that does not reach the wrap, for windows
of less than half the circle. -/
theorem sequences_in_step (cap : ℕ) (node : String) (calls : List String) :
    numbersFor node (fun _ => 0) calls=(range' 1 (calls.count node)).map assigned ∧ (InStep cap (calls.count node) ∧
    InWindow cap (calls.count node) ↔ (cap=0 ∨ calls.count node<2^32) ∧ (cap≤2^31+1 ∨ calls.count node≤2^31)) :=
  ⟨@numbersFor_eq node (fun _ => 0) calls 0 rfl,inStep_and_inWindow cap (calls.count node)⟩

/- With the default buffer the frame after the last 32-bit number is held back. -/
theorem sequences_in_step_wrapped : ¬ ∀ (cap : ℕ) (node : String) (calls : List String),
    InStep cap (calls.count node) ∧ InWindow cap (calls.count node) := by
  intro hclaim
  have hstep:=(hclaim 1024 "node" (List.replicate (2^32) "node")).1
  rw [List.count_replicate_self,inStep_iff] at hstep
  omega

end Parrot.Tell
