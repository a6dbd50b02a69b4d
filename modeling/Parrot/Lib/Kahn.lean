import Mathlib.Data.Finset.Max
import Mathlib.Data.List.Lex

/-! # Kahn's algorithm with an ordered ready set

Each node counts the edges to what has not left yet, repeated edges included, and leaves when
it is the least of those that count none. Where the edges lead to lower ranks, every node leaves,
and the order is the least of all that keep the edges. -/

namespace Kahn
open Function (update)
open List (mem_cons_self mem_cons_of_mem mem_cons)
variable {κ : Type} [LinearOrder κ]

structure State (κ : Type) where
  indegree : κ → Option ℕ
  ready : Finset κ

/-- There is no result for a node without a count, or one that counts no edge. -/
def release (s : State κ) (k : κ) : Option (State κ) :=
  match s.indegree k with
  | some (n+1) => some ⟨update s.indegree k (some n),if n=0 then insert k s.ready else s.ready⟩
  | _ => none

def leave (dependents : κ → List κ) (k : κ) (s : State κ) : Option (State κ) :=
  (dependents k).foldlM release {s with ready:=s.ready.erase k}

def order (dependents : κ → List κ) : ℕ → State κ → Option (List κ)
  | 0, s => if s.ready=∅ then some [] else none
  | fuel+1, s =>
    match s.ready.min with
    | none => some []
    | some k => do
      let s ← leave dependents k s
      let rest ← order dependents fuel s
      some (k::rest)

def Keeps (edges : κ → List κ) : List κ → List κ → Prop
  | _, [] => True
  | done, k::rest => k∉done ∧ (∀ d∈edges k, d∈done) ∧ Keeps edges (k::done) rest

structure Ordering (nodes : Finset κ) (edges : κ → List κ) (done l : List κ) : Prop where
  keeps : Keeps edges done l
  mem : ∀ k, k∈l ↔ k∈nodes ∧ k∉done

structure Inv (nodes : Finset κ) (edges : κ → List κ) (done : List κ) (s : State κ) : Prop where
  indegree : ∀ k, s.indegree k=if k∈nodes then some ((edges k).countP (· ∉ done)) else none
  ready : ∀ k, k∈s.ready ↔ k∈nodes ∧ k∉done ∧ ∀ d∈edges k, d∈done
  closed : ∀ k∈done, ∀ d∈edges k, d∈done

variable {nodes : Finset κ} {edges dependents : κ → List κ} {done l : List κ} {s : State κ}

omit [LinearOrder κ] in
theorem Keeps.nodup (h : Keeps edges done l) : l.Nodup ∧ ∀ k∈l, k∉done := by
  induction l generalizing done with
  | nil => simp
  | cons k rest ih =>
    obtain ⟨hk,-,hrest⟩:=h
    obtain ⟨hnodup,hfree⟩:=ih hrest
    refine ⟨List.nodup_cons.mpr ⟨fun hmem => hfree k hmem (mem_cons_self ..),hnodup⟩,fun x hx => ?_⟩
    rcases List.mem_cons.mp hx with rfl | hx
    · exact hk
    · exact fun hmem => hfree x hx (mem_cons_of_mem _ hmem)

omit [LinearOrder κ] in
theorem Keeps.before {before after : List κ} {k : κ} (h : Keeps edges done (before++k::after)) :
    ∀ d∈edges k, d∈before ∨ d∈done := by
  induction before generalizing done with
  | nil => exact fun d hd => .inr (h.2.1 d hd)
  | cons x before ih =>
    intro d hd
    rcases ih h.2.2 d hd with hin | hin
    · exact .inl (mem_cons_of_mem _ hin)
    · rcases List.mem_cons.mp hin with rfl | hin
      · exact .inl (mem_cons_self ..)
      · exact .inr hin

omit [LinearOrder κ] in
theorem keeps_of_before (hnodup : l.Nodup) (hfree : ∀ k∈l, k∉done)
    (h : ∀ before k after, l=before++k::after → ∀ d∈edges k, d∈before ∨ d∈done) : Keeps edges done l := by
  induction l generalizing done with
  | nil => trivial
  | cons k rest ih =>
    obtain ⟨hk,hnodup⟩:=List.nodup_cons.mp hnodup
    refine ⟨hfree k (mem_cons_self ..),fun d hd => (h [] k rest rfl d hd).resolve_left (by simp),ih hnodup ?_ ?_⟩
    · intro x hx hmem
      rcases List.mem_cons.mp hmem with rfl | hmem
      · exact hk hx
      · exact hfree x (mem_cons_of_mem _ hx) hmem
    · intro before x after heq d hd
      rcases h (k::before) x after (by rw [heq]; rfl) d hd with hin | hin
      · rcases List.mem_cons.mp hin with rfl | hin
        · exact .inr (mem_cons_self ..)
        · exact .inl hin
      · exact .inr (mem_cons_of_mem _ hin)

theorem foldlM_release {ks : List κ} (hcount : ∀ k∈ks, ∃ n, s.indegree k=some n ∧ ks.count k≤n) :
    ∃ s', ks.foldlM release s=some s' ∧ (∀ k, s'.indegree k=(s.indegree k).map (· - ks.count k)) ∧
      ∀ k, k∈s'.ready ↔ k∈s.ready ∨ k∈ks ∧ s.indegree k=some (ks.count k) := by
  induction ks generalizing s with
  | nil => exact ⟨s,rfl,fun k => by simp,fun k => by simp⟩
  | cons x ks ih =>
    obtain ⟨n,hn,hle⟩:=hcount x (mem_cons_self ..)
    rw [List.count_cons_self] at hle
    obtain ⟨m,rfl⟩ : ∃ m, n=m+1 := ⟨n-1,by omega⟩
    have hrelease : release s x=some ⟨update s.indegree x (some m),if m=0 then insert x s.ready else s.ready⟩ := by
      simp [release,hn]
    have hnext : ∀ k∈ks, ∃ n, update s.indegree x (some m) k=some n ∧ ks.count k≤n := by
      intro k hk
      by_cases hkx : k=x
      · subst hkx
        exact ⟨m,Function.update_self ..,by omega⟩
      · obtain ⟨n,hn,hle⟩:=hcount k (mem_cons_of_mem _ hk)
        rw [List.count_cons_of_ne (Ne.symm hkx)] at hle
        exact ⟨n,by rw [Function.update_of_ne hkx,hn],hle⟩
    obtain ⟨s',hs',hindegree,hready⟩:=ih (s := ⟨update s.indegree x (some m),_⟩) hnext
    refine ⟨s',by rw [List.foldlM_cons,hrelease]; exact hs',fun k => ?_,fun k => ?_⟩
    · rw [hindegree]
      by_cases hkx : k=x
      · subst hkx
        simp [hn]
      · simp [Function.update_of_ne hkx,List.count_cons_of_ne (Ne.symm hkx)]
    · rw [hready]
      by_cases hkx : k=x
      · subst hkx
        simp only [Function.update_self,hn,List.count_cons_self,Option.some.injEq,mem_cons,true_or,true_and]
        have hlast : m+1=ks.count k+1 → m≠0 → k∈ks := fun heq hm => List.count_pos_iff.mp (by omega)
        by_cases hm : m=0
        · have hzero : ks.count k=0 := by omega
          simp [hm,hzero]
        · simp only [if_neg hm]
          constructor
          · exact fun h => h.imp_right fun h => congrArg (· + 1) h.2
          · exact fun h => h.imp_right fun h => ⟨hlast h hm,by omega⟩
      · simp only [Function.update_of_ne hkx,List.count_cons_of_ne (Ne.symm hkx),mem_cons,hkx,false_or]
        split
        · simp [hkx]
        · rfl

omit [LinearOrder κ] in
theorem countP_cons [DecidableEq κ] {k : κ} (hk : k∉done) (l : List κ) :
    l.countP (· ∉ k::done)+l.count k=l.countP (· ∉ done) := by
  induction l with
  | nil => rfl
  | cons x l ih =>
    rw [List.countP_cons,List.countP_cons,List.count_cons,← ih]
    by_cases hx : x=k
    · simp [hx,hk]
      omega
    · by_cases hd : x∈done <;> simp [hx,hd]
      omega

theorem leave_inv {k : κ} (h : Inv nodes edges done s) (hk : k∈s.ready)
    (hdependents : ∀ x, (dependents k).count x=if x∈nodes then (edges x).count k else 0) :
    ∃ s', leave dependents k s=some s' ∧ Inv nodes edges (k::done) s' := by
  obtain ⟨hnode,hfree,hedges⟩:=(h.ready k).mp hk
  have hnot : k∉edges k := fun hself => hfree (hedges k hself)
  have hcount : ∀ x∈dependents k, ∃ n, s.indegree x=some n ∧ (dependents k).count x≤n := by
    intro x hx
    have hpos:=List.count_pos_iff.mpr hx
    rw [hdependents] at hpos
    split at hpos
    · rename_i hx
      have hsum:=countP_cons hfree (edges x)
      exact ⟨_,(h.indegree x).trans (if_pos hx),by rw [hdependents,if_pos hx]; omega⟩
    · omega
  obtain ⟨s',hs',hindegree,hready⟩:=foldlM_release (s := {s with ready:=s.ready.erase k}) hcount
  refine ⟨s',hs',⟨fun x => ?_,fun x => ?_,fun x hx d hd => ?_⟩⟩
  · have hsum:=countP_cons hfree (edges x)
    rw [hindegree,h.indegree,hdependents]
    split
    · simp only [Option.map_some,Option.some.injEq]
      omega
    · rfl
  · have hsum:=countP_cons hfree (edges x)
    rw [hready,Finset.mem_erase,h.ready,h.indegree,hdependents]
    by_cases hx : x∈nodes
    · have hall : (∀ d∈edges x, d∈k::done) ↔ (edges x).countP (· ∉ k::done)=0 := by
        simp [List.countP_eq_zero,or_iff_not_imp_left]
      have hdependent : x∈dependents k ↔ 0<(edges x).count k := by rw [← List.count_pos_iff,hdependents,if_pos hx]
      simp only [hx,if_true,true_and,Option.some.injEq,hdependent]
      rw [hall]
      constructor
      · rintro (⟨hxk,hxd,hin⟩ | ⟨hpos,heq⟩)
        · exact ⟨by simp [hxk,hxd],hall.mp fun d hd => mem_cons_of_mem _ (hin d hd)⟩
        · have hedge : k∈edges x := List.count_pos_iff.mp hpos
          refine ⟨fun hmem => ?_,by omega⟩
          rcases List.mem_cons.mp hmem with rfl | hmem
          · exact hnot hedge
          · exact hfree (h.closed x hmem k hedge)
      · rintro ⟨hxd,hzero⟩
        obtain ⟨hxk,hxd⟩:=not_or.mp (mt List.mem_cons.mpr hxd)
        by_cases hedge : k∈edges x
        · exact .inr ⟨List.count_pos_iff.mpr hedge,by omega⟩
        · refine .inl ⟨hxk,hxd,fun d hd => ?_⟩
          exact List.mem_of_ne_of_mem (fun hdk : d=k => hedge (hdk ▸ hd)) (hall.mpr hzero d hd)
    · simp [hx]
  · rcases List.mem_cons.mp hx with rfl | hx
    · exact mem_cons_of_mem _ (hedges d hd)
    · exact mem_cons_of_mem _ (h.closed x hx d hd)

theorem exists_ready (h : Inv nodes edges done s) {rank : κ → ℕ} (hrank : ∀ k∈nodes, ∀ d∈edges k, d∈nodes ∧ rank d<rank k)
    (hempty : s.ready=∅) : ∀ k∈nodes, k∈done := by
  have hall : ∀ n k, rank k=n → k∈nodes → k∈done := by
    intro n
    induction n using Nat.strong_induction_on with
    | h n ih =>
      intro k hn hk
      by_contra hfree
      have hready : k∈s.ready := (h.ready k).mpr ⟨hk,hfree,fun d hd => by
        obtain ⟨hd,hlt⟩:=hrank k hk d hd
        exact ih (rank d) (by omega) d rfl hd⟩
      simp [hempty] at hready
  exact fun k hk => hall (rank k) k rfl hk

theorem order_least {fuel : ℕ} (h : Inv nodes edges done s) {rank : κ → ℕ} (hrank : ∀ k∈nodes, ∀ d∈edges k, d∈nodes ∧
    rank d<rank k) (hdependents : ∀ k x, (dependents k).count x=if x∈nodes then (edges x).count k else 0)
    (hfuel : (nodes \ done.toFinset).card≤fuel) : ∃ l, order dependents fuel s=some l ∧ Ordering nodes edges done l ∧
    ∀ l', Ordering nodes edges done l' → List.Lex (·<·) l l' ∨ l'=l := by
  induction fuel generalizing done s with
  | zero =>
    have hnone : ∀ k∈nodes, k∈done := by simpa [Finset.sdiff_eq_empty_iff_subset,Finset.subset_iff] using hfuel
    have hempty : s.ready=∅ := by
      refine Finset.eq_empty_of_forall_notMem fun k hk => ?_
      obtain ⟨hnode,hfree,-⟩:=(h.ready k).mp hk
      exact hfree (hnone k hnode)
    exact ⟨[],by simp [order,hempty],⟨trivial,by simpa using hnone⟩,fun l' _ => List.lex_nil_or_eq_nil l'⟩
  | succ fuel ih =>
    rcases hmin : s.ready.min with _ | k
    · have hnone:=exists_ready h hrank (Finset.min_eq_top.mp hmin)
      exact ⟨[],by simp [order,hmin],⟨trivial,by simpa using hnone⟩,fun l' _ => List.lex_nil_or_eq_nil l'⟩
    · have hk : k∈s.ready := Finset.mem_of_min hmin
      obtain ⟨hnode,hfree,hedges⟩:=(h.ready k).mp hk
      obtain ⟨s',hs',hinv⟩:=leave_inv h hk (hdependents k)
      have hless : nodes \ (k::done).toFinset=(nodes \ done.toFinset).erase k := by
        rw [List.toFinset_cons,← Finset.sdiff_insert]
      have hcard : k∈nodes \ done.toFinset := by simp [hnode,hfree]
      have hpos:=Finset.card_pos.mpr ⟨k,hcard⟩
      obtain ⟨l,hl,hordering,hleast⟩:=ih hinv (by rw [hless,Finset.card_erase_of_mem hcard]; omega)
      have hmem (x : κ) (rest : List κ) (hrest : ∀ x, x∈rest ↔ x∈nodes ∧ x∉k::done) : x∈k::rest ↔ x∈nodes ∧ x∉done := by
        rw [mem_cons,hrest,mem_cons]
        by_cases hx : x=k
        · simp [hx,hnode,hfree]
        · simp [hx]
      refine ⟨k::l,?_,⟨⟨hfree,hedges,hordering.keeps⟩,fun x => hmem x l hordering.mem⟩,fun l' hl' => ?_⟩
      · simp only [order,hmin]
        rw [hs']
        simp [hl]
      · -- Whatever comes first in another order is ready as well.
        cases l' with
        | nil => exact absurd ((hl'.mem k).mpr ⟨hnode,hfree⟩) (by simp)
        | cons x rest =>
          obtain ⟨hxfree,hxedges,hrest⟩:=hl'.keeps
          have hx : x∈s.ready := (h.ready x).mpr ⟨((hl'.mem x).mp (mem_cons_self ..)).1,hxfree,hxedges⟩
          rcases lt_or_eq_of_le (Finset.min_le_of_eq hx hmin) with hlt | rfl
          · exact .inl (.rel hlt)
          · have hother : Ordering nodes edges (k::done) rest := by
              refine ⟨hrest,fun y => ⟨fun hy => ?_,fun hy => ?_⟩⟩
              · exact ⟨((hl'.mem y).mp (mem_cons_of_mem _ hy)).1,hrest.nodup.2 y hy⟩
              · obtain ⟨hyk,hyd⟩:=not_or.mp (mt List.mem_cons.mpr hy.2)
                exact List.mem_of_ne_of_mem hyk ((hl'.mem y).mpr ⟨hy.1,hyd⟩)
            exact (hleast rest hother).imp .cons (congrArg _)

end Kahn
