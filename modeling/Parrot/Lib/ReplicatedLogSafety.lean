import Parrot.Lib.ReplicatedLogInv

/-! # Safety of log replication

Consequences of the invariant: one leader a term, log matching, and leader
completeness, from which any two decided prefixes are comparable. -/

namespace ReplicatedLog
open Function (update_of_ne)

variable {ν ε : Type} {termOf : ε → ℕ} {Maj : Finset ν → Prop} {s s' : State ν ε}

theorem Traced.matching {l l' : List ε} (h : Traced termOf s l) (h' : Traced termOf s l') {k : ℕ} {e e' : ε}
    (he : l[k]? = some e) (he' : l'[k]? = some e') (ht : termOf e=termOf e') : l.take (k+1)=l'.take (k+1) := by
  obtain ⟨hk,-⟩:=List.getElem?_eq_some_iff.mp he
  obtain ⟨hk',-⟩:=List.getElem?_eq_some_iff.mp he'
  obtain ⟨-,hp⟩:=h k e he
  obtain ⟨-,hp'⟩:=h' k e' he'
  rw [← ht] at hp'
  have hlen : (l.take (k+1)).length=(l'.take (k+1)).length := by
    simp only [List.length_take]
    omega
  exact (List.prefix_of_prefix_length_le hp hp' hlen.le).eq_of_length hlen

structure Committed (termOf : ε → ℕ) (Maj : Finset ν → Prop) (s : State ν ε) (t m : ℕ) : Prop where
  leader : s.leader t≠none
  pos : 0 < m
  own : ∃ e, (s.lead t)[m-1]? = some e ∧ termOf e=t
  majority : ∃ Q, Maj Q ∧ ∀ i∈Q, m ≤ s.acked i t

variable {t m : ℕ}

theorem Committed.length_le (h : Committed termOf Maj s t m) : m≤(s.lead t).length := by
  obtain ⟨e,he,-⟩:=h.own
  have:=(List.getElem?_eq_some_iff.mp he).1
  have:=h.pos
  omega

theorem Grows.take_lead (hg : Grows s s') (hm : m≤(s.lead t).length) : (s'.lead t).take m=(s.lead t).take m := by
  obtain ⟨r,hr⟩:=hg.lead t
  rw [← hr,List.take_append_of_le_length hm]

theorem Committed.mono (hg : Grows s s') (h : Committed termOf Maj s t m) : Committed termOf Maj s' t m := by
  obtain ⟨c,hc⟩:=Option.ne_none_iff_exists'.mp h.leader
  obtain ⟨e,he,het⟩:=h.own
  obtain ⟨Q,hQ,hack⟩:=h.majority
  refine ⟨by rw [hg.leader t c hc]; simp,h.pos,⟨e,?_,het⟩,Q,hQ,?_⟩
  · obtain ⟨r,hr⟩:=hg.lead t
    rw [← hr,List.getElem?_append_left (List.getElem?_eq_some_iff.mp he).1]
    exact he
  · intro i hi
    exact (hack i hi).trans (hg.acked_le i t)

variable {l : List ε}

theorem lastTerm_eq {e : ε} (h : l.getLast? = some e) : lastTerm termOf l=termOf e := by
  simp [lastTerm,h]

theorem leader_term_pos (h : Coherent termOf Maj s) {t : ℕ} (hl : s.leader t≠none) : 0<t := by
  obtain ⟨c,hc⟩:=Option.ne_none_iff_exists'.mp hl
  obtain ⟨-,-,l,hcand,-⟩:=h.elected t c hc
  exact (h.cand_le c t (by simp [hcand])).1

theorem term_le_lastTerm (h : Coherent termOf Maj s) (hl : Traced termOf s l) {e : ε}
    (he : e∈l) : termOf e≤lastTerm termOf l := by
  obtain ⟨x,hx⟩ : ∃ x, l.getLast? = some x := by
    cases hlast : l.getLast? with
    | none =>
      rw [List.getLast?_eq_none_iff] at hlast
      simp [hlast] at he
    | some x => exact ⟨x,rfl⟩
  rw [lastTerm_eq hx]
  exact lead_term_le h ((hl.prefix_lead hx).2.subset he)

theorem upToDate_retains (h : Coherent termOf Maj s) {t m t' : ℕ} (hcom : Committed termOf Maj s t m)
    {l ballot : List ε} (hl : Traced termOf s l) (hlt : ∀ e∈l, termOf e<t') (hb : Traced termOf s ballot)
    (hpb : (s.lead t).take m<+:ballot) (hup : UpToDate termOf l ballot)
    (ih : ∀ u, t<u → u<t' → s.leader u≠none → (s.lead t).take m<+:s.lead u) : (s.lead t).take m<+:l := by
  obtain ⟨e,he,het⟩:=hcom.own
  have hpos:=hcom.pos
  have htpos:=leader_term_pos h hcom.leader
  have hmem : e∈(s.lead t).take m := by
    refine List.mem_of_getElem? (i := m-1) ?_
    rw [List.getElem?_take_of_lt (by omega)]
    exact he
  have hbt : t≤lastTerm termOf ballot := het ▸ term_le_lastTerm h hb (hpb.subset hmem)
  have hle : lastTerm termOf ballot≤lastTerm termOf l := by
    rcases hup with hup | ⟨hup,-⟩
    · exact hup.le
    · exact hup.le
  obtain ⟨x,hx⟩ : ∃ x, l.getLast? = some x := by
    cases hlast : l.getLast? with
    | none =>
      simp only [lastTerm,hlast,Option.map_none,Option.getD_none] at hle hbt
      omega
    | some x => exact ⟨x,rfl⟩
  obtain ⟨hlx,hpx⟩:=hl.prefix_lead hx
  rw [lastTerm_eq hx] at hle
  have hxl : x∈l := List.mem_of_getLast? hx
  rcases hup with hup | ⟨hup,hlen⟩
  · rw [lastTerm_eq hx] at hup
    rcases List.prefix_or_prefix_of_prefix (ih (termOf x) (by omega) (hlt x hxl) hlx) hpx with hp | hp
    · exact hp
    · -- the candidate's last entry would be an entry of term `t`'s log
      have:=lead_term_le h (List.mem_of_mem_take (hp.subset hxl))
      omega
  · obtain ⟨y,hy⟩ : ∃ y, ballot.getLast? = some y := by
      cases hlast : ballot.getLast? with
      | none =>
        rw [List.getLast?_eq_none_iff] at hlast
        have:=hpb.subset hmem
        simp [hlast] at this
      | some y => exact ⟨y,rfl⟩
    rw [lastTerm_eq hx,lastTerm_eq hy] at hup
    have hpy:=(hb.prefix_lead hy).2
    rw [hup] at hpy
    exact hpb.trans (List.prefix_of_prefix_length_le hpy hpx hlen)

theorem leader_completeness (hinter : ∀ P Q, Maj P → Maj Q → ∃ i∈P, i∈Q)
    (h : Coherent termOf Maj s) (hcom : Committed termOf Maj s t m) {t' : ℕ} (htt : t<t')
    (hl : s.leader t'≠none) : (s.lead t).take m<+:s.lead t' := by
  induction t' using Nat.strong_induction_on with
  | h t' ih =>
    obtain ⟨c,hc⟩:=Option.ne_none_iff_exists'.mp hl
    obtain ⟨hmaj,hvotes,l,hcand,hpl,-⟩:=h.elected t' c hc
    obtain ⟨Q,hQ,hack⟩:=hcom.majority
    obtain ⟨i,hiV,hiQ⟩:=hinter _ _ hmaj hQ
    have hvote:=hvotes i hiV
    have hvne : s.voted i t'≠none := by simp [hvote]
    have hbetween : ∀ u, t<u → u<t' → s.leader u≠none → (s.lead t).take m<+:s.lead u :=
      fun u h1 h2 h3 => ih u h2 h1 h3
    have hpb : (s.lead t).take m<+:s.ballot i t' := by
      rcases h.ballot_retained i t' hvne (fun _ => hiV) t m htt (hack i hiQ) with hr | ⟨u,h1,h2,h3,h4⟩
      · exact hr
      · exact absurd (hbetween u h1 h2 h3) h4
    obtain ⟨l',hcand',hup⟩:=h.vote i t' c hvote
    rw [hcand] at hcand'
    cases hcand'
    obtain ⟨hlt,htr⟩:=h.cand c t' l hcand
    exact (upToDate_retains h hcom htr hlt (h.ballot_traced i t' hvne) hpb hup hbetween).trans hpl

/- `l` lies in what was committed by term `T` at the latest. -/
def Decided (termOf : ε → ℕ) (Maj : Finset ν → Prop) (s : State ν ε) (T : ℕ) (l : List ε) : Prop :=
  l=[] ∨ ∃ t m, t≤T ∧ Committed termOf Maj s t m ∧ l<+:(s.lead t).take m

theorem Decided.mono {T T' : ℕ} (hg : Grows s s') (hT : T≤T')
    (h : Decided termOf Maj s T l) : Decided termOf Maj s' T' l := by
  rcases h with h | ⟨t,m,ht,hcom,hp⟩
  · exact .inl h
  · exact .inr ⟨t,m,ht.trans hT,hcom.mono hg,by rwa [hg.take_lead hcom.length_le]⟩

theorem Decided.shorter {T : ℕ} {l l' : List ε} (h : Decided termOf Maj s T l) (hp : l'<+:l) :
    Decided termOf Maj s T l' := by
  rcases h with h | ⟨t,m,ht,hcom,hl⟩
  · subst h
    exact .inl (List.prefix_nil.mp hp)
  · exact .inr ⟨t,m,ht,hcom,hp.trans hl⟩

theorem Decided.own_term (h : Coherent termOf Maj s) {T : ℕ} {e : ε} (hd : Decided termOf Maj s T l) (he : e∈l)
    (ht : termOf e=T) : ∃ m, Committed termOf Maj s T m ∧ l<+:(s.lead T).take m := by
  rcases hd with hd | ⟨t,m,htT,hcom,hp⟩
  · rw [hd] at he
    contradiction
  · have hle:=lead_term_le h (List.mem_of_mem_take (hp.subset he))
    obtain rfl : t=T := by omega
    exact ⟨m,hcom,hp⟩

section quorums
variable (hinter : ∀ P Q, Maj P → Maj Q → ∃ i∈P, i∈Q)
include hinter

section
variable (h : Coherent termOf Maj s)
include h

theorem Decided.prefix_lead {T t' : ℕ} {l : List ε}
    (hd : Decided termOf Maj s T l) (hT : T≤t') (hl : s.leader t'≠none) : l<+:s.lead t' := by
  rcases hd with hd | ⟨t,m,ht,hcom,hp⟩
  · rw [hd]
    exact List.nil_prefix
  · rcases Nat.lt_or_ge t t' with hlt | hge
    · exact hp.trans (leader_completeness hinter h hcom hlt hl)
    · obtain rfl : t=t' := by omega
      exact hp.trans (List.take_prefix _ _)

theorem Decided.comparable {T T' : ℕ} {l l' : List ε}
    (hd : Decided termOf Maj s T l) (hd' : Decided termOf Maj s T' l') : l<+:l' ∨ l'<+:l := by
  rcases hd with hd | ⟨t,m,-,hcom,hp⟩
  · rw [hd]
    exact .inl List.nil_prefix
  rcases hd' with hd' | ⟨t',m',-,hcom',hp'⟩
  · rw [hd']
    exact .inr List.nil_prefix
  -- both lie in the log of the later of the two leaders
  have hl : s.leader (max t t')≠none := by
    rcases Nat.le_total t t' with hle | hle
    · rw [max_eq_right hle]
      exact hcom'.leader
    · rw [max_eq_left hle]
      exact hcom.leader
  have h1:=Decided.prefix_lead hinter h (.inr ⟨t,m,le_rfl,hcom,hp⟩) (le_max_left t t') hl
  have h2:=Decided.prefix_lead hinter h (.inr ⟨t',m',le_rfl,hcom',hp'⟩)
    (le_max_right t t') hl
  exact List.prefix_or_prefix_of_prefix h1 h2

theorem Decided.prefix_cand {T t' : ℕ} {l lc : List ε} {c : ν}
    (hd : Decided termOf Maj s T l) (hT : T<t') (hl : s.leader t'=some c) (hc : s.cand c t'=some lc) : l<+:lc := by
  have hp:=Decided.prefix_lead hinter h hd hT.le (by simp [hl])
  obtain ⟨-,-,l',hl',hpre,hnew⟩:=h.elected t' c hl
  obtain rfl : lc=l' := Option.some.inj (hc.symm.trans hl')
  rcases List.prefix_or_prefix_of_prefix hp hpre with hle | ⟨r,rfl⟩
  · exact hle
  · cases r with
    | nil => simp
    | cons e r =>
      -- the entry would belong to the later term and to an earlier one
      have hlate : termOf e=t' := by
        obtain ⟨r',hr'⟩:=hp
        apply hnew
        rw [← hr',List.append_assoc,List.drop_left]
        simp
      rcases hd with hd | ⟨t,m,ht,-,hlt⟩
      · simp at hd
      · have hmem : e∈s.lead t := List.mem_of_mem_take (hlt.subset (by simp))
        have:=lead_term_le h hmem
        omega

theorem Decided.before_barrier (hg : Grows s s') {T T0 m : ℕ} {l : List ε} (hd : Decided termOf Maj s T0 l)
    (hl : s.leader T≠none) (hcom : Committed termOf Maj s' T m) (hlen : (s.lead T).length < m) : l<+:s.lead T := by
  rcases hd with hd | ⟨t,k,-,hc,hp⟩
  · rw [hd]
    exact List.nil_prefix
  · rcases Nat.lt_or_ge T t with hlt | hge
    · exfalso
      obtain ⟨x,hx⟩:=Option.ne_none_iff_exists'.mp hc.leader
      obtain ⟨hmaj,hvotes,-⟩:=h.elected t x hx
      obtain ⟨Q,hQ,hack⟩:=hcom.majority
      obtain ⟨v,hv,hvQ⟩:=hinter _ _ hmaj hQ
      have hterm:=h.voted_le v t (by simp [hvotes v hv])
      have hfrozen:=hg.frozen v T (by omega)
      have h1:=hack v hvQ
      have h2:=h.acked_length v T
      omega
    · exact Decided.prefix_lead hinter h (.inr ⟨t,k,le_rfl,hc,hp⟩) hge hl

end

end quorums

structure Local (i : ν) (s s' : State ν ε) : Prop where
  grows : Grows s s'
  term : ∀ j, j≠i → s'.term j=s.term j
  log : ∀ j, j≠i → s'.log j=s.log j
  voted : ∀ j, j≠i → s'.voted j=s.voted j
  leader : ∀ t, s'.leader t=s.leader t ∨ s'.leader t=some i
  lead : ∀ t, s.leader t≠none → s.leader t≠some i → s'.lead t=s.lead t

theorem Local.refl (i : ν) (s : State ν ε) : Local i s s :=
  ⟨Grows.refl s,fun _ _ => rfl,fun _ _ => rfl,fun _ _ => rfl,fun _ => .inl rfl,fun _ _ _ => rfl⟩

theorem Local.trans {i : ν} {a b c : State ν ε} (h : Local i a b) (g : Local i b c) : Local i a c := by
  refine ⟨h.grows.trans g.grows,fun j hj => (g.term j hj).trans (h.term j hj),
    fun j hj => (g.log j hj).trans (h.log j hj),fun j hj => (g.voted j hj).trans (h.voted j hj),
    ?_,?_⟩
  · intro t
    rcases g.leader t with hg | hg
    · rw [hg]
      exact h.leader t
    · exact .inr hg
  · intro t hne hi
    obtain ⟨x,hx⟩:=Option.ne_none_iff_exists'.mp hne
    have hb:=h.grows.leader t x hx
    rw [g.lead t (by simp [hb]) (by rwa [hb,← hx]),h.lead t hne hi]

section locality
variable [DecidableEq ν] [DecidableEq ε] {i : ν}

theorem step_local (h : Coherent termOf Maj s) (hs : Step termOf Maj i s s') : Local i s s' := by
  have hg:=step_grows h hs
  have hset : ∀ {β : Type} (f : ν → ℕ → β) (t : ℕ) (b : β) (j : ν), j≠i → set2 f i t b j=f j := by
    intro β f t b j hj
    exact update_of_ne hj ..
  cases hs with
  | advance t hlt =>
    exact {Local.refl i s with grows:=hg,term:=fun j hj => update_of_ne hj ..}
  | campaign t hlt =>
    exact {Local.refl i s with
      grows := hg
      term := fun j hj => update_of_ne hj ..
      voted := fun j hj => hset _ _ _ j hj}
  | vote c l hfree hcand hup =>
    exact {Local.refl i s with grows:=hg,voted:=fun j hj => hset _ _ _ j hj}
  | elect V hfree hcand hmaj hV =>
    refine {Local.refl i s with grows:=hg,leader:=?_,lead:=?_}
    · intro t
      by_cases ht : t=s.term i
      · right
        rw [ht]
        exact Function.update_self ..
      · left
        exact update_of_ne ht ..
    · intro t hne hi
      exact update_of_ne (by rintro rfl; exact hne hfree) ..
  | propose e hlead hlog he =>
    refine {Local.refl i s with
      grows := hg,log := fun j hj => update_of_ne hj ..,lead := ?_}
    intro t hne hi
    exact update_of_ne (by rintro rfl; exact hi hlead) ..
  | accept c m hlead hm =>
    exact {Local.refl i s with grows:=hg,log:=fun j hj => update_of_ne hj ..}

theorem run_local (hs : Relation.ReflTransGen (Step termOf Maj i) s s')
    (h : Coherent termOf Maj s) : Local i s s' := by
  induction hs with
  | refl => exact Local.refl i s
  | tail hrun hstep ih => exact ih.trans (step_local (run_coherent hrun h) hstep)

end locality

end ReplicatedLog
