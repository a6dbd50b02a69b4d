import Parrot.Lib.ReplicatedLog

/-! # The replication invariant is inductive

One lemma for each kind of step; `step_coherent` and `run_coherent` put them
together. -/

namespace ReplicatedLog
open Function (update_self update_apply update_of_ne update)
open List (prefix_append prefix_rfl take_prefix)

variable {ν ε : Type} {termOf : ε → ℕ} {Maj : Finset ν → Prop} {s s' : State ν ε}

section update
variable [DecidableEq ν] {β : Type}

variable (f : ν → ℕ → β)

theorem set2_apply (i j : ν) (t u : ℕ) (b : β) : set2 f i t b j u=if j=i ∧ u=t then b else f j u := by
  unfold set2
  by_cases hj : j=i
  · subst hj
    simp only [update_self,update_apply,true_and]
  · simp [hj]

@[simp] theorem set2_self (i : ν) (t : ℕ) (b : β) : set2 f i t b i t=b := by
  simp [set2_apply]

theorem set2_ne {i j : ν} {t u : ℕ} (b : β) (h : ¬ (j=i ∧ u=t)) : set2 f i t b j u=f j u := by
  rw [set2_apply,if_neg h]

end update

theorem Traced.shorter {l l' : List ε} (h : Traced termOf s l) (hp : l'<+:l) : Traced termOf s l' := by
  intro k e he
  obtain ⟨hk,-⟩:=List.getElem?_eq_some_iff.mp he
  obtain ⟨r,rfl⟩:=hp
  obtain ⟨h1,h2⟩:=h k e (by rw [List.getElem?_append_left hk]; exact he)
  rw [List.take_append_of_le_length (by omega)] at h2
  exact ⟨h1,h2⟩

variable {l : List ε}

theorem Traced.mono (hg : Grows s s') (h : Traced termOf s l) : Traced termOf s' l := by
  intro k e he
  obtain ⟨h1,h2⟩:=h k e he
  obtain ⟨c,hc⟩:=Option.ne_none_iff_exists'.mp h1
  exact ⟨by rw [hg.leader _ _ hc]; simp,h2.trans (hg.lead _)⟩

theorem Traced.prefix_lead (h : Traced termOf s l) {e : ε} (he : l.getLast? = some e) :
    s.leader (termOf e)≠none ∧ l<+:s.lead (termOf e) := by
  have hne : l≠[] := by
    intro hl
    simp [hl] at he
  have hpos:=List.length_pos_of_ne_nil hne
  rw [List.getLast?_eq_getElem?] at he
  obtain ⟨h1,h2⟩:=h _ e he
  refine ⟨h1,?_⟩
  rwa [show l.length-1+1=l.length by omega,List.take_length] at h2

theorem lead_term_le (h : Coherent termOf Maj s) {t : ℕ} {e : ε} (he : e∈s.lead t) : termOf e≤t := by
  cases hl : s.leader t with
  | none =>
    rw [h.vacant t hl] at he
    simp at he
  | some c =>
    obtain ⟨-,-,l,hc,hp,hnew⟩:=h.elected t c hl
    obtain ⟨r,hr⟩:=hp
    rw [← hr,List.mem_append] at he
    rcases he with he | he
    · exact ((h.cand c t l hc).1 e he).le
    · have : e∈(s.lead t).drop l.length := by rw [← hr,List.drop_left]; exact he
      exact (hnew e this).le

theorem Retained.bound {t m b b' : ℕ} (hb : b≤b') (h : Retained s l t m b) : Retained s l t m b' := by
  rcases h with h | ⟨u,h1,h2,h3,h4⟩
  · exact .inl h
  · exact .inr ⟨u,h1,h2.trans_le hb,h3,h4⟩

def LeadExtends (termOf : ε → ℕ) (s s' : State ν ε) : Prop :=
  ∀ u, s.leader u≠none → ∃ new, s'.lead u=s.lead u++new ∧ ∀ e∈new, termOf e=u

theorem Retained.mono (hc : Coherent termOf Maj s) (hg : Grows s s') (hx : LeadExtends termOf s s') {t m b : ℕ} (hm : m≤(s.lead t).length) (h : Retained s l t m b) :
    Retained s' l t m b := by
  have htake : (s'.lead t).take m=(s.lead t).take m := by
    obtain ⟨r,hr⟩:=hg.lead t
    rw [← hr,List.take_append_of_le_length hm]
  rcases h with h | ⟨u,h1,h2,h3,h4⟩
  · exact .inl (htake ▸ h)
  · right
    obtain ⟨c,hu⟩:=Option.ne_none_iff_exists'.mp h3
    refine ⟨u,h1,h2,by rw [hg.leader _ _ hu]; simp,?_⟩
    rw [htake]
    intro hp
    apply h4
    obtain ⟨new,hnew,hterm⟩:=hx u h3
    rw [hnew] at hp
    rcases List.prefix_or_prefix_of_prefix hp (prefix_append _ _) with hq | hq
    · exact hq
    · -- a longer prefix would hold an entry of the later term `u`
      obtain ⟨r,hr⟩:=hq
      rw [← hr,List.prefix_append_right_inj] at hp
      cases r with
      | nil => rw [List.append_nil] at hr; rw [← hr]
      | cons e r =>
        have he : termOf e=u := hterm e (hp.subset (List.mem_cons_self ..))
        have hmem : e∈s.lead t := by
          have : e∈(s.lead t).take m := by rw [← hr]; simp
          exact List.mem_of_mem_take this
        have:=lead_term_le hc hmem
        omega

theorem Retained.of_prefix_log {l l' : List ε} {t m b : ℕ} (hp : l<+:l')
    (h : Retained s l t m b) : Retained s l' t m b :=
  h.imp (fun h => h.trans hp) id

variable [DecidableEq ν] [DecidableEq ε] {i : ν}

theorem step_grows (h : Coherent termOf Maj s) (hs : Step termOf Maj i s s') : Grows s s' := by
  have hnone : ∀ i t, s.term i<t → s.voted i t=none ∧ s.cand i t=none := by
    intro i t hlt
    constructor
    · by_contra hv
      have:=h.voted_le i t hv
      omega
    · by_contra hv
      have:=(h.cand_le i t hv).2
      omega
  cases hs with
  | advance t hlt =>
    refine {Grows.refl s with term_le:=?_}
    intro j
    dsimp only
    rw [update_apply]
    split
    · rename_i hj
      subst hj
      exact hlt.le
    · exact le_rfl
  | campaign t hlt =>
    obtain ⟨hv,hc⟩:=hnone i t hlt
    refine {Grows.refl s with term_le:=?_,voted:=?_,cand:=?_}
    · intro j
      dsimp only
      rw [update_apply]
      split
      · rename_i hj
        subst hj
        exact hlt.le
      · exact le_rfl
    · intro j u c hj
      dsimp only
      rw [set2_ne]
      · exact hj
      · rintro ⟨rfl,rfl⟩
        simp [hv] at hj
    · intro j u l hj
      dsimp only
      rw [set2_ne]
      · exact hj
      · rintro ⟨rfl,rfl⟩
        simp [hc] at hj
  | vote c l hfree hcand hup =>
    refine {Grows.refl s with voted:=?_}
    intro j u x hj
    dsimp only
    rw [set2_ne]
    · exact hj
    · rintro ⟨rfl,rfl⟩
      simp [hfree] at hj
  | elect V hfree hcand hmaj hV =>
    refine {Grows.refl s with leader:=?_,lead:=?_}
    · intro u x hu
      dsimp only
      rw [update_of_ne]
      · exact hu
      · rintro rfl
        simp [hfree] at hu
    · intro u
      dsimp only
      rw [update_apply]
      split
      · rename_i hu
        subst hu
        rw [h.vacant _ hfree]
        exact List.nil_prefix
      · exact prefix_rfl
  | propose e hlead hlog he =>
    refine {Grows.refl s with lead:=?_}
    intro u
    dsimp only
    rw [update_apply]
    split
    · rename_i hu
      subst hu
      rw [hlog]
      exact prefix_append _ _
    · exact prefix_rfl
  | accept c m hlead hm =>
    refine {Grows.refl s with acked_le:=?_,frozen:=?_}
    · intro j u
      dsimp only
      rw [set2_apply]
      split
      · rename_i hj
        obtain ⟨rfl,rfl⟩:=hj
        exact Nat.le_max_right _ _
      · exact le_rfl
    · intro j u hu
      refine set2_ne _ _ ?_
      rintro ⟨rfl,rfl⟩
      exact Nat.lt_irrefl _ hu

theorem step_leadExtends (hs : Step termOf Maj i s s') : LeadExtends termOf s s' := by
  have hsame : ∀ u, s'.lead u=s.lead u → ∃ new, s'.lead u=s.lead u++new ∧
      ∀ e∈new, termOf e=u := fun u hu => ⟨[],by simp [hu],by simp⟩
  intro u hu
  cases hs with
  | elect V hfree hcand hmaj hV =>
    apply hsame
    exact update_of_ne (by rintro rfl; exact hu hfree) ..
  | propose e hlead hlog he =>
    by_cases hui : u=s.term i
    · subst hui
      refine ⟨[e],?_,?_⟩
      · simp [hlog]
      · intro x hx
        rw [List.mem_singleton.mp hx]
        exact he
    · apply hsame
      exact update_of_ne hui ..
  | advance | campaign | vote | accept => exact hsame u rfl

structure Stable (termOf : ε → ℕ) (s s' : State ν ε) : Prop where
  grows : Grows s s'
  traced : ∀ l, Traced termOf s l → Traced termOf s' l
  retained : ∀ l t m b, m≤(s.lead t).length → Retained s l t m b → Retained s' l t m b

section
variable (h : Coherent termOf Maj s)
include h

theorem step_stable (hs : Step termOf Maj i s s') : Stable termOf s s' :=
  ⟨step_grows h hs,fun _ hl => hl.mono (step_grows h hs),
    fun _ _ _ _ hm hr => hr.mono h (step_grows h hs) (step_leadExtends hs) hm⟩

theorem advance_coherent {i : ν} {t : ℕ} (hlt : s.term i<t) :
    Coherent termOf Maj {s with term:=update s.term i t} := by
  have hle : ∀ j, s.term j≤update s.term i t j := (step_grows h (Step.advance s t hlt)).term_le
  exact {
    voted_le := fun j u hu => (h.voted_le j u hu).trans (hle j)
    cand_le := fun j u hu => ⟨(h.cand_le j u hu).1,(h.cand_le j u hu).2.trans (hle j)⟩
    acked_le := fun j u hu => (h.acked_le j u hu).trans (hle j)
    vote := h.vote
    cand := h.cand
    vacant := h.vacant
    elected := h.elected
    lead_traced := h.lead_traced
    log_traced := h.log_traced
    ballot_traced := h.ballot_traced
    log_term := fun j e he => (h.log_term j e he).trans (hle j)
    acked_length := h.acked_length
    log_retained := fun j u m hm => (h.log_retained j u m hm).bound (Nat.succ_le_succ (hle j))
    ballot_retained := h.ballot_retained}

theorem campaign_coherent {i : ν} {t : ℕ} (hlt : s.term i<t) :
    Coherent termOf Maj {s with
      term := update s.term i t
      voted := set2 s.voted i t (some i)
      ballot := set2 s.ballot i t (s.log i)
      cand := set2 s.cand i t (some (s.log i))} := by
  have hstep:=step_stable h (Step.campaign s t hlt)
  have hle : ∀ j, s.term j≤update s.term i t j := hstep.grows.term_le
  have hnot : s.cand i t=none := by
    by_contra hc
    have:=(h.cand_le i t hc).2
    omega
  refine {
    voted_le := ?_,cand_le := ?_,acked_le := fun j u hu => (h.acked_le j u hu).trans (hle j),
    vote := ?_,cand := ?_,vacant := h.vacant,elected := ?_,lead_traced := h.lead_traced,
    log_traced := h.log_traced,ballot_traced := ?_,
    log_term := fun j e he => (h.log_term j e he).trans (hle j),acked_length := h.acked_length,
    log_retained := fun j u m hm => (h.log_retained j u m hm).bound (Nat.succ_le_succ (hle j)),
    ballot_retained := ?_}
  · intro j u hu
    dsimp only at hu ⊢
    rw [set2_apply] at hu
    split at hu
    · rename_i hj
      rw [hj.1,hj.2,update_self]
    · exact (h.voted_le j u hu).trans (hle j)
  · intro j u hu
    dsimp only at hu ⊢
    rw [set2_apply] at hu
    split at hu
    · rename_i hj
      rw [hj.1,hj.2,update_self]
      exact ⟨by omega,le_rfl⟩
    · exact ⟨(h.cand_le j u hu).1,(h.cand_le j u hu).2.trans (hle j)⟩
  · intro j u c hu
    dsimp only at hu ⊢
    rw [set2_apply] at hu
    split at hu
    · rename_i hj
      obtain ⟨rfl,rfl⟩:=hj
      cases hu
      exact ⟨s.log j,set2_self ..,by rw [set2_self]; exact .inr ⟨rfl,le_rfl⟩⟩
    · rename_i hj
      obtain ⟨l,hl,hup⟩:=h.vote j u c hu
      refine ⟨l,hstep.grows.cand c u l hl,?_⟩
      rw [set2_ne _ _ hj]
      exact hup
  · intro c u l hl
    dsimp only at hl
    rw [set2_apply] at hl
    split at hl
    · rename_i hj
      obtain ⟨rfl,rfl⟩:=hj
      cases hl
      exact ⟨fun e he => (h.log_term c e he).trans_lt hlt,h.log_traced c⟩
    · exact h.cand c u l hl
  · intro u c hu
    obtain ⟨h1,h2,l,hl,hp,hnew⟩:=h.elected u c hu
    exact ⟨h1,fun v hv => hstep.grows.voted v u c (h2 v hv),l,hstep.grows.cand c u l hl,hp,hnew⟩
  · intro j u hu
    dsimp only at hu ⊢
    rw [set2_apply] at hu ⊢
    split
    · exact h.log_traced i
    · rename_i hj
      rw [if_neg hj] at hu
      exact h.ballot_traced j u hu
  · intro j u hu hin t1 m ht1 hm
    dsimp only at hu hin hm ⊢
    rw [set2_apply] at hu ⊢
    split
    · -- the new ballot is the node's current log
      rename_i hj
      obtain ⟨rfl,rfl⟩:=hj
      exact (h.log_retained j t1 m hm).bound hlt
    · rename_i hj
      rw [if_neg hj] at hu
      exact h.ballot_retained j u hu hin t1 m ht1 hm

theorem vote_coherent {i c : ν}
    (hfree : s.voted i (s.term i)=none) (hcand : s.cand c (s.term i)=some l)
    (hup : UpToDate termOf l (s.log i)) :
    Coherent termOf Maj {s with
      voted := set2 s.voted i (s.term i) (some c)
      ballot := set2 s.ballot i (s.term i) (s.log i)} := by
  have hvote : Step termOf Maj i s _ := .vote s c l hfree hcand hup
  have hstep:=step_stable h hvote
  refine {
    voted_le := ?_,cand_le := h.cand_le,acked_le := h.acked_le,vote := ?_,cand := h.cand,
    vacant := h.vacant,elected := ?_,lead_traced := h.lead_traced,log_traced := h.log_traced,
    ballot_traced := ?_,log_term := h.log_term,acked_length := h.acked_length,
    log_retained := h.log_retained,ballot_retained := ?_}
  · intro j u hu
    dsimp only at hu
    rw [set2_apply] at hu
    split at hu
    · rename_i hj
      rw [hj.1,hj.2]
    · exact h.voted_le j u hu
  · intro j u x hu
    dsimp only at hu ⊢
    rw [set2_apply] at hu ⊢
    split at hu
    · rename_i hj
      obtain ⟨rfl,rfl⟩:=hj
      cases hu
      exact ⟨l,hcand,by simpa using hup⟩
    · rename_i hj
      rw [if_neg hj]
      exact h.vote j u x hu
  · intro u x hu
    obtain ⟨h1,h2,h3⟩:=h.elected u x hu
    exact ⟨h1,fun v hv => hstep.grows.voted v u x (h2 v hv),h3⟩
  · intro j u hu
    dsimp only at hu ⊢
    rw [set2_apply] at hu ⊢
    split
    · exact h.log_traced i
    · rename_i hj
      rw [if_neg hj] at hu
      exact h.ballot_traced j u hu
  · intro j u hu hin t m ht hm
    dsimp only at hu hin hm ⊢
    rw [set2_apply] at hu ⊢
    split
    · rename_i hj
      obtain ⟨rfl,rfl⟩:=hj
      -- a vote cast before the election cannot have followed that election's leader
      have hvac : s.leader (s.term j)=none := by
        by_contra hl
        obtain ⟨x,hx⟩:=Option.ne_none_iff_exists'.mp hl
        have:=(h.elected _ x hx).2.1 j (hin hl)
        simp [hfree] at this
      rcases h.log_retained j t m hm with hr | ⟨v,h1,h2,h3,h4⟩
      · exact .inl hr
      · refine .inr ⟨v,h1,?_,h3,h4⟩
        have : v≠s.term j := by
          rintro rfl
          exact h3 hvac
        omega
    · rename_i hj
      rw [if_neg hj] at hu
      exact h.ballot_retained j u hu hin t m ht hm

theorem elect_coherent {i : ν} {V : Finset ν}
    (hfree : s.leader (s.term i)=none) (hcand : s.cand i (s.term i)=some (s.log i))
    (hmaj : Maj V) (hV : ∀ v∈V, s.voted v (s.term i)=some i) :
    Coherent termOf Maj {s with
      leader := update s.leader (s.term i) (some i)
      electors := update s.electors (s.term i) V
      lead := update s.lead (s.term i) (s.log i)} := by
  have hstep:=step_stable h (Step.elect s V hfree hcand hmaj hV)
  have hzero : ∀ j, s.acked j (s.term i)=0 := by
    intro j
    have:=h.acked_length j (s.term i)
    rw [h.vacant _ hfree] at this
    simpa using this
  refine {
    voted_le := h.voted_le,cand_le := h.cand_le,acked_le := h.acked_le,vote := h.vote,
    cand := fun c t l hl => ⟨(h.cand c t l hl).1,hstep.traced _ (h.cand c t l hl).2⟩,
    vacant := ?_,elected := ?_,lead_traced := ?_,
    log_traced := fun j => hstep.traced _ (h.log_traced j),
    ballot_traced := fun j t ht => hstep.traced _ (h.ballot_traced j t ht),
    log_term := h.log_term,acked_length := ?_,
    log_retained := fun j t m hm =>
      hstep.retained _ _ _ _ (hm.trans (h.acked_length j t)) (h.log_retained j t m hm),
    ballot_retained := ?_}
  · intro t ht
    dsimp only at ht ⊢
    by_cases hti : t=s.term i
    · rw [hti,update_self] at ht
      contradiction
    · rw [update_of_ne hti] at ht ⊢
      exact h.vacant t ht
  · intro t c ht
    dsimp only at ht ⊢
    by_cases hti : t=s.term i
    · subst hti
      rw [update_self] at ht
      cases ht
      simp only [update_self]
      exact ⟨hmaj,hV,s.log i,hcand,prefix_rfl,by simp⟩
    · rw [update_of_ne hti] at ht
      simp only [update_of_ne hti]
      exact h.elected t c ht
  · intro t
    apply hstep.traced
    dsimp only
    rw [update_apply]
    split
    · exact h.log_traced i
    · exact h.lead_traced t
  · intro j t
    exact (h.acked_length j t).trans (hstep.grows.lead t).length_le
  · intro j t hv hin u m hu hm
    dsimp only at hv hin hm ⊢
    apply hstep.retained _ _ _ _ (hm.trans (h.acked_length j u))
    apply h.ballot_retained j t hv _ u m hu hm
    intro hl
    have hti : t≠s.term i := by
      rintro rfl
      exact hl hfree
    rw [update_of_ne hti,update_of_ne hti] at hin
    exact hin hl

theorem propose_coherent {i : ν} {e : ε}
    (hlead : s.leader (s.term i)=some i) (hlog : s.lead (s.term i)=s.log i)
    (he : termOf e=s.term i) :
    Coherent termOf Maj {s with
      log := update s.log i (s.log i++[e])
      lead := update s.lead (s.term i) (s.log i++[e])} := by
  have hpropose : Step termOf Maj i s _ := .propose s e hlead hlog he
  have hstep:=step_stable h hpropose
  -- the extended log: old entries keep their trace, the new one belongs to this leader
  have hnew : Traced termOf {s with
      log := update s.log i (s.log i++[e])
      lead := update s.lead (s.term i) (s.log i++[e])} (s.log i++[e]) := by
    intro k x hx
    by_cases hk : k<(s.log i).length
    · rw [List.getElem?_append_left hk] at hx
      obtain ⟨h1,h2⟩:=hstep.traced _ (h.log_traced i) k x hx
      exact ⟨h1,by rwa [List.take_append_of_le_length hk]⟩
    · have hlen:=(List.getElem?_eq_some_iff.mp hx).1
      simp only [List.length_append,List.length_singleton] at hlen
      have hke : k=(s.log i).length := by omega
      subst hke
      have hxe : e=x := by simpa using hx
      subst hxe
      dsimp only
      rw [he,update_self,List.take_of_length_le (by simp)]
      exact ⟨by simp [hlead],prefix_rfl⟩
  refine {
    voted_le := h.voted_le,cand_le := h.cand_le,acked_le := h.acked_le,vote := h.vote,
    cand := fun c t l hl => ⟨(h.cand c t l hl).1,hstep.traced _ (h.cand c t l hl).2⟩,
    vacant := ?_,elected := ?_,lead_traced := ?_,log_traced := ?_,
    ballot_traced := fun j t ht => hstep.traced _ (h.ballot_traced j t ht),
    log_term := ?_,acked_length := ?_,log_retained := ?_,
    ballot_retained := fun j t hv hin u m hu hm => hstep.retained _ _ _ _ (hm.trans (h.acked_length j u))
        (h.ballot_retained j t hv hin u m hu hm)}
  · intro t ht
    dsimp only at ht ⊢
    have hti : t≠s.term i := by
      rintro rfl
      simp [hlead] at ht
    rw [update_of_ne hti]
    exact h.vacant t ht
  · intro t c ht
    dsimp only at ht ⊢
    obtain ⟨h1,h2,l,hl,hp,hterm⟩:=h.elected t c ht
    by_cases hti : t=s.term i
    · subst hti
      rw [hlog] at hp hterm
      rw [update_self]
      refine ⟨h1,h2,l,hl,hp.trans (prefix_append _ _),?_⟩
      rw [List.drop_append_of_le_length hp.length_le]
      intro x hx
      rcases List.mem_append.mp hx with hx | hx
      · exact hterm x hx
      · rw [List.mem_singleton.mp hx]
        exact he
    · rw [update_of_ne hti]
      exact ⟨h1,h2,l,hl,hp,hterm⟩
  · intro t
    by_cases hti : t=s.term i
    · subst hti
      simpa only [update_self] using hnew
    · simpa only [update_of_ne hti] using hstep.traced _ (h.lead_traced t)
  · intro j
    by_cases hj : j=i
    · subst hj
      simpa only [update_self] using hnew
    · simpa only [update_of_ne hj] using hstep.traced _ (h.log_traced j)
  · intro j x hx
    dsimp only at hx ⊢
    by_cases hj : j=i
    · subst hj
      rw [update_self] at hx
      rcases List.mem_append.mp hx with hx | hx
      · exact h.log_term j x hx
      · rw [List.mem_singleton.mp hx,he]
    · rw [update_of_ne hj] at hx
      exact h.log_term j x hx
  · intro j t
    exact (h.acked_length j t).trans (hstep.grows.lead t).length_le
  · intro j t m hm
    have hr:=hstep.retained _ _ _ _ (hm.trans (h.acked_length j t)) (h.log_retained j t m hm)
    dsimp only
    by_cases hj : j=i
    · subst hj
      rw [update_self]
      exact hr.of_prefix_log (prefix_append _ _)
    · rw [update_of_ne hj]
      exact hr

end

theorem prefix_adopt {own lead p : List ε} {m : ℕ} (h1 : p<+:own) (h2 : p<+:lead) : p<+:adopt own lead m := by
  unfold adopt
  split
  · exact h1
  · rename_i hn
    rcases List.prefix_or_prefix_of_prefix h2 (List.take_prefix m lead) with hp | hp
    · exact hp
    · exact absurd (hp.trans h1) hn

theorem take_adopt (own lead : List ε) (m : ℕ) : lead.take m<+:adopt own lead m := by
  unfold adopt
  split
  · assumption
  · exact prefix_rfl

theorem accept_coherent (h : Coherent termOf Maj s) {i c : ν} {m : ℕ}
    (hlead : s.leader (s.term i)=some c) (hm : m≤(s.lead (s.term i)).length) :
    Coherent termOf Maj {s with
      log := update s.log i (adopt (s.log i) (s.lead (s.term i)) m)
      acked := set2 s.acked i (s.term i) (max m (s.acked i (s.term i)))} := by
  have hadopt : adopt (s.log i) (s.lead (s.term i)) m=s.log i ∨
      adopt (s.log i) (s.lead (s.term i)) m=(s.lead (s.term i)).take m := by
    unfold adopt
    split
    · exact .inl rfl
    · exact .inr rfl
  refine {
    voted_le := h.voted_le,cand_le := h.cand_le,acked_le := ?_,vote := h.vote,cand := h.cand,
    vacant := h.vacant,elected := h.elected,lead_traced := h.lead_traced,log_traced := ?_,
    ballot_traced := h.ballot_traced,log_term := ?_,acked_length := ?_,log_retained := ?_,
    ballot_retained := ?_}
  · intro j t ht
    dsimp only at ht
    rw [set2_apply] at ht
    split at ht
    · rename_i hj
      rw [hj.1,hj.2]
    · exact h.acked_le j t ht
  · intro j
    by_cases hj : j=i
    · subst hj
      change Traced termOf s (update s.log j _ j)
      rw [update_self]
      rcases hadopt with ha | ha <;> rw [ha]
      · exact h.log_traced j
      · exact (h.lead_traced _).shorter (List.take_prefix _ _)
    · change Traced termOf s (update s.log i _ j)
      rw [update_of_ne hj]
      exact h.log_traced j
  · intro j e he
    dsimp only at he ⊢
    by_cases hj : j=i
    · subst hj
      rw [update_self] at he
      rcases hadopt with ha | ha <;> rw [ha] at he
      · exact h.log_term j e he
      · exact lead_term_le h (List.mem_of_mem_take he)
    · rw [update_of_ne hj] at he
      exact h.log_term j e he
  · intro j t
    dsimp only
    rw [set2_apply]
    split
    · rename_i hj
      rw [hj.2]
      exact Nat.max_le.mpr ⟨hm,h.acked_length i _⟩
    · exact h.acked_length j t
  · intro j t k hk
    dsimp only at hk ⊢
    by_cases hj : j=i
    · subst hj
      change Retained s _ _ _ _
      rw [update_self]
      by_cases ht : t=s.term j
      · -- the current term: either newly acknowledged or already held
        subst ht
        rw [set2_self] at hk
        left
        by_cases hkm : k ≤ m
        · exact (List.take_prefix_take_left hkm).trans (take_adopt _ _ _)
        · rcases h.log_retained j (s.term j) k (by omega) with hr | ⟨u,h1,h2,-⟩
          · exact prefix_adopt hr (List.take_prefix _ _)
          · omega
      · rw [set2_ne _ _ (by rintro ⟨-,rfl⟩; exact ht rfl)] at hk
        rcases h.log_retained j t k hk with hr | hr
        · by_cases hp : (s.lead t).take k<+:s.lead (s.term j)
          · exact .inl (prefix_adopt hr hp)
          · -- this leader never had the prefix, so it is the witness from now on
            right
            have hpos : 0<k := by
              by_contra h0
              have : k=0 := by omega
              subst this
              simp at hp
            have hle:=h.acked_le j t (by omega)
            exact ⟨s.term j,by omega,Nat.lt_succ_self _,by simp [hlead],hp⟩
        · exact .inr hr
    · change Retained s _ _ _ _
      rw [update_of_ne hj]
      rw [set2_ne _ _ (by rintro ⟨rfl,-⟩; exact hj rfl)] at hk
      exact h.log_retained j t k hk
  · intro j t' hv hin t k ht hk
    dsimp only at hv hin hk
    have hne : ¬ (j=i ∧ t=s.term i) := by
      rintro ⟨rfl,rfl⟩
      have:=h.voted_le j t' hv
      omega
    rw [set2_ne _ _ hne] at hk
    exact h.ballot_retained j t' hv hin t k ht hk

omit [DecidableEq ν] [DecidableEq ε] in
theorem init_coherent : Coherent termOf Maj (init : State ν ε) := by
  constructor <;> simp [init,Traced,Retained]

theorem step_coherent (hs : Step termOf Maj i s s') (h : Coherent termOf Maj s) : Coherent termOf Maj s' := by
  cases hs with
  | advance t hlt => exact advance_coherent h hlt
  | campaign t hlt => exact campaign_coherent h hlt
  | vote c l hfree hcand hup => exact vote_coherent h hfree hcand hup
  | elect V hfree hcand hmaj hV => exact elect_coherent h hfree hcand hmaj hV
  | propose e hlead hlog he => exact propose_coherent h hlead hlog he
  | accept c m hlead hm => exact accept_coherent h hlead hm

theorem run_coherent (hs : Relation.ReflTransGen (Step termOf Maj i) s s')
    (h : Coherent termOf Maj s) : Coherent termOf Maj s' := by
  induction hs with
  | refl => exact h
  | tail _ hstep ih => exact step_coherent hstep ih

theorem run_grows (hs : Relation.ReflTransGen (Step termOf Maj i) s s') (h : Coherent termOf Maj s) : Grows s s' := by
  induction hs with
  | refl => exact Grows.refl s
  | tail hrun hstep ih => exact ih.trans (step_grows (run_coherent hrun h) hstep)

end ReplicatedLog
