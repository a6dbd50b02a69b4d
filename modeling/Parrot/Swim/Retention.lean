import Mathlib.Order.Lattice.Nat
import Parrot.Swim.Merge

/-! # Forgetting a dead member (`swim.rs:239-333`, `swim.rs:585-596`)

Several tables on one clock exchange what they know of one node. -/

namespace Parrot.Swim.Retention
open Parrot.Swim Machine Parrot.Newest

/-- `inFlight` are the undelivered events about the node, each an `Upsert`. An event may
arrive at several tables and more than once. `removed` marks the tables that dropped the
node after its retention; no step reads it. -/
structure Cluster (n : ℕ) where
  clock : ℕ
  tables : Fin n → Membership
  inFlight : List Member
  removed : Fin n → Bool

inductive Action (n : ℕ) where
  | setClock (k : Fin n) (nowMs : ℕ)
  | tick (k : Fin n) (ids : List String) (deadRetention : ℕ)
  | share (k : Fin n)
  | deliver (k : Fin n) (m : Member)

variable {n : ℕ} {x : String} {i : ℕ} {c c' : Cluster n} {a : Action n} {k : Fin n}

namespace Cluster

def get (x : String) (c : Cluster n) (k : Fin n) : Option Member := (c.tables k).members.get x

def setTable (c : Cluster n) (k : Fin n) (s : Membership) : Cluster n :=
  {c with tables:=Function.update c.tables k s}

/-- One step about node `x`. Readings of the clock never go back, `ids` are the keys of the
ticking table in the map's order. -/
def next (x : String) (c : Cluster n) : Action n → Option (Cluster n)
  | .setClock k nowMs =>
    if c.clock≤nowMs then some {c.setTable k ((c.tables k).setClock nowMs) with clock:=nowMs} else none
  | .tick k ids deadRetention =>
    if (ids : Multiset String)=(c.tables k).members.table.keys.val then
      let (s,changed,removed):=(c.tables k).tickWithRetention ids deadRetention
      some {c.setTable k s with
        inFlight := c.inFlight++changed.filter fun m => m.nodeId=x
        removed := if x∈removed then Function.update c.removed k true else c.removed}
    else none
  | .share k => (c.get x k).map fun m => {c with inFlight:=c.inFlight++[m]}
  | .deliver k m =>
    if m∈c.inFlight then some (c.setTable k ((c.tables k).mergeEvent (.upsert m)).2) else none

def run (x : String) (c : Cluster n) : List (Action n) → Option (Cluster n)
  | [] => some c
  | a::actions => (c.next x a).bind fun c => c.run x actions

/-- Every step of the run, with the states before and after it, meets `P`. -/
def Along (x : String) (P : Cluster n → Action n → Cluster n → Prop) (c : Cluster n) : List (Action n) → Prop
  | [] => True
  | a::actions => ∀ c', c.next x a=some c' → P c a c' ∧ c'.Along x P actions

/-- The last moment at which some table has to keep the node, `⊥` where no table stores it. -/
def latest (x : String) (c : Cluster n) : WithBot ℕ :=
  Finset.univ.sup fun k => level Member.statusUntilMs (c.get x k)

end Cluster

/-- Every record and every event about `x` says that incarnation `i` of it is dead, and the
tables agree on the clock and on the timeouts. -/
structure Failed (x : String) (i : ℕ) (c : Cluster n) : Prop where
  clocked : ∀ k, (c.tables k).nowMs≤c.clock
  retention : ∀ j k, (c.tables j).deadRetention=(c.tables k).deadRetention
  suspicion : ∀ j k, (c.tables j).suspectTimeout=(c.tables k).suspectTimeout
  unowned : ∀ k, (c.tables k).owns x=none
  stored : ∀ k m, c.get x k=some m → m.status=.dead ∧ m.incarnation=i
  flying : ∀ m∈c.inFlight, m.nodeId=x ∧ m.status=.dead ∧ m.incarnation=i
  gone : ∀ k, c.removed k → c.get x k=none

/-- The step forgets `x` or leaves it as forgotten as it was. -/
structure Forgets (x : String) (c c' : Cluster n) : Prop where
  latest : c'.latest x≤c.latest x
  gone : ∀ k, c'.removed k → c'.get x k=none
  dead : ∀ k m, c'.get x k=some m → m.status=.dead

/-- The retention that a table which is told of a dead node starts. -/
def deadline (s : Membership) : ℕ := saturatingAdd s.nowMs (min s.deadRetention u64Max)

/-- Only tables that still store the node are told of it, or ones that never dropped it
while another has to keep it as long as they will. -/
def Heeded (x : String) (c : Cluster n) : Action n → Prop
  | .deliver k _ => (c.get x k).isSome ∨
      c.removed k=false ∧ ∃ j m, c.get x j=some m ∧ deadline (c.tables k) ≤ m.statusUntilMs
  | _ => True

variable {m : Member}

theorem until_le_latest (h : c.get x k=some m) : (m.statusUntilMs : WithBot ℕ)≤c.latest x := by
  have hle:=Finset.le_sup (f := fun k => level Member.statusUntilMs (c.get x k)) (Finset.mem_univ k)
  simp only [h] at hle
  exact hle

theorem latest_le {b : WithBot ℕ} (h : ∀ k m, c.get x k=some m → (m.statusUntilMs : WithBot ℕ)≤b) : c.latest x≤b := by
  refine Finset.sup_le fun k _ => ?_
  cases hget : c.get x k with
  | none => exact bot_le
  | some m => exact h k m hget

theorem le_latest {d : ℕ} : (d : WithBot ℕ)≤c.latest x ↔ ∃ j m, c.get x j=some m ∧ d ≤ m.statusUntilMs := by
  constructor
  · intro h
    obtain ⟨j,-,hj⟩:=(Finset.le_sup_iff (WithBot.bot_lt_coe d)).mp h
    cases hget : c.get x j with
    | none =>
      rw [hget] at hj
      exact absurd hj (not_le.mpr (WithBot.bot_lt_coe d))
    | some m =>
      rw [hget] at hj
      exact ⟨j,m,hget,WithBot.coe_le_coe.mp hj⟩
  · intro h
    obtain ⟨j,m,hj,hle⟩:=h
    exact (WithBot.coe_le_coe.mpr hle).trans (until_le_latest hj)

theorem latest_mono (h : ∀ k, c'.get x k=c.get x k ∨ c'.get x k=none) : c'.latest x≤c.latest x := by
  refine latest_le fun k m hm => ?_
  rcases h k with heq | hnone
  · exact until_le_latest (heq.symm.trans hm)
  · rw [hnone] at hm
    contradiction

theorem get_setTable (c : Cluster n) (k j : Fin n) (s : Membership) :
    (c.setTable k s).get x j=if j=k then s.members.get x else c.get x j := by
  unfold Cluster.get Cluster.setTable
  by_cases hj : j=k
  · simp [hj]
  · simp [hj]

structure SameSettings (s s' : Membership) : Prop where
  clock : s'.nowMs=s.nowMs
  suspicion : s'.suspectTimeout=s.suspectTimeout
  retention : s'.deadRetention=s.deadRetention
  owner : s'.owner=s.owner

theorem expire_settings (r : ℕ) (p : Membership × List Member × List String) (id : String) :
    SameSettings p.1 (Membership.expire r p id).1 := by
  unfold Membership.expire
  split
  · exact ⟨rfl,rfl,rfl,rfl⟩
  · split
    · exact ⟨rfl,rfl,rfl,rfl⟩
    · split
      · exact ⟨rfl,rfl,rfl,rfl⟩
      · exact ⟨rfl,rfl,rfl,rfl⟩

structure Ticked (x : String) (s : Membership) (p : Membership × List Member × List String) : Prop where
  settings : SameSettings s p.1
  kept : p.1.members.get x=s.members.get x ∨ p.1.members.get x=none
  dropped : x∈p.2.2 → p.1.members.get x=none
  quiet : ∀ m∈p.2.1, m.nodeId≠x

variable {s : Membership}

theorem expire_ticked {p : Membership × List Member × List String} (r : ℕ) (id : String) (hdead : ∀ m,
    s.members.get x=some m → m.status=.dead) (h : Ticked x s p) : Ticked x s (Membership.expire r p id) := by
  have hset:=expire_settings r p id
  have hsettings : SameSettings s (Membership.expire r p id).1 :=
    ⟨hset.clock.trans h.settings.clock,hset.suspicion.trans h.settings.suspicion,
      hset.retention.trans h.settings.retention,hset.owner.trans h.settings.owner⟩
  suffices hx : ((Membership.expire r p id).1.members.get x=p.1.members.get x ∨
      (Membership.expire r p id).1.members.get x=none) ∧
      (x∈(Membership.expire r p id).2.2 → x∈p.2.2 ∨ (Membership.expire r p id).1.members.get x=none) ∧
      ∀ m∈(Membership.expire r p id).2.1, m∈p.2.1 ∨ m.nodeId≠x by
    obtain ⟨hkept,hdropped,hquiet⟩:=hx
    have hnone (hp : p.1.members.get x=none) : (Membership.expire r p id).1.members.get x=none := by
      rcases hkept with heq | hnone
      · exact heq.trans hp
      · exact hnone
    refine ⟨hsettings,?_,?_,?_⟩
    · rcases hkept with heq | hnone
      · rw [heq]
        exact h.kept
      · exact .inr hnone
    · intro hmem
      rcases hdropped hmem with hp | hnone'
      · exact hnone (h.dropped hp)
      · exact hnone'
    · intro m hm
      rcases hquiet m hm with hp | hne
      · exact h.quiet m hp
      · exact hne
  unfold Membership.expire
  cases hget : p.1.members.get id with
  | none => simp +contextual
  | some m =>
    have hid : m.nodeId=id := Members.get_nodeId hget
    simp only
    split
    · rename_i hsuspect
      -- A suspect turns dead: it is not `x`, whose record is dead already.
      have hne : m.nodeId≠x := by
        intro heq
        have hx : p.1.members.get x=some m := by rw [← heq,hid,hget]
        rcases h.kept with hkept | hnone
        · rw [hdead m (hkept.symm.trans hx)] at hsuspect
          exact absurd hsuspect.1 (by decide)
        · rw [hnone] at hx
          contradiction
      refine ⟨.inl (Members.get_insert_of_ne (Ne.symm hne)),fun hmem => .inl hmem,?_⟩
      intro m' hm'
      rcases List.mem_append.mp hm' with hm' | hm'
      · exact .inl hm'
      · rw [List.mem_singleton.mp hm']
        exact .inr hne
    · split
      · by_cases hx : x=id
        · subst hx
          have hnone : (p.1.members.remove x).get x=none := Finmap.lookup_erase _ _
          exact ⟨.inr hnone,fun _ => .inr hnone,fun m hm => .inl hm⟩
        · refine ⟨.inl (Members.get_remove_of_ne hx),?_,fun m hm => .inl hm⟩
          intro hmem
          rcases List.mem_append.mp hmem with hmem | hmem
          · exact .inl hmem
          · exact absurd (List.mem_singleton.mp hmem) hx
      · exact ⟨.inl rfl,fun hmem => .inl hmem,fun m hm => .inl hm⟩

theorem tick_ticked (s : Membership) (ids : List String) (r : ℕ)
    (hdead : ∀ m, s.members.get x=some m → m.status=.dead) : Ticked x s (s.tickWithRetention ids r) := by
  have hfold : ∀ (ids : List String) p, Ticked x s p → Ticked x s (ids.foldl (Membership.expire (min r u64Max)) p) := by
    intro ids
    induction ids with
    | nil => exact fun p hp => hp
    | cons id ids ih => exact fun p hp => ih _ (expire_ticked _ id hdead hp)
  exact hfold ids _ ⟨⟨rfl,rfl,rfl,rfl⟩,.inl rfl,by simp,by simp⟩

theorem merge_cases (howns : s.owns m.nodeId=none)
    (hsame : ∀ cur, s.members.get m.nodeId=some cur → cur.version=m.version) :
    (∃ cur, s.members.get m.nodeId=some cur) ∧ (s.mergeEvent (.upsert m)).2=s ∨ s.members.get m.nodeId=none ∧
        (s.mergeEvent (.upsert m)).2={s with members:=s.members.insert (s.localMember m)} := by
  simp only [Membership.mergeEvent,howns]
  cases hget : s.members.get m.nodeId with
  | none => exact .inr ⟨rfl,rfl⟩
  | some cur =>
    refine .inl ⟨⟨cur,rfl⟩,?_⟩
    simp [hsame cur hget]

theorem localMember_deadline (h : m.status=.dead) : (s.localMember m).statusUntilMs=deadline s := by
  simp [Membership.localMember,h,deadline]

theorem Failed.version (h : Failed x i c) {m cur : Member} (hm : m∈c.inFlight) (hcur : c.get x k=some cur) :
    cur.version=m.version := by
  obtain ⟨-,hdead,hinc⟩:=h.flying m hm
  obtain ⟨hdead',hinc'⟩:=h.stored k cur hcur
  simp [Member.version,hdead,hinc,hdead',hinc']

theorem owns_congr {s s' : Membership} (h : s'.owner=s.owner) : s'.owns x=s.owns x := by
  simp [Membership.owns,h]

theorem Failed.setTable (h : Failed x i c) (hs : SameSettings (c.tables k) s) (hstored : ∀ m, s.members.get x=some m →
    m.status=.dead ∧ m.incarnation=i) (hgone : c.removed k → s.members.get x=none) : Failed x i (c.setTable k s) := by
  have hown : ∀ j, ((c.setTable k s).tables j).owns x=none ∧ ((c.setTable k s).tables j).nowMs≤c.clock ∧
      ((c.setTable k s).tables j).deadRetention=(c.tables j).deadRetention ∧
      ((c.setTable k s).tables j).suspectTimeout=(c.tables j).suspectTimeout := by
    intro j
    by_cases hj : j=k
    · subst hj
      simp only [Cluster.setTable,Function.update_self]
      exact ⟨(owns_congr hs.owner).trans (h.unowned j),hs.clock.trans_le (h.clocked j),hs.retention,hs.suspicion⟩
    · simp [Cluster.setTable,hj,h.unowned j,h.clocked j]
  constructor
  · exact fun j => (hown j).2.1
  · intro j j'
    rw [(hown j).2.2.1,(hown j').2.2.1]
    exact h.retention j j'
  · intro j j'
    rw [(hown j).2.2.2,(hown j').2.2.2]
    exact h.suspicion j j'
  · exact fun j => (hown j).1
  · intro j m hm
    rw [get_setTable] at hm
    split at hm
    · exact hstored m hm
    · exact h.stored j m hm
  · exact h.flying
  · intro j hj
    rw [get_setTable]
    split
    · rename_i heq
      exact hgone (heq ▸ hj)
    · exact h.gone j hj

theorem quiet_step (hc' : Failed x i c') (hkept : ∀ k, c'.get x k=c.get x k ∨ c'.get x k=none) : Forgets x c c' :=
  ⟨latest_mono hkept,hc'.gone,fun k m hm => (hc'.stored k m hm).1⟩

section
variable (h : Failed x i c)
include h

theorem setClock_step {nowMs : ℕ} (hn : c.next x (.setClock k nowMs)=some c') :
    Failed x i c' ∧ ∀ j, c'.get x j=c.get x j := by
  simp only [Cluster.next,Option.ite_none_right_eq_some,Option.some.injEq] at hn
  obtain ⟨hclock,rfl⟩:=hn
  have hget (j : Fin n) : (c.setTable k ((c.tables k).setClock nowMs)).get x j=c.get x j := by
    rw [get_setTable]
    split
    · rename_i hj
      rw [hj]
      rfl
    · rfl
  have hsame (j : Fin n) : ((c.setTable k ((c.tables k).setClock nowMs)).tables j).owner=(c.tables j).owner ∧
      ((c.setTable k ((c.tables k).setClock nowMs)).tables j).nowMs≤nowMs ∧
      ((c.setTable k ((c.tables k).setClock nowMs)).tables j).deadRetention=(c.tables j).deadRetention ∧
      ((c.setTable k ((c.tables k).setClock nowMs)).tables j).suspectTimeout=(c.tables j).suspectTimeout := by
    by_cases hj : j=k
    · subst hj
      simp [Cluster.setTable,Membership.setClock]
    · have hle:=(h.clocked j).trans hclock
      simp [Cluster.setTable,hj,hle]
  refine ⟨⟨fun j => (hsame j).2.1,?_,?_,fun j => (owns_congr (hsame j).1).trans (h.unowned j),?_,h.flying,?_⟩,hget⟩
  · intro j j'
    exact (hsame j).2.2.1.trans ((h.retention j j').trans (hsame j').2.2.1.symm)
  · intro j j'
    exact (hsame j).2.2.2.trans ((h.suspicion j j').trans (hsame j').2.2.2.symm)
  · exact fun j m hm => h.stored j m ((hget j).symm.trans hm)
  · exact fun j hj => (hget j).trans (h.gone j hj)

theorem tick_step {ids : List String} {r : ℕ} (hn : c.next x (.tick k ids r)=some c') :
    Failed x i c' ∧ ∀ j, c'.get x j=c.get x j ∨ c'.get x j=none := by
  simp only [Cluster.next,Option.ite_none_right_eq_some,Option.some.injEq] at hn
  obtain ⟨-,rfl⟩:=hn
  have ht:=tick_ticked (c.tables k) ids r fun m hm => (h.stored k m hm).1
  generalize (c.tables k).tickWithRetention ids r=p at ht
  obtain ⟨s,changed,removed⟩:=p
  have hfailed:=h.setTable (s := s) ht.settings
    (by
      intro m hm
      rcases ht.kept with hkept | hnone
      · exact h.stored k m (hkept.symm.trans hm)
      · rw [hnone] at hm
        contradiction)
    (by
      intro hk
      rcases ht.kept with hkept | hnone
      · exact hkept.trans (h.gone k hk)
      · exact hnone)
  refine ⟨⟨hfailed.clocked,hfailed.retention,hfailed.suspicion,hfailed.unowned,hfailed.stored,?_,?_⟩,?_⟩
  · intro m hm
    rcases List.mem_append.mp hm with hm | hm
    · exact h.flying m hm
    · obtain ⟨hm,hx⟩:=List.mem_filter.mp hm
      exact absurd (of_decide_eq_true hx) (ht.quiet m hm)
  · intro j hj
    by_cases hmem : x∈removed
    · by_cases hjk : j=k
      · subst hjk
        exact (get_setTable c j j s).trans ((if_pos rfl).trans (ht.dropped hmem))
      · simp only [hmem,if_true,Function.update_of_ne hjk] at hj
        exact hfailed.gone j hj
    · simp only [hmem,if_false] at hj
      exact hfailed.gone j hj
  · intro j
    change (c.setTable k s).get x j=c.get x j ∨ (c.setTable k s).get x j=none
    rw [get_setTable]
    split
    · rename_i hj
      rw [hj]
      exact ht.kept
    · exact .inl rfl

theorem share_step (hn : c.next x (.share k)=some c') : Failed x i c' ∧ ∀ j, c'.get x j=c.get x j := by
  simp only [Cluster.next,Option.map_eq_some_iff] at hn
  obtain ⟨m,hm,rfl⟩:=hn
  refine ⟨⟨h.clocked,h.retention,h.suspicion,h.unowned,h.stored,?_,h.gone⟩,fun j => rfl⟩
  intro m' hm'
  rcases List.mem_append.mp hm' with hm' | hm'
  · exact h.flying m' hm'
  · rw [List.mem_singleton.mp hm']
    exact ⟨Members.get_nodeId hm,h.stored k m hm⟩

theorem deliver_cases (hn : c.next x (.deliver k m)=some c') :
    (c.get x k).isSome ∧ c'=c ∨ c.get x k=none ∧ ∃ m', m'.status=.dead ∧ m'.incarnation=i ∧
      m'.statusUntilMs=deadline (c.tables k) ∧
      c'=c.setTable k {c.tables k with members:=(c.tables k).members.insert m'} ∧ m'.nodeId=x := by
  simp only [Cluster.next,Option.ite_none_right_eq_some,Option.some.injEq] at hn
  obtain ⟨hm,rfl⟩:=hn
  obtain ⟨rfl,hdead,hinc⟩:=h.flying m hm
  rcases merge_cases (h.unowned k) (fun cur hcur => h.version hm hcur) with ⟨⟨cur,hcur⟩,heq⟩ | ⟨hnone,heq⟩
  · refine .inl ⟨by simp [Cluster.get,hcur],?_⟩
    rw [heq]
    simp [Cluster.setTable]
  · obtain ⟨hinc',hstatus'⟩:=localMember_status (c.tables k) m
    refine .inr ⟨hnone,(c.tables k).localMember m,hstatus'.trans hdead,hinc'.trans hinc,localMember_deadline hdead,?_,
      localMember_nodeId _ _⟩
    rw [heq]

theorem deliver_step (hn : c.next x (.deliver k m)=some c') :
    (Forgets x c c' ↔ Heeded x c (.deliver k m)) ∧ (Forgets x c c' → Failed x i c') := by
  rcases deliver_cases h hn with ⟨hsome,rfl⟩ | ⟨hnone,m',hdead,hinc,huntil,rfl,hid⟩
  · exact ⟨⟨fun _ => .inl hsome,fun _ => quiet_step h fun _ => .inl rfl⟩,fun _ => h⟩
  · set s : Membership := {c.tables k with members:=(c.tables k).members.insert m'} with hs
    have hself : (c.setTable k s).get x k=some m' := by
      rw [get_setTable,if_pos rfl,hs,← hid]
      exact Members.get_insert_self _ m'
    have hother (j : Fin n) (hj : j≠k) : (c.setTable k s).get x j=c.get x j := by
      rw [get_setTable,if_neg hj]
    have hfailed (hgone : c.removed k=false) : Failed x i (c.setTable k s) := by
      refine h.setTable ⟨rfl,rfl,rfl,rfl⟩ ?_ (by simp [hgone])
      intro m hm
      rw [get_setTable,if_pos rfl] at hself
      obtain rfl:=Option.some.inj (hself.symm.trans hm)
      exact ⟨hdead,hinc⟩
    have hunmarked (hf : Forgets x c (c.setTable k s)) : c.removed k=false := by
      by_contra hk
      have:=hf.gone k (Bool.eq_true_of_not_eq_false hk)
      rw [hself] at this
      contradiction
    refine ⟨⟨fun hf => .inr ⟨hunmarked hf,?_⟩,?_⟩,fun hf => hfailed (hunmarked hf)⟩
    · rw [← huntil]
      exact le_latest.mp ((until_le_latest hself).trans hf.latest)
    · intro hheeded
      rcases hheeded with hsome | ⟨hgone,hlate⟩
      · rw [hnone] at hsome
        contradiction
      · have hf:=hfailed hgone
        refine ⟨latest_le ?_,hf.gone,fun j m hm => (hf.stored j m hm).1⟩
        intro j m hm
        by_cases hj : j=k
        · subst hj
          obtain rfl:=Option.some.inj (hself.symm.trans hm)
          rw [huntil]
          exact le_latest.mpr hlate
        · exact until_le_latest ((hother j hj).symm.trans hm)

theorem step_forgets (hn : c.next x a=some c') :
    (Forgets x c c' ↔ Heeded x c a) ∧ (Forgets x c c' → Failed x i c') := by
  cases a with
  | setClock k nowMs =>
    obtain ⟨hf,hget⟩:=setClock_step h hn
    exact ⟨⟨fun _ => trivial,fun _ => quiet_step hf fun j => .inl (hget j)⟩,fun _ => hf⟩
  | tick k ids r =>
    obtain ⟨hf,hget⟩:=tick_step h hn
    exact ⟨⟨fun _ => trivial,fun _ => quiet_step hf hget⟩,fun _ => hf⟩
  | share k =>
    obtain ⟨hf,hget⟩:=share_step h hn
    exact ⟨⟨fun _ => trivial,fun _ => quiet_step hf fun j => .inl (hget j)⟩,fun _ => hf⟩
  | deliver k m => exact deliver_step h hn

end

/-- A failed member is forgotten in exactly the runs that tell no table of it anew. -/
theorem dead_member_forgotten (x : String) (i : ℕ) (c : Cluster n) (hc : Failed x i c) (actions : List (Action n)) :
    c.Along x (fun c _ c' => Forgets x c c') actions ↔ c.Along x (fun c a _ => Heeded x c a) actions := by
  induction actions generalizing c with
  | nil => exact Iff.rfl
  | cons a actions ih =>
    constructor
    · intro h c' hc'
      obtain ⟨hforgets,hrest⟩:=h c' hc'
      have hstep:=step_forgets hc hc'
      exact ⟨hstep.1.mp hforgets,(ih c' (hstep.2 hforgets)).mp hrest⟩
    · intro h c' hc'
      obtain ⟨hheeded,hrest⟩:=h c' hc'
      have hstep:=step_forgets hc hc'
      have hforgets:=hstep.1.mpr hheeded
      exact ⟨hforgets,(ih c' (hstep.2 hforgets)).mpr hrest⟩

/-- Two tables with a retention of ten milliseconds. Both store that `n` is dead, the first
since the clock read 0 and the second since it read 2. -/
def twoTables : Cluster 2 where
  clock := 2
  tables k := {Membership.new 2 with
    deadRetention := 10
    members := Members.empty.insert {sampleMember .dead 1 1 with statusUntilMs:=if k=0 then 10 else 12}}
  inFlight := []
  removed _ := false

theorem twoTables_get (k : Fin 2) :
    twoTables.get "n" k=some {sampleMember .dead 1 1 with statusUntilMs:=if k=0 then 10 else 12} :=
  Members.get_insert_self Members.empty {sampleMember .dead 1 1 with statusUntilMs:=if k=0 then 10 else 12}

theorem twoTables_failed : Failed "n" 1 twoTables := by
  refine ⟨fun _ => le_rfl,fun _ _ => rfl,fun _ _ => rfl,fun _ => rfl,?_,by simp [twoTables],by simp [twoTables]⟩
  intro k m hm
  rw [twoTables_get] at hm
  cases hm
  exact ⟨rfl,rfl⟩

/-- Gossip before the retention ends is without effect, and both tables drop `n`. -/
theorem dead_member_forgotten_in_time : Failed "n" 1 twoTables ∧
    twoTables.Along "n" (fun c _ c' => Forgets "n" c c')
      [.share 1,.deliver 0 {sampleMember .dead 1 1 with statusUntilMs:=12},
        .setClock 0 10,.tick 0 ["n"] 10,.setClock 1 12,.tick 1 ["n"] 10] := by
  refine ⟨twoTables_failed,(dead_member_forgotten "n" 1 twoTables twoTables_failed _).mpr ?_⟩
  intro c hc
  simp only [Cluster.next,Option.map_eq_some_iff] at hc
  obtain ⟨m,-,rfl⟩:=hc
  refine ⟨trivial,fun c hc => ⟨.inl ?_,fun c hc => ⟨trivial,fun c hc => ⟨trivial,fun c hc => ⟨trivial,fun c hc =>
    ⟨trivial,trivial⟩⟩⟩⟩⟩⟩
  change (twoTables.get "n" 0).isSome
  rw [twoTables_get]
  rfl

theorem along_gone {actions : List (Action n)} (h : c.Along x (fun c _ c' => Forgets x c c') actions) (hgone : ∀ k,
    c.removed k → c.get x k=none) (hrun : c.run x actions=some c') : ∀ k, c'.removed k → c'.get x k=none := by
  induction actions generalizing c with
  | nil =>
    cases hrun
    exact hgone
  | cons a actions ih =>
    obtain ⟨d,hd,hrest⟩:=Option.bind_eq_some_iff.mp hrun
    obtain ⟨hforgets,halong⟩:=h d hd
    exact ih halong hforgets.gone hrest

/-- The first table drops `n` when the clock reads 10 and is told of it by the second, which
keeps it until 12: the first now keeps it until 20. -/
def retaught : List (Action 2) :=
  [.setClock 0 10,.setClock 1 10,.tick 0 ["n"] 10,.share 1,
    .deliver 0 {sampleMember .dead 1 1 with statusUntilMs:=12}]

theorem dead_member_retaught : ¬ ∀ (n : ℕ) (x : String) (i : ℕ) (c : Cluster n), Failed x i c →
    ∀ actions, c.Along x (fun c _ c' => Forgets x c c') actions := by
  intro h
  have hend : (twoTables.run "n" retaught).map (fun c => (c.removed 0,c.get "n" 0)) =
      some (true,some {sampleMember .dead 1 1 with statusUntilMs:=20}) := by decide +kernel
  obtain ⟨c,hrun,hc⟩:=Option.map_eq_some_iff.mp hend
  obtain ⟨hremoved,hget⟩:=Prod.mk.inj hc
  have hnone:=along_gone (h 2 "n" 1 twoTables twoTables_failed retaught) twoTables_failed.gone hrun 0 hremoved
  rw [hget] at hnone
  contradiction

end Parrot.Swim.Retention
