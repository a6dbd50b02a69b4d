import Parrot.DeathWatch.Edges

/-! # What operations under way account for

An edge that stands in one table only is in the hands of the operation that will take it out of
that table. -/

namespace Parrot.DeathWatch
open List (mem_map_of_mem mem_append mem_map map_nil count_append count_cons)
open Threads

variable {n n' : Net} {o s x target watcher : ℕ} {t t' : Thread} {items items' : List (ℕ × Progress)}

structure Released (n : Net) (owner : ℕ) (item : ℕ × Progress) : Prop where
  created : item.1<n.created
  watcher : (n.subs item.1).watcher=owner
  absent : ¬n.out item.1
  cancelled : item.2 ≠ .fresh → (n.subs item.1).cancelled=true
  cut : item.2=.half → ¬n.inc item.1

structure Notified (n : Net) (owner : ℕ) (item : ℕ × Progress) : Prop where
  created : item.1<n.created
  target : (n.subs item.1).target=owner
  cancelled : item.2=.linked ∨ item.2=.half → (n.subs item.1).cancelled=true

structure Dropped (n : Net) (owner : ℕ) (item : ℕ × DropStage) : Prop where
  created : item.1<n.created
  owner : (n.subs item.1).target=owner ∨ (n.subs item.1).watcher=owner

namespace Thread

def Sound (n : Net) : Thread → Prop
  | .unlinking owner after items => (n.owners owner).alive=true ∧ (after ≠ .nothing → (n.owners owner).closed=true) ∧
      ∀ i∈items, Released n owner i
  | .disposing owner items => (n.owners owner).alive=true ∧ (n.owners owner).closed=true ∧
      (∀ k, (n.owners owner).incoming.get k=none) ∧ ∀ i∈items, Notified n owner i
  | .dropping owner items => (n.owners owner).alive=false ∧ ∀ i∈items, Dropped n owner i
  | .ended owner => (n.owners owner).closed=true ∧ ∀ k, (n.owners owner).incoming.get k=none
  | .returned => True

def CoversIn (s : ℕ) : Thread → Prop
  | .unlinking _ _ items => ∃ p, (s,p)∈items ∧ p ≠ .half
  | .dropping _ items => ∃ stage, (s,stage)∈items
  | _ => False

def CoversOut (s : ℕ) : Thread → Prop
  | .disposing _ items => ∃ p, (s,p)∈items
  | .dropping _ items => ∃ stage, (s,stage)∈items ∧ stage ≠ .targetNext
  | _ => False

/-- The thread will cancel the edge for its watcher. -/
def Cancels (s : ℕ) : Thread → Prop
  | .unlinking _ _ items => (s,.fresh)∈items
  | _ => False

def waits (s : ℕ) : Thread → ℕ
  | .disposing _ items => items.count (s,.waiting)
  | _ => 0

end Thread

instance incDecidable (n : Net) (s : ℕ) : Decidable (n.inc s) := by unfold Net.inc; infer_instance

def stored (n : Net) (s : ℕ) : ℕ := if n.inc s then 1 else 0

theorem stored_le (h : Shrinks n n') : stored n' s ≤ stored n s := by
  unfold stored
  split
  · rename_i hs
    rw [if_pos (h.inc hs)]
  · omega

structure Turn (n : Net) (old : Option Thread) (n' : Net) (new : Option Thread) : Prop where
  shrinks : Shrinks n n'
  sound : ∀ t∈new, t.Sound n'
  coversIn : ∀ s, n'.inc s → n.out s ∨ (∃ t∈old, t.CoversIn s) → n'.out s ∨ ∃ t∈new, t.CoversIn s
  coversOut : ∀ s, n'.out s → n.inc s ∨ (∃ t∈old, t.CoversOut s) → n'.inc s ∨ ∃ t∈new, t.CoversOut s
  cancels : ∀ s, (n'.owners (n.subs s).target).alive=true → (n'.owners (n.subs s).watcher).alive=true →
    (n'.subs s).cancelled=false → n.out s ∨ (∃ t∈old, t.Cancels s) → n'.out s ∨ ∃ t∈new, t.Cancels s
  once : ∀ s, stored n' s+(new.elim 0 (Thread.waits s))+n'.delivered.count s ≤
    stored n s+(old.elim 0 (Thread.waits s))+n.delivered.count s
  delivered : ∀ s∈n'.delivered, s∈n.delivered ∨ s<n.created
  alive : old.isSome → ∀ o, (n'.owners o).alive=(n.owners o).alive

structure Still (n n' : Net) : Prop where
  shrinks : Shrinks n n'
  inc : ∀ s, n'.inc s ↔ n.inc s
  out : ∀ s, n'.out s ↔ n.out s

theorem Still.stored (h : Still n n') (s : ℕ) : stored n' s=stored n s := by
  simp [DeathWatch.stored,h.inc s]

theorem Still.refl (n : Net) : Still n n := ⟨Shrinks.refl n,fun _ => Iff.rfl,fun _ => Iff.rfl⟩

variable {f : Owner → Owner}

theorem Still.modify (h : (n.owners o).Shrinks (f (n.owners o)))
    (hin : (f (n.owners o)).incoming=(n.owners o).incoming) (hout : (f (n.owners o)).outgoing=(n.owners o).outgoing) :
    Still n (n.modify o f) := by
  refine ⟨Shrinks.modify h,fun s => ?_,fun s => ?_⟩
  · simp only [Net.inc,Net.modify_subs,Net.modify_owners]
    split
    · rename_i hs
      rw [hin,hs]
    · rfl
  · simp only [Net.out,Net.modify_subs,Net.modify_owners]
    split
    · rename_i hs
      rw [hout,hs]
    · rfl

theorem Still.cancel : Still n (n.cancel s) := by
  refine ⟨Shrinks.cancel,fun x => ?_,fun x => ?_⟩
  · simp only [Net.inc,Net.cancel_subs,Net.cancel_owners]
    split <;> simp_all
  · simp only [Net.out,Net.cancel_subs,Net.cancel_owners]
    split <;> simp_all

theorem Still.fail {count : ℕ} : Still n (n.fail o count) := Still.modify (Owner.Shrinks.fail _ count) rfl rfl

theorem Turn.release {after : After} {l : List ℕ} (hn : Typed n)
    (hshrinks : (n.owners o).Shrinks (f (n.owners o))) (hin : (f (n.owners o)).incoming=(n.owners o).incoming)
    (halive : (f (n.owners o)).alive=true) (hafter : after ≠ .nothing → (f (n.owners o)).closed=true)
    (hl : ∀ s∈l, (∃ k, (n.owners o).outgoing.get k=some s) ∧ ∀ k, (f (n.owners o)).outgoing.get k≠some s)
    (hkept : ∀ k s, (n.owners o).outgoing.get k=some s → s∉l → (f (n.owners o)).outgoing.get k=some s) :
    Turn n none (n.modify o f) (some (unlinking o after l)) := by
  have hshr : Shrinks n (n.modify o f) := Shrinks.modify hshrinks
  have hinc (s : ℕ) : (n.modify o f).inc s ↔ n.inc s := by
    simp only [Net.inc,Net.modify_subs,Net.modify_owners]
    split
    · rename_i hs
      rw [hin,hs]
    · rfl
  have hlost {s : ℕ} (hs : n.out s) : (n.modify o f).out s ∨ s∈l := by
    refine or_iff_not_imp_right.mpr fun hmem => ?_
    unfold Net.out at hs
    simp only [Net.out,Net.modify_subs,Net.modify_owners]
    split
    · rename_i ho
      exact hkept _ _ (ho ▸ hs) hmem
    · exact hs
  refine ⟨hshr,?_,?_,?_,?_,?_,fun s hs => .inl hs,by simp⟩
  · intro t ht
    cases ht
    refine ⟨by simpa using halive,by simpa using hafter,fun i hi => ?_⟩
    obtain ⟨s,hs,rfl⟩:=List.mem_map.mp hi
    obtain ⟨⟨k,hk⟩,hne⟩:=hl s hs
    obtain ⟨hcreated,hwatcher,-⟩:=hn.outgoing o k s hk
    refine ⟨hcreated,hwatcher,?_,fun h => absurd rfl h,fun h => by simp at h⟩
    simp [Net.out,hwatcher,hne]
  · intro s hs hold
    rcases hold with hout | ⟨t,ht,-⟩
    · rcases hlost hout with hout | hmem
      · exact .inl hout
      · exact .inr ⟨_,rfl,.fresh,mem_map_of_mem hmem,by decide⟩
    · simp at ht
  · intro s _ hold
    rcases hold with hs | ⟨t,ht,-⟩
    · exact .inl ((hinc s).mpr hs)
    · simp at ht
  · intro s _ _ _ hold
    rcases hold with hout | ⟨t,ht,-⟩
    · rcases hlost hout with hout | hmem
      · exact .inl hout
      · exact .inr ⟨_,rfl,mem_map_of_mem hmem⟩
    · simp at ht
  · intro s
    have hstored : stored (n.modify o f) s=stored n s := by simp [stored,hinc s]
    simp [hstored,unlinking,Thread.waits]

theorem Turn.still (h : Still n n') (hdelivered : n'.delivered=n.delivered) : Turn n none n' none := by
  refine ⟨h.shrinks,by simp,?_,?_,?_,?_,fun s hs => .inl (hdelivered ▸ hs),by simp⟩
  · simp +contextual [h.out]
  · simp +contextual [h.inc]
  · simp +contextual [h.out]
  · intro s
    simp [h.stored,hdelivered]

theorem Turn.leave {old new : Thread} (hnew : new.Sound n) (hold : ∀ s, ¬old.CoversIn s ∧ ¬old.CoversOut s ∧
    ¬old.Cancels s) (hwaits : ∀ s, new.waits s=0) : Turn n (some old) n (some new) := by
  refine ⟨Shrinks.refl n,by simpa using hnew,?_,?_,?_,?_,fun s hs => .inl hs,fun _ _ => rfl⟩
  · intro s _ hcover
    refine .inl (hcover.resolve_right fun ⟨t,ht,hc⟩ => ?_)
    cases ht
    exact (hold s).1 hc
  · intro s _ hcover
    refine .inl (hcover.resolve_right fun ⟨t,ht,hc⟩ => ?_)
    cases ht
    exact (hold s).2.1 hc
  · intro s _ _ _ hcover
    refine .inl (hcover.resolve_right fun ⟨t,ht,hc⟩ => ?_)
    cases ht
    exact (hold s).2.2 hc
  · intro s
    simp [hwaits]

theorem mem_values {m : OrderedMap ℕ ℕ} : s∈values m ↔ ∃ k, m.get k=some s := by
  simp [values,OrderedMap.get_eq_some]

theorem values_incoming_nodup (hn : Typed n) : (values (n.owners o).incoming).Nodup := by
  unfold values
  refine List.Nodup.map_on ?_ (List.Nodup.of_map Prod.fst (OrderedMap.keys_nodup _))
  intro e he e' he' heq
  have hk:=(hn.incoming o e.1 e.2 (OrderedMap.get_eq_some.mpr he)).2.2
  have hk':=(hn.incoming o e'.1 e'.2 (OrderedMap.get_eq_some.mpr he')).2.2
  rw [heq] at hk
  exact Prod.ext (hk.symm.trans hk') heq

theorem mem_values_incoming (hn : Typed n) : s∈values (n.owners o).incoming ↔ (n.subs s).target=o ∧ n.inc s := by
  rw [mem_values]
  constructor
  · intro ⟨k,hk⟩
    obtain ⟨-,ht,hw⟩:=hn.incoming o k s hk
    refine ⟨ht,?_⟩
    rw [Net.inc,ht,hw]
    exact hk
  · rintro ⟨rfl,hs⟩
    exact ⟨_,hs⟩

theorem mem_values_outgoing (hn : Typed n) : s∈values (n.owners o).outgoing ↔ (n.subs s).watcher=o ∧ n.out s := by
  rw [mem_values]
  constructor
  · intro ⟨k,hk⟩
    obtain ⟨-,hw,ht⟩:=hn.outgoing o k s hk
    refine ⟨hw,?_⟩
    rw [Net.out,ht,hw]
    exact hk
  · rintro ⟨rfl,hs⟩
    exact ⟨_,hs⟩

variable {p : Progress}

theorem Turn.dispose {old : Thread} (hn : Typed n)
    (hshrinks : (n.owners o).Shrinks (f (n.owners o))) (hin : (f (n.owners o)).incoming=.empty)
    (hout : (f (n.owners o)).outgoing=(n.owners o).outgoing) (hbefore : (n.owners o).alive=true)
    (halive : (f (n.owners o)).alive=true) (hclosed : (f (n.owners o)).closed=true) (hp : p=.fresh ∨ p=.waiting)
    (hold : ∀ s, ¬old.CoversIn s ∧ ¬old.CoversOut s ∧ ¬old.Cancels s) :
    Turn n (some old) (n.modify o f) (some (.disposing o ((values (n.owners o).incoming).map fun s => (s,p)))) := by
  have hshr : Shrinks n (n.modify o f) := Shrinks.modify hshrinks
  have hsame (s : ℕ) : (n.modify o f).out s ↔ n.out s := by
    simp only [Net.out,Net.modify_subs,Net.modify_owners]
    split
    · rename_i hs
      rw [hout,hs]
    · rfl
  have hinc (s : ℕ) : (n.modify o f).inc s ↔ n.inc s ∧ (n.subs s).target≠o := by
    simp only [Net.inc,Net.modify_subs,Net.modify_owners]
    split <;> simp_all
  refine ⟨hshr,?_,?_,?_,?_,?_,fun s hs => .inl hs,fun _ x => ?_⟩
  rotate_right
  · rw [Net.modify_owners]
    split
    · rename_i hx
      rw [hx,halive,hbefore]
    · rfl
  · intro t ht
    cases ht
    refine ⟨by simpa using halive,by simpa using hclosed,by simp [hin],fun i hi => ?_⟩
    obtain ⟨s,hs,rfl⟩:=List.mem_map.mp hi
    obtain ⟨k,hk⟩:=mem_values.mp hs
    obtain ⟨hcreated,htarget,-⟩:=hn.incoming o k s hk
    refine ⟨hcreated,htarget,fun h => ?_⟩
    rcases hp with rfl | rfl <;> simp at h
  · intro s _ hcover
    rcases hcover with hs | ⟨t,ht,hc⟩
    · exact .inl ((hsame s).mpr hs)
    · cases ht
      exact absurd hc (hold s).1
  · intro s _ hcover
    rcases hcover with hs | ⟨t,ht,hc⟩
    · by_cases ht : (n.subs s).target=o
      · exact .inr ⟨_,rfl,p,mem_map_of_mem ((mem_values_incoming hn).mpr ⟨ht,hs⟩)⟩
      · exact .inl ((hinc s).mpr ⟨hs,ht⟩)
    · cases ht
      exact absurd hc (hold s).2.1
  · intro s _ _ _ hcover
    rcases hcover with hs | ⟨t,ht,hc⟩
    · exact .inl ((hsame s).mpr hs)
    · cases ht
      exact absurd hc (hold s).2.2
  · intro s
    have hcount : ((values (n.owners o).incoming).map fun s => (s,p)).count (s,Progress.waiting) ≤
        if s∈values (n.owners o).incoming then 1 else 0 := by
      split
      · refine List.nodup_iff_count_le_one.mp ?_ _
        exact (values_incoming_nodup hn).map fun a b h => (Prod.mk.inj h).1
      · rename_i hs
        refine (List.count_eq_zero.mpr fun hmem => ?_).le
        obtain ⟨x,hx,heq⟩:=List.mem_map.mp hmem
        exact hs ((Prod.mk.inj heq).1 ▸ hx)
    simp only [Option.elim_some,Thread.waits,Net.modify_delivered]
    by_cases hs : s∈values (n.owners o).incoming
    · obtain ⟨ht,hs'⟩:=(mem_values_incoming hn).mp hs
      have hzero : stored (n.modify o f) s=0 := by simp [stored,hinc s,ht]
      have hone : stored n s=1 := by simp [stored,hs']
      rw [if_pos hs] at hcount
      omega
    · have:=stored_le (s := s) hshr
      rw [if_neg hs] at hcount
      omega

theorem Turn.destroy (hn : Typed n) :
    Turn n none (n.modify o fun x => {x with alive:=false,incoming:=.empty,outgoing:=.empty})
      (some (.dropping o ((values (n.owners o).incoming++values (n.owners o).outgoing).map fun s => (s,.fresh)))) := by
  have hshr : Shrinks n (n.modify o fun x => {x with alive:=false,incoming:=.empty,outgoing:=.empty}) :=
    Shrinks.modify (Owner.Shrinks.destroy _)
  have hmem {s : ℕ} (hs : s∈values (n.owners o).incoming++values (n.owners o).outgoing) :
      (s,DropStage.fresh)∈(values (n.owners o).incoming++values (n.owners o).outgoing).map fun s => (s,.fresh) :=
    mem_map_of_mem hs
  refine ⟨hshr,?_,?_,?_,?_,?_,fun s hs => .inl hs,by simp⟩
  · intro t ht
    cases ht
    refine ⟨by simp,fun i hi => ?_⟩
    obtain ⟨s,hs,rfl⟩:=List.mem_map.mp hi
    rcases List.mem_append.mp hs with hs | hs
    · obtain ⟨k,hk⟩:=mem_values.mp hs
      obtain ⟨hcreated,htarget,-⟩:=hn.incoming o k s hk
      exact ⟨hcreated,.inl htarget⟩
    · obtain ⟨k,hk⟩:=mem_values.mp hs
      obtain ⟨hcreated,hwatcher,-⟩:=hn.outgoing o k s hk
      exact ⟨hcreated,.inr hwatcher⟩
  · intro s _ hcover
    rcases hcover with hs | ⟨t,ht,-⟩
    · by_cases hw : (n.subs s).watcher=o
      · exact .inr ⟨_,rfl,.fresh,hmem (List.mem_append_right _ ((mem_values_outgoing hn).mpr ⟨hw,hs⟩))⟩
      · refine .inl ?_
        simp only [Net.out,Net.modify_subs,Net.modify_owners,if_neg hw]
        exact hs
    · simp at ht
  · intro s _ hcover
    rcases hcover with hs | ⟨t,ht,-⟩
    · by_cases ht : (n.subs s).target=o
      · exact .inr ⟨_,rfl,.fresh,hmem (List.mem_append_left _ ((mem_values_incoming hn).mpr ⟨ht,hs⟩)),by decide⟩
      · refine .inl ?_
        simp only [Net.inc,Net.modify_subs,Net.modify_owners,if_neg ht]
        exact hs
    · simp at ht
  · intro s _ hw _ hcover
    rcases hcover with hs | ⟨t,ht,-⟩
    · rw [Net.modify_owners] at hw
      split at hw
      · simp at hw
      · rename_i ho
        refine .inl ?_
        simp only [Net.out,Net.modify_subs,Net.modify_owners,if_neg ho]
        exact hs
    · simp at ht
  · intro s
    have:=stored_le (s := s) hshr
    simp only [Option.elim_some,Option.elim_none,Thread.waits,Net.modify_delivered]
    omega

theorem Released.shrinks {item : ℕ × Progress} (h : Released n o item) (hs : Shrinks n n') : Released n' o item := by
  refine ⟨hs.created ▸ h.created,(hs.ends _).2.trans h.watcher,fun hout => h.absent (hs.out hout),
    fun hp => hs.cancelled _ (h.cancelled hp),fun hp hin => h.cut hp (hs.inc hin)⟩

theorem Notified.shrinks {item : ℕ × Progress} (h : Notified n o item) (hs : Shrinks n n') : Notified n' o item :=
  ⟨hs.created ▸ h.created,(hs.ends _).1.trans h.target,fun hp => hs.cancelled _ (h.cancelled hp)⟩

theorem Dropped.shrinks {item : ℕ × DropStage} (h : Dropped n o item) (hs : Shrinks n n') : Dropped n' o item := by
  refine ⟨hs.created ▸ h.created,?_⟩
  rw [(hs.ends _).1,(hs.ends _).2]
  exact h.owner

theorem Shrinks.none_incoming (h : Shrinks n n') (hnone : ∀ k, (n.owners o).incoming.get k=none) (k : ℕ) :
    (n'.owners o).incoming.get k=none := by
  refine Option.eq_none_iff_forall_ne_some.mpr fun s hs => ?_
  simpa [hnone k] using (h.owner o).incoming k s hs

theorem Thread.Sound.shrinks (h : t.Sound n) (hs : Shrinks n n')
    (halive : ∀ o, t.holds n o=true → (n'.owners o).alive=(n.owners o).alive) : t.Sound n' := by
  cases t with
  | unlinking owner after items =>
    obtain ⟨ha,hafter,hitems⟩:=h
    refine ⟨(halive owner (by simp [holds])).trans ha,fun hne => (hs.owner _).closed (hafter hne),fun i hi => ?_⟩
    exact (hitems i hi).shrinks hs
  | disposing owner items =>
    obtain ⟨ha,hclosed,hnone,hitems⟩:=h
    refine ⟨(halive owner (by simp [holds])).trans ha,(hs.owner _).closed hclosed,hs.none_incoming hnone,fun i hi => ?_⟩
    exact (hitems i hi).shrinks hs
  | dropping owner items =>
    obtain ⟨ha,hitems⟩:=h
    refine ⟨?_,fun i hi => (hitems i hi).shrinks hs⟩
    by_contra hne
    have:=(hs.owner owner).alive (by simpa using hne)
    simp [ha] at this
  | ended owner => exact ⟨(hs.owner _).closed h.1,hs.none_incoming h.2⟩
  | returned => trivial

variable {q : Option Progress}

theorem unlinkItem_cases (h : unlinkItem n s p=some (n',q)) :
    (p=.fresh ∧ n'=n.cancel s ∧ (q=some .linked ∨
        q=none ∧ ((n.owners (n.subs s).target).alive=false ∨ (n.owners (n.subs s).watcher).alive=false))) ∨
      (p=.linked ∧ n'=n.cutIncoming s ∧ q=some .half) ∨ p=.half ∧ n'=n.cutOutgoing s ∧ q=none := by
  cases p with
  | fresh =>
    simp only [unlinkItem,Option.some.injEq,Prod.mk.injEq] at h
    obtain ⟨rfl,rfl⟩:=h
    refine .inl ⟨rfl,rfl,?_⟩
    split
    · exact .inl rfl
    · rename_i hne
      refine .inr ⟨rfl,?_⟩
      simp only [Bool.and_eq_true,not_and,Bool.not_eq_true] at hne
      cases ha : (n.owners (n.subs s).target).alive with
      | false => exact .inl rfl
      | true => exact .inr (hne ha)
  | linked =>
    simp only [unlinkItem,Option.some.injEq,Prod.mk.injEq] at h
    exact .inr (.inl ⟨rfl,h.1.symm,h.2.symm⟩)
  | half =>
    simp only [unlinkItem,Option.some.injEq,Prod.mk.injEq] at h
    exact .inr (.inr ⟨rfl,h.1.symm,h.2.symm⟩)
  | waiting | calling => simp [unlinkItem] at h

inductive Told (n : Net) (owner s : ℕ) : Progress → Net → Progress → Prop where
  | skipped (p : Progress) (hp : p=.waiting ∨ p=.calling) : Told n owner s p n .fresh
  | failed (p : Progress) (hp : p=.waiting ∨ p=.calling) : Told n owner s p (n.fail owner 1) .fresh
  | called (halive : (n.owners (n.subs s).watcher).alive=true) (hlive : (n.subs s).cancelled=false) :
    Told n owner s .waiting {n with delivered:=n.delivered++[s]} .calling

theorem itemMove_cases {notify : Bool} {move : Move} (h : itemMove n o s notify move p=some (n',q)) :
    ((∃ i, move=.unlink i) ∧ unlinkItem n s p=some (n',q)) ∨ notify=true ∧ ∃ p', q=some p' ∧ Told n o s p n' p' ∧
    (p'=.calling → ∃ i deadline, move=.poll i deadline) := by
  unfold itemMove at h
  split at h
  · rename_i deadline
    obtain ⟨hnotify,h⟩:=Option.ite_none_right_eq_some.mp h
    simp only [Option.some.injEq,Prod.mk.injEq] at h
    obtain ⟨rfl,rfl⟩:=h
    refine .inr ⟨hnotify,_,rfl,?_,fun _ => ⟨_,_,rfl⟩⟩
    unfold pollItem
    split
    · exact .skipped _ (.inl rfl)
    · rename_i hlive
      split
      · exact .failed _ (.inl rfl)
      · split
        · exact .skipped _ (.inl rfl)
        · rename_i hcancelled
          simp only [Bool.or_eq_true,Bool.not_eq_true',not_or,Bool.not_eq_false] at hlive
          exact .called hlive.1 (by simpa using hcancelled)
  · obtain ⟨hnotify,h⟩:=Option.ite_none_right_eq_some.mp h
    simp only [Option.some.injEq,Prod.mk.injEq] at h
    obtain ⟨rfl,rfl⟩:=h
    refine .inr ⟨hnotify,_,rfl,?_,by simp⟩
    split
    · exact .failed _ (.inr rfl)
    · exact .skipped _ (.inr rfl)
  · obtain ⟨hnotify,h⟩:=Option.ite_none_right_eq_some.mp h
    simp only [Option.some.injEq,Prod.mk.injEq] at h
    obtain ⟨rfl,rfl⟩:=h
    exact .inr ⟨hnotify,_,rfl,.skipped _ (.inl rfl),by simp⟩
  · obtain ⟨hnotify,h⟩:=Option.ite_none_right_eq_some.mp h
    simp only [Option.some.injEq,Prod.mk.injEq] at h
    obtain ⟨rfl,rfl⟩:=h
    exact .inr ⟨hnotify,_,rfl,.skipped _ (.inr rfl),by simp⟩
  · exact .inl ⟨⟨_,rfl⟩,h⟩
  · contradiction

theorem itemsMove_cases {notify : Bool} {move : Move} (h : itemsMove n o notify move items=some (n',items')) :
    ∃ l s p r q, items=l++(s,p)::r ∧ itemMove n o s notify move p=some (n',q) ∧
      items'=l++(q.toList.map (fun p => (s,p))++r) := by
  unfold itemsMove at h
  simp only [bind,Option.bind_eq_some_iff,Prod.exists] at h
  obtain ⟨i,-,s,p,hi,m,q,hmove,h⟩:=h
  obtain ⟨hlt,heq⟩:=List.getElem?_eq_some_iff.mp hi
  have hsplit : items=items.take i++(s,p)::items.drop (i+1) := by
    rw [← heq]
    simp
  refine ⟨items.take i,s,p,items.drop (i+1),q,hsplit,?_,?_⟩
  · cases q with
    | none | some =>
      simp only [Option.some.injEq,Prod.mk.injEq] at h
      rw [hmove,h.1]
  · cases q with
    | none =>
      simp only [Option.some.injEq,Prod.mk.injEq] at h
      simp [← h.2,List.eraseIdx_eq_take_drop_succ]
    | some q =>
      simp only [Option.some.injEq,Prod.mk.injEq] at h
      simp [← h.2,List.set_eq_take_append_cons_drop,hlt]

theorem mem_middle {α : Type} {a b : α} {l m r : List α} (h : a∈l++b::r) : a=b ∨ a∈l++(m++r) := by
  simp only [mem_append,List.mem_cons] at h ⊢
  rcases h with h | h | h
  · exact .inr (.inl h)
  · exact .inl h
  · exact .inr (.inr (.inr h))

structure Unlinks (n : Net) (s : ℕ) (p : Progress) (n' : Net) (q : Option Progress) : Prop where
  shrinks : Shrinks n n'
  alive : ∀ o, (n'.owners o).alive=(n.owners o).alive
  delivered : n'.delivered=n.delivered
  inc : ∀ x, n.inc x → n'.inc x ∨ x=s
  out : ∀ x, n.out x → n'.out x ∨ x=s
  cancelled : (n'.subs s).cancelled=true
  next : ∀ p'∈q, p'=.linked ∨ p'=.half ∧ ¬n'.inc s
  last : q=none → p=.half ∧ ¬n'.out s ∨
    p=.fresh ∧ ((n.owners (n.subs s).target).alive=false ∨ (n.owners (n.subs s).watcher).alive=false)

theorem unlinkItem_unlinks (h : unlinkItem n s p=some (n',q))
    (hp : p ≠ .fresh → (n.subs s).cancelled=true) : Unlinks n s p n' q := by
  obtain ⟨rfl,rfl,hq⟩ | ⟨rfl,rfl,rfl⟩ | ⟨rfl,rfl,rfl⟩:=unlinkItem_cases h
  · have hstill : Still n (n.cancel s) := .cancel
    refine ⟨hstill.shrinks,fun _ => rfl,rfl,fun x hx => .inl ((hstill.inc x).mpr hx),
      fun x hx => .inl ((hstill.out x).mpr hx),by simp,?_,?_⟩
    · intro p' hp'
      rcases hq with rfl | ⟨rfl,-⟩
      · exact .inl (Option.some.inj hp').symm
      · simp at hp'
    · rintro rfl
      rcases hq with hq | ⟨-,hdead⟩
      · simp at hq
      · exact .inr ⟨rfl,hdead⟩
  · have hshr:=Shrinks.cutIncoming n s
    refine ⟨hshr,fun o => ?_,?_,fun x hx => ?_,fun x hx => .inl (out_cutIncoming.mpr hx),
      hshr.cancelled s (hp (by decide)),fun p' hp' => ?_,by simp⟩
    · unfold Net.cutIncoming
      split
      · rw [Net.modify_owners]
        split <;> simp_all
      · rfl
    · unfold Net.cutIncoming
      split <;> rfl
    · rw [inc_cutIncoming]
      by_cases hxs : x=s
      · exact .inr hxs
      · exact .inl ⟨hx,hxs⟩
    · exact .inr ⟨(Option.some.inj hp').symm,fun hin => (inc_cutIncoming.mp hin).2 rfl⟩
  · have hshr:=Shrinks.cutOutgoing n s
    refine ⟨hshr,fun o => ?_,?_,fun x hx => .inl (inc_cutOutgoing.mpr hx),fun x hx => ?_,
      hshr.cancelled s (hp (by decide)),by simp,fun _ => .inl ⟨rfl,fun hout => (out_cutOutgoing.mp hout).2 rfl⟩⟩
    · unfold Net.cutOutgoing
      split
      · rw [Net.modify_owners]
        split <;> simp_all
      · rfl
    · unfold Net.cutOutgoing
      split <;> rfl
    · rw [out_cutOutgoing]
      by_cases hxs : x=s
      · exact .inr hxs
      · exact .inl ⟨hx,hxs⟩

theorem Turn.thread {old new : Thread} (hshrinks : Shrinks n n')
    (halive : ∀ o, (n'.owners o).alive=(n.owners o).alive) (hsound : new.Sound n')
    (hin : ∀ s, n'.inc s → n.out s ∨ old.CoversIn s → n'.out s ∨ new.CoversIn s) (hout : ∀ s, n'.out s → n.inc s ∨
    old.CoversOut s → n'.inc s ∨ new.CoversOut s) (hcancels : ∀ s, (n'.subs s).cancelled=false → n.out s ∨
    old.Cancels s → n'.out s ∨ (n'.owners (n.subs s).target).alive=false ∨ new.Cancels s)
    (honce : ∀ s, new.waits s+n'.delivered.count s≤old.waits s+n.delivered.count s)
    (hdelivered : ∀ s∈n'.delivered, s∈n.delivered ∨ s<n.created) : Turn n (some old) n' (some new) := by
  have hsome {P : Thread → Prop} {t : Thread} : (∃ u∈some t, P u) ↔ P t := by simp
  refine ⟨hshrinks,by simpa using hsound,?_,?_,?_,?_,hdelivered,fun _ => halive⟩
  · simpa only [hsome] using hin
  · simpa only [hsome] using hout
  · intro s ht _ hlive hold
    rw [hsome] at hold ⊢
    rcases hcancels s hlive hold with h | h | h
    · exact .inl h
    · simp [ht] at h
    · exact .inr h
  · intro s
    have hle:=stored_le (s := s) hshrinks
    have:=honce s
    simp only [Option.elim_some]
    omega

variable {l r : List (ℕ × Progress)}

theorem Turn.unlinking {after : After} (hn : Typed n) (h : (Thread.unlinking o after (l++(s,p)::r)).Sound n)
    (hu : unlinkItem n s p=some (n',q)) : Turn n (some (.unlinking o after (l++(s,p)::r))) n'
    (some (.unlinking o after (l++(q.toList.map (fun p => (s,p))++r)))) := by
  obtain ⟨halive,hafter,hitems⟩:=h
  have hs:=hitems (s,p) (by simp)
  have hu:=unlinkItem_unlinks hu hs.cancelled
  have hshr:=hu.shrinks
  have hmem {x : ℕ} {p' : Progress} (hx : (x,p')∈l++(s,p)::r) :
      x=s ∧ p'=p ∨ (x,p')∈l++(q.toList.map (fun p => (s,p))++r) :=
    (mem_middle hx).imp_left Prod.mk.inj
  refine Turn.thread hshr hu.alive ?_ ?_ ?_ ?_ ?_ fun x hx => .inl (hu.delivered ▸ hx)
  · refine ⟨(hu.alive o).trans halive,fun hne => (hshr.owner o).closed (hafter hne),fun i hi => ?_⟩
    simp only [mem_append,mem_map,Option.mem_toList] at hi
    rcases hi with hi | ⟨p',hp',rfl⟩ | hi
    · exact (hitems i (by simp [hi])).shrinks hshr
    · have hr:=hs.shrinks hshr
      refine ⟨hr.created,hr.watcher,hr.absent,fun _ => hu.cancelled,?_⟩
      rintro rfl
      exact ((hu.next _ hp').resolve_left (by decide)).2
    · exact (hitems i (by simp [hi])).shrinks hshr
  · intro x hx hcover
    rcases hcover with hout | ⟨p',hp',hne⟩
    · refine .inl ((hu.out x hout).resolve_right ?_)
      rintro rfl
      exact hs.absent hout
    · rcases hmem hp' with ⟨rfl,rfl⟩ | hp'
      · cases hq : q with
        | some p'' =>
          rcases hu.next p'' hq with rfl | ⟨-,hcut⟩
          · exact .inr ⟨.linked,by simp,by decide⟩
          · exact absurd hx hcut
        | none =>
          -- The thread keeps the watcher alive, so it is the target that is gone.
          obtain ⟨hhalf,-⟩ | ⟨-,hdead | hdead⟩:=hu.last hq
          · exact absurd hhalf hne
          · have:=(hn.dead _ hdead (n.subs x).watcher).1
            rw [hshr.inc hx] at this
            contradiction
          · rw [hs.watcher,halive] at hdead
            contradiction
      · exact .inr ⟨p',hp',hne⟩
  · intro x hx hcover
    refine .inl ((hu.inc x (hcover.resolve_right id)).resolve_right ?_)
    rintro rfl
    exact hs.absent (hshr.out hx)
  · intro x hlive hcover
    rcases hcover with hout | hc
    · refine .inl ((hu.out x hout).resolve_right ?_)
      rintro rfl
      exact hs.absent hout
    · rcases hmem hc with ⟨rfl,-⟩ | hc
      · simp [hu.cancelled] at hlive
      · exact .inr (.inr hc)
  · intro x
    simp [Thread.waits,hu.delivered]

theorem count_middle_le {s : ℕ} (hq : ∀ p'∈q, p' ≠ .waiting) :
    (l++(q.toList.map (fun p => (s,p))++r)).count (x,.waiting)≤(l++(s,p)::r).count (x,.waiting) := by
  cases q with
  | none =>
    simp only [Option.toList_none,map_nil,List.nil_append,count_append,count_cons]
    omega
  | some p' =>
    have hne : ((s,p')==(x,Progress.waiting))=false := by simp [hq p' rfl]
    simp only [Option.toList_some,List.map_cons,map_nil,List.cons_append,List.nil_append,count_append,
      count_cons,hne,Bool.false_eq_true,if_false]
    omega

theorem Turn.disposing (hn : Typed n)
    (h : (Thread.disposing o (l++(s,p)::r)).Sound n) (hu : unlinkItem n s p=some (n',q)) :
    Turn n (some (.disposing o (l++(s,p)::r))) n' (some (.disposing o (l++(q.toList.map (fun p => (s,p))++r)))) := by
  obtain ⟨halive,hclosed,hnone,hitems⟩:=h
  have hs:=hitems (s,p) (by simp)
  have hinc : ¬n.inc s := by
    unfold Net.inc
    rw [hs.target,hnone]
    simp
  have hu:=unlinkItem_unlinks hu (by
    intro hp
    obtain ⟨hfresh,-⟩ | ⟨hlinked,-⟩ | ⟨hhalf,-⟩:=unlinkItem_cases hu
    · exact absurd hfresh hp
    · exact hs.cancelled (.inl hlinked)
    · exact hs.cancelled (.inr hhalf))
  have hshr:=hu.shrinks
  refine Turn.thread hshr hu.alive ?_ ?_ ?_ ?_ ?_ fun x hx => .inl (hu.delivered ▸ hx)
  · refine ⟨(hu.alive o).trans halive,(hshr.owner o).closed hclosed,hshr.none_incoming hnone,fun i hi => ?_⟩
    simp only [mem_append,mem_map,Option.mem_toList] at hi
    rcases hi with hi | ⟨p',hp',rfl⟩ | hi
    · exact (hitems i (by simp [hi])).shrinks hshr
    · have hr:=hs.shrinks hshr
      exact ⟨hr.created,hr.target,fun _ => hu.cancelled⟩
    · exact (hitems i (by simp [hi])).shrinks hshr
  · intro x hx hcover
    refine .inl ((hu.out x (hcover.resolve_right id)).resolve_right ?_)
    rintro rfl
    exact hinc (hshr.inc hx)
  · intro x hx hcover
    rcases hcover with hin | ⟨p',hp'⟩
    · refine .inl ((hu.inc x hin).resolve_right ?_)
      rintro rfl
      exact hinc hin
    · rcases mem_middle hp' with heq | hp'
      · obtain ⟨rfl,rfl⟩:=Prod.mk.inj heq
        cases hq : q with
        | some p'' => exact .inr ⟨p'',by simp⟩
        | none =>
          -- The thread keeps the target alive, so it is the watcher that is gone.
          obtain ⟨-,hcut⟩ | ⟨-,hdead | hdead⟩:=hu.last hq
          · exact absurd hx hcut
          · rw [hs.target,halive] at hdead
            contradiction
          · have:=(hn.dead _ hdead (n.subs x).target).2
            rw [hshr.out hx] at this
            contradiction
      · exact .inr ⟨p',hp'⟩
  · intro x hlive hcover
    refine .inl ((hu.out x (hcover.resolve_right id)).resolve_right ?_)
    rintro rfl
    simp [hu.cancelled] at hlive
  · intro x
    have:=count_middle_le (x := x) (s := s) (p := p) (q := q) (l := l) (r := r) (by
      intro p' hp'
      rcases hu.next p' hp' with rfl | ⟨rfl,-⟩ <;> decide)
    simp only [Thread.waits,hu.delivered]
    omega

theorem Turn.told {p p' : Progress} (h : (Thread.disposing o (l++(s,p)::r)).Sound n) (ht : Told n o s p n' p') :
    Turn n (some (.disposing o (l++(s,p)::r))) n' (some (.disposing o (l++(s,p')::r))) := by
  obtain ⟨halive,hclosed,hnone,hitems⟩:=h
  have hs:=hitems (s,p) (by simp)
  have hp' : p'=.fresh ∨ p'=.calling := by cases ht <;> simp
  have hstill : Still n n' := by
    cases ht with
    | skipped => exact .refl n
    | failed => exact .fail
    | called =>
      exact ⟨⟨rfl,fun _ => ⟨rfl,rfl⟩,fun _ => id,fun _ => .refl _⟩,fun _ => Iff.rfl,fun _ => Iff.rfl⟩
  have hshr:=hstill.shrinks
  have ha (x : ℕ) : (n'.owners x).alive=(n.owners x).alive := by
    cases ht with
    | skipped | called => rfl
    | failed =>
      rw [Net.fail,Net.modify_owners]
      split <;> simp_all
  refine Turn.thread hshr ha ?_ ?_ ?_ ?_ ?_ ?_
  · refine ⟨(ha o).trans halive,(hshr.owner o).closed hclosed,hshr.none_incoming hnone,fun i hi => ?_⟩
    rcases List.mem_append.mp hi with hi | hi
    · exact (hitems i (by simp [hi])).shrinks hshr
    · rcases List.mem_cons.mp hi with rfl | hi
      · have hr:=hs.shrinks hshr
        refine ⟨hr.created,hr.target,fun h => ?_⟩
        rcases hp' with rfl | rfl <;> simp at h
      · exact (hitems i (by simp [hi])).shrinks hshr
  · intro x _ hcover
    exact .inl ((hstill.out x).mpr (hcover.resolve_right id))
  · intro x _ hcover
    rcases hcover with hin | ⟨p'',hp''⟩
    · exact .inl ((hstill.inc x).mpr hin)
    · refine .inr ?_
      rcases List.mem_append.mp hp'' with hp'' | hp''
      · exact ⟨p'',by simp [hp'']⟩
      · rcases List.mem_cons.mp hp'' with heq | hp''
        · cases heq
          exact ⟨p',by simp⟩
        · exact ⟨p'',by simp [hp'']⟩
  · intro x _ hcover
    exact .inl ((hstill.out x).mpr (hcover.resolve_right id))
  · intro x
    simp only [Thread.waits,count_append,count_cons]
    cases ht with
    | skipped => simp
    | failed => simp [Net.fail]
    | called =>
      simp only [count_append,List.count_singleton]
      by_cases hx : s=x <;> simp [hx]
      omega
  · intro x hx
    cases ht with
    | skipped | failed => exact .inl hx
    | called =>
      rcases List.mem_append.mp hx with hx | hx
      · exact .inl hx
      · rw [List.mem_singleton] at hx
        exact .inr (hx ▸ hs.created)

theorem dropItem_delivered {stage : DropStage} : (dropItem n o s stage).1.delivered=n.delivered := by
  cases stage with
  | fresh => rfl
  | watcherNext | targetNext =>
    simp only [dropItem]
    split <;> rfl

theorem Turn.dropping {rest : List (ℕ × DropStage)} {stage : DropStage} (hn : Typed n)
    (h : (Thread.dropping o ((s,stage)::rest)).Sound n) :
    Turn n (some (.dropping o ((s,stage)::rest))) (dropItem n o s stage).1
      (some (.dropping o ((dropItem n o s stage).2.toList.map (fun stage => (s,stage))++rest))) := by
  obtain ⟨hdead,hitems⟩:=h
  have hs:=hitems (s,stage) (by simp)
  have hnone:=hn.dead o hdead
  have hshr : Shrinks n (dropItem n o s stage).1 := by
    cases stage with
    | fresh => exact Shrinks.cancel
    | watcherNext =>
      simp only [dropItem]
      split
      · exact .modify (.removeOutgoing _ _)
      · exact .refl n
    | targetNext =>
      simp only [dropItem]
      split
      · exact .modify (.removeIncoming _ _)
      · exact .refl n
  have hdelivered : (dropItem n o s stage).1.delivered=n.delivered := dropItem_delivered
  -- An edge whose entry the destructor removes has lost its other entry with the owner.
  have hinc {x : ℕ} (hx : n.inc x) : (dropItem n o s stage).1.inc x ∨ (n.subs x).watcher=o := by
    refine or_iff_not_imp_right.mpr fun hne => ?_
    cases stage with
    | fresh => exact (Still.cancel.inc x).mpr hx
    | watcherNext =>
      simp only [dropItem]
      split
      · simp only [Net.inc,Net.modify_subs,Net.modify_owners]
        split <;> simp_all [Net.inc]
      · exact hx
    | targetNext =>
      simp only [dropItem]
      split
      · simp only [Net.inc,Net.modify_subs,Net.modify_owners]
        split
        · rename_i heq
          rw [OrderedMap.get_remove_of_ne hne,← heq]
          exact hx
        · exact hx
      · exact hx
  have hout {x : ℕ} (hx : n.out x) : (dropItem n o s stage).1.out x ∨ (n.subs x).target=o := by
    refine or_iff_not_imp_right.mpr fun hne => ?_
    cases stage with
    | fresh => exact (Still.cancel.out x).mpr hx
    | targetNext =>
      simp only [dropItem]
      split
      · simp only [Net.out,Net.modify_subs,Net.modify_owners]
        split <;> simp_all [Net.out]
      · exact hx
    | watcherNext =>
      simp only [dropItem]
      split
      · simp only [Net.out,Net.modify_subs,Net.modify_owners]
        split
        · rename_i heq
          rw [OrderedMap.get_remove_of_ne hne,← heq]
          exact hx
        · exact hx
      · exact hx
  have hnoinc {x : ℕ} (hx : (n.subs x).target=o) : ¬n.inc x := by
    simp [Net.inc,hx,(hnone _).1]
  have hnoout {x : ℕ} (hx : (n.subs x).watcher=o) : ¬n.out x := by
    simp [Net.out,hx,(hnone _).2]
  have halive (x : ℕ) : ((dropItem n o s stage).1.owners x).alive=(n.owners x).alive := by
    cases stage with
    | fresh => rfl
    | watcherNext | targetNext =>
      simp only [dropItem]
      split
      · rw [Net.modify_owners]
        split <;> simp_all
      · rfl
  have hdead' : ((dropItem n o s stage).1.owners o).alive=false := (halive o).trans hdead
  refine Turn.thread hshr halive ?_ ?_ ?_ ?_ ?_ fun x hx => .inl (hdelivered ▸ hx)
  · refine ⟨hdead',fun i hi => ?_⟩
    simp only [mem_append,mem_map,Option.mem_toList] at hi
    rcases hi with ⟨stage',-,rfl⟩ | hi
    · exact ⟨hshr.created ▸ hs.created,(hs.shrinks hshr).owner⟩
    · exact (hitems i (by simp [hi])).shrinks hshr
  · intro x hx hcover
    rcases hcover with hx' | ⟨stage',hstage'⟩
    · exact .inl ((hout hx').resolve_right fun ht => hnoinc ht (hshr.inc hx))
    · rcases List.mem_cons.mp hstage' with heq | hstage'
      · obtain ⟨rfl,rfl⟩:=Prod.mk.inj heq
        cases stage' with
        | fresh => exact .inr ⟨.watcherNext,by simp [dropItem]⟩
        | watcherNext => exact .inr ⟨.targetNext,by simp [dropItem]⟩
        | targetNext =>
          rcases hs.owner with ht | hw
          · exact absurd (hshr.inc hx) (hnoinc ht)
          · have hgone : ¬(dropItem n o x .targetNext).1.inc x := by
              simp only [dropItem]
              split
              · simp [Net.inc,show (n.subs x).watcher=o from hw]
              · rename_i ha
                simp [Net.inc,(hn.dead _ (by simpa using ha) _).1]
            exact absurd hx hgone
      · exact .inr ⟨stage',by simp [hstage']⟩
  · intro x hx hcover
    rcases hcover with hx' | ⟨stage',hstage',hne⟩
    · exact .inl ((hinc hx').resolve_right fun hw => hnoout hw (hshr.out hx))
    · rcases List.mem_cons.mp hstage' with heq | hstage'
      · obtain ⟨rfl,rfl⟩:=Prod.mk.inj heq
        cases stage' with
        | fresh => exact .inr ⟨.watcherNext,by simp [dropItem],by decide⟩
        | watcherNext =>
          rcases hs.owner with ht | hw
          · have hgone : ¬(dropItem n o x .watcherNext).1.out x := by
              simp only [dropItem]
              split
              · simp [Net.out,show (n.subs x).target=o from ht]
              · rename_i ha
                simp [Net.out,(hn.dead _ (by simpa using ha) _).2]
            exact absurd hx hgone
          · exact absurd (hshr.out hx) (hnoout hw)
        | targetNext => exact absurd rfl hne
      · exact .inr ⟨stage',by simp [hstage'],hne⟩
  · intro x _ hcover
    rcases hout (hcover.resolve_right id) with hx | ht
    · exact .inl hx
    · exact .inr (.inl (ht ▸ hdead'))
  · intro x
    simp [Thread.waits,hdelivered]

end Parrot.DeathWatch
