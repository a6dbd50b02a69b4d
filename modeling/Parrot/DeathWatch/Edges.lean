import Parrot.DeathWatch.Tables

/-! # The two ends of an edge

An edge is put into both tables by `watch` and by nothing else. -/

namespace Parrot.DeathWatch
open Threads

variable {n n' : Net} {o s x target watcher : ℕ}

namespace Net

def inc (n : Net) (s : ℕ) : Prop := (n.owners (n.subs s).target).incoming.get (n.subs s).watcher=some s

def out (n : Net) (s : ℕ) : Prop := (n.owners (n.subs s).watcher).outgoing.get (n.subs s).target=some s

variable (f : Owner → Owner)

@[simp] theorem modify_subs : (n.modify o f).subs=n.subs := rfl
@[simp] theorem modify_created : (n.modify o f).created=n.created := rfl

@[simp] theorem modify_delivered : (n.modify o f).delivered=n.delivered := rfl

@[simp] theorem modify_owners : (n.modify o f).owners x=if x=o then f (n.owners o) else n.owners x := by
  simp [modify,Function.update_apply]

theorem modify_modify (f g : Owner → Owner) : (n.modify o f).modify o g=n.modify o (g ∘ f) := by
  simp [modify]

@[simp] theorem cancel_owners : (n.cancel s).owners=n.owners := rfl

@[simp] theorem cancel_subs :
    (n.cancel s).subs x=if x=s then {n.subs s with cancelled:=true} else n.subs x := by
  simp [cancel,Function.update_apply]

end Net

/-- An entry stands under the peer that its edge names, a dead owner has no entry and one that
refuses watches nothing. -/
structure Typed (n : Net) : Prop where
  incoming : ∀ o w s, (n.owners o).incoming.get w=some s → s<n.created ∧ (n.subs s).target=o ∧ (n.subs s).watcher=w
  outgoing : ∀ o t s, (n.owners o).outgoing.get t=some s → s<n.created ∧ (n.subs s).watcher=o ∧ (n.subs s).target=t
  loopless : ∀ s<n.created, (n.subs s).target≠(n.subs s).watcher
  dead : ∀ o, (n.owners o).alive=false → ∀ k, (n.owners o).incoming.get k=none ∧ (n.owners o).outgoing.get k=none
  refusing : ∀ o, n.refuses o → ∀ k, (n.owners o).outgoing.get k=none
  limited : ∀ o, (n.owners o).incoming.size≤(n.owners o).limit ∧ (n.owners o).outgoing.size≤(n.owners o).limit

structure Owner.Shrinks (x y : Owner) : Prop where
  limit : y.limit=x.limit
  closed : x.closed=true → y.closed=true
  alive : y.alive=true → x.alive=true
  incoming : ∀ k s, y.incoming.get k=some s → x.incoming.get k=some s
  outgoing : ∀ k s, y.outgoing.get k=some s → x.outgoing.get k=some s
  incomingSize : y.incoming.size≤x.incoming.size
  outgoingSize : y.outgoing.size≤x.outgoing.size
  refusing : (y.closed||y.suspended)=true → (x.closed||x.suspended)=true ∨ ∀ k, y.outgoing.get k=none
  dead : y.alive=false → x.alive=false ∨ ∀ k, y.incoming.get k=none ∧ y.outgoing.get k=none

theorem Owner.Shrinks.refl (x : Owner) : x.Shrinks x :=
  ⟨rfl,id,id,fun _ _ => id,fun _ _ => id,le_rfl,le_rfl,.inl,.inl⟩

theorem Owner.Shrinks.trans {x y z : Owner} (h : x.Shrinks y) (h' : y.Shrinks z) : x.Shrinks z := by
  refine ⟨h'.limit.trans h.limit,fun hx => h'.closed (h.closed hx),fun hz => h.alive (h'.alive hz),
    fun k s hs => h.incoming k s (h'.incoming k s hs),fun k s hs => h.outgoing k s (h'.outgoing k s hs),
    h'.incomingSize.trans h.incomingSize,h'.outgoingSize.trans h.outgoingSize,fun hz => ?_,fun hz => ?_⟩
  · rcases h'.refusing hz with hy | hnone
    · refine (h.refusing hy).imp_right fun hnone k => ?_
      refine Option.eq_none_iff_forall_ne_some.mpr fun s hs => ?_
      simpa [hnone k] using h'.outgoing k s hs
    · exact .inr hnone
  · rcases h'.dead hz with hy | hnone
    · refine (h.dead hy).imp_right fun hnone k => ⟨?_,?_⟩
      · refine Option.eq_none_iff_forall_ne_some.mpr fun s hs => ?_
        simpa [(hnone k).1] using h'.incoming k s hs
      · refine Option.eq_none_iff_forall_ne_some.mpr fun s hs => ?_
        simpa [(hnone k).2] using h'.outgoing k s hs
    · exact .inr hnone

structure Shrinks (n n' : Net) : Prop where
  created : n'.created=n.created
  ends : ∀ s, (n'.subs s).target=(n.subs s).target ∧ (n'.subs s).watcher=(n.subs s).watcher
  cancelled : ∀ s, (n.subs s).cancelled=true → (n'.subs s).cancelled=true
  owner : ∀ o, (n.owners o).Shrinks (n'.owners o)

namespace Shrinks

theorem refl (n : Net) : Shrinks n n := ⟨rfl,fun _ => ⟨rfl,rfl⟩,fun _ => id,fun _ => Owner.Shrinks.refl _⟩

theorem modify {f : Owner → Owner} (h : (n.owners o).Shrinks (f (n.owners o))) : Shrinks n (n.modify o f) := by
  refine ⟨rfl,fun _ => ⟨rfl,rfl⟩,fun _ => id,fun x => ?_⟩
  rw [Net.modify_owners]
  split
  · rename_i hx
    rw [hx]
    exact h
  · exact Owner.Shrinks.refl _

theorem cancel : Shrinks n (n.cancel s) := by
  refine ⟨rfl,fun x => ?_,fun x hx => ?_,fun _ => Owner.Shrinks.refl _⟩
  · rw [Net.cancel_subs]
    split <;> simp_all
  · rw [Net.cancel_subs]
    split <;> simp_all

theorem inc (h : Shrinks n n') (hs : n'.inc s) : n.inc s := by
  unfold Net.inc at hs ⊢
  rw [(h.ends s).1,(h.ends s).2] at hs
  exact (h.owner _).incoming _ _ hs

theorem out (h : Shrinks n n') (hs : n'.out s) : n.out s := by
  unfold Net.out at hs ⊢
  rw [(h.ends s).1,(h.ends s).2] at hs
  exact (h.owner _).outgoing _ _ hs

theorem typed (h : Shrinks n n') (hn : Typed n) : Typed n' := by
  refine ⟨?_,?_,?_,?_,?_,?_⟩
  · intro o w s hs
    rw [h.created,(h.ends s).1,(h.ends s).2]
    exact hn.incoming o w s ((h.owner o).incoming w s hs)
  · intro o t s hs
    rw [h.created,(h.ends s).1,(h.ends s).2]
    exact hn.outgoing o t s ((h.owner o).outgoing t s hs)
  · intro s hs
    rw [(h.ends s).1,(h.ends s).2]
    exact hn.loopless s (h.created ▸ hs)
  · intro o ho k
    rcases (h.owner o).dead ho with hdead | hnone
    · have hk:=hn.dead o hdead k
      constructor
      · refine Option.eq_none_iff_forall_ne_some.mpr fun s hs => ?_
        simp [(h.owner o).incoming k s hs] at hk
      · refine Option.eq_none_iff_forall_ne_some.mpr fun s hs => ?_
        simp [(h.owner o).outgoing k s hs] at hk
    · exact hnone k
  · intro o ho k
    rcases (h.owner o).refusing ho with hrefuses | hnone
    · have hk:=hn.refusing o hrefuses k
      refine Option.eq_none_iff_forall_ne_some.mpr fun s hs => ?_
      simp [(h.owner o).outgoing k s hs] at hk
    · exact hnone k
  · intro o
    have hl:=hn.limited o
    rw [(h.owner o).limit]
    exact ⟨(h.owner o).incomingSize.trans hl.1,(h.owner o).outgoingSize.trans hl.2⟩

end Shrinks

namespace Owner.Shrinks

theorem removeIncoming (x : Owner) (k : ℕ) : x.Shrinks {x with incoming:=x.incoming.remove k} := by
  refine ⟨rfl,id,id,fun w s hs => ?_,fun _ _ => id,List.length_filter_le _ _,le_rfl,.inl,.inl⟩
  rw [OrderedMap.get_remove] at hs
  split at hs
  · contradiction
  · exact hs

theorem removeOutgoing (x : Owner) (k : ℕ) : x.Shrinks {x with outgoing:=x.outgoing.remove k} := by
  refine ⟨rfl,id,id,fun _ _ => id,fun w s hs => ?_,le_rfl,List.length_filter_le _ _,.inl,.inl⟩
  rw [OrderedMap.get_remove] at hs
  split at hs
  · contradiction
  · exact hs

theorem takeIncoming (x : Owner) : x.Shrinks {x with incoming:=.empty} :=
  ⟨rfl,id,id,by simp,fun _ _ => id,Nat.zero_le _,le_rfl,.inl,.inl⟩

theorem close (x : Owner) : x.Shrinks {x with closed:=true,outgoing:=.empty} :=
  ⟨rfl,fun _ => rfl,id,fun _ _ => id,by simp,le_rfl,Nat.zero_le _,fun _ => .inr (by simp),.inl⟩

theorem suspend (x : Owner) : x.Shrinks {x with suspended:=true,outgoing:=.empty} :=
  ⟨rfl,id,id,fun _ _ => id,by simp,le_rfl,Nat.zero_le _,fun _ => .inr (by simp),.inl⟩

theorem resume (x : Owner) : x.Shrinks {x with suspended:=false} :=
  ⟨rfl,id,id,fun _ _ => id,fun _ _ => id,le_rfl,le_rfl,fun h => .inl (by simp_all),.inl⟩

theorem destroy (x : Owner) : x.Shrinks {x with alive:=false,incoming:=.empty,outgoing:=.empty} :=
  ⟨rfl,id,by simp,by simp,by simp,Nat.zero_le _,Nat.zero_le _,fun _ => .inr (by simp),fun _ => .inr (by simp)⟩

theorem setRecipient (x : Owner) : x.Shrinks {x with endpoint:=true} :=
  ⟨rfl,id,id,fun _ _ => id,fun _ _ => id,le_rfl,le_rfl,.inl,.inl⟩

theorem fail (x : Owner) (count : ℕ) : x.Shrinks {x with failures:=x.failures+count} :=
  ⟨rfl,id,id,fun _ _ => id,fun _ _ => id,le_rfl,le_rfl,.inl,.inl⟩

end Owner.Shrinks

namespace Shrinks

theorem cutIncoming (n : Net) (s : ℕ) : Shrinks n (n.cutIncoming s) := by
  unfold Net.cutIncoming
  split
  · exact modify (Owner.Shrinks.removeIncoming _ _)
  · exact refl n

theorem cutOutgoing (n : Net) (s : ℕ) : Shrinks n (n.cutOutgoing s) := by
  unfold Net.cutOutgoing
  split
  · exact modify (Owner.Shrinks.removeOutgoing _ _)
  · exact refl n

end Shrinks

theorem inc_cutIncoming : (n.cutIncoming s).inc x ↔ n.inc x ∧ x≠s := by
  unfold Net.cutIncoming
  split
  · rename_i hs
    simp only [Net.inc,Net.modify_subs,Net.modify_owners]
    split
    · rename_i ht
      rw [OrderedMap.get_remove,ht]
      split
      · rename_i hw
        rw [hw,hs]
        simp only [reduceCtorEq,Option.some.injEq,false_iff,not_and,not_not]
        exact Eq.symm
      · rename_i hw
        refine ⟨fun h => ⟨h,?_⟩,And.left⟩
        rintro rfl
        exact hw rfl
    · rename_i ht
      refine ⟨fun h => ⟨h,?_⟩,And.left⟩
      rintro rfl
      exact ht rfl
  · rename_i hs
    refine ⟨fun h => ⟨h,?_⟩,And.left⟩
    rintro rfl
    exact hs h

theorem out_cutOutgoing : (n.cutOutgoing s).out x ↔ n.out x ∧ x≠s := by
  unfold Net.cutOutgoing
  split
  · rename_i hs
    simp only [Net.out,Net.modify_subs,Net.modify_owners]
    split
    · rename_i hw
      rw [OrderedMap.get_remove,hw]
      split
      · rename_i ht
        rw [ht,hs]
        simp only [reduceCtorEq,Option.some.injEq,false_iff,not_and,not_not]
        exact Eq.symm
      · rename_i ht
        refine ⟨fun h => ⟨h,?_⟩,And.left⟩
        rintro rfl
        exact ht rfl
    · rename_i hw
      refine ⟨fun h => ⟨h,?_⟩,And.left⟩
      rintro rfl
      exact hw rfl
  · rename_i hs
    refine ⟨fun h => ⟨h,?_⟩,And.left⟩
    rintro rfl
    exact hs h

theorem out_cutIncoming : (n.cutIncoming s).out x ↔ n.out x := by
  unfold Net.cutIncoming
  split
  · simp only [Net.out,Net.modify_subs,Net.modify_owners]
    split <;> simp_all
  · rfl

theorem inc_cutOutgoing : (n.cutOutgoing s).inc x ↔ n.inc x := by
  unfold Net.cutOutgoing
  split
  · simp only [Net.inc,Net.modify_subs,Net.modify_owners]
    split <;> simp_all
  · rfl

theorem Typed.start (limits : ℕ → ℕ) : Typed (Net.start limits) := by
  refine ⟨?_,?_,?_,?_,?_,?_⟩ <;> simp [Net.start,Net.refuses,OrderedMap.size,OrderedMap.empty,OrderedMap.get]

end Parrot.DeathWatch
