import Parrot.DeathWatch.Runs

/-! # Deliveries and the ends of subscriptions

A termination is delivered along an edge at most once, from `terminated` of its target, and not
after the operation that took the edge from its watcher has cancelled it. -/

namespace Parrot.DeathWatch
open Threads

variable {n n' : Net} {o s target watcher i : ℕ} {t t' : Thread} {p p' q : Pool Net Thread} {e : Event} {move : Move}
  {a : Action Event Move} {actions : List (Action Event Move)} {limits : ℕ → ℕ}

theorem enter_delivered {new : Option Thread} (h : enter e n=some (n',new)) : n'.delivered=n.delivered := by
  cases e with
  | watch target watcher =>
    simp only [enter,Option.ite_none_right_eq_some,Option.some.injEq,Prod.mk.injEq,Bool.and_eq_true] at h
    obtain ⟨⟨ht,hw⟩,rfl,-⟩:=h
    rcases watch_cases ht hw with ⟨hr,-⟩ | ⟨hsame,-⟩
    · exact hr.delivered
    · rw [hsame]
  | resume o =>
    simp only [enter,Option.ite_none_right_eq_some,Option.some.injEq,Prod.mk.injEq] at h
    obtain ⟨-,rfl,-⟩:=h
    split <;> rfl
  | _ =>
    simp only [enter,Option.ite_none_right_eq_some,Option.some.injEq,Prod.mk.injEq] at h
    obtain ⟨-,rfl,-⟩:=h
    rfl

def Thread.Notifies (owner : ℕ) : Thread → Prop
  | .unlinking o after _ => o=owner ∧ after=.terminate
  | .disposing o items => o=owner ∧ ∃ s, (s,.waiting)∈items
  | _ => False

theorem unlinkItem_delivered {p : Progress} {q : Option Progress} (h : unlinkItem n s p=some (n',q)) :
    n'.delivered=n.delivered ∧ ∀ p'∈q, p' ≠ .waiting := by
  obtain ⟨rfl,rfl,hq⟩ | ⟨rfl,rfl,rfl⟩ | ⟨rfl,rfl,rfl⟩:=unlinkItem_cases h
  · refine ⟨rfl,fun p' hp' => ?_⟩
    rcases hq with rfl | ⟨rfl,-⟩
    · cases hp'
      decide
    · simp at hp'
  · refine ⟨?_,fun p' hp' => ?_⟩
    · unfold Net.cutIncoming
      split <;> rfl
    · cases hp'
      decide
  · refine ⟨?_,by simp⟩
    unfold Net.cutOutgoing
    split <;> rfl

def Delivers (n : Net) (move : Move) (t : Thread) (n' : Net) (s : ℕ) : Prop :=
  (∃ j deadline, move=.poll j deadline) ∧ (∃ o items, t=.disposing o items ∧ (s,.waiting)∈items) ∧
    n'.delivered=n.delivered++[s] ∧ (n.owners (n.subs s).watcher).alive=true ∧ (n.subs s).cancelled=false

variable {items : List (ℕ × Progress)}

theorem disposing_delivered
    (h : (itemsMove n o true move items).map (fun (n,items) => (n,Thread.disposing o items))=some (n',t')) :
    (n'.delivered=n.delivered ∨ ∃ s, Delivers n move (.disposing o items) n' s) ∧
      ∀ x, t'.Notifies x → (Thread.disposing o items).Notifies x := by
  obtain ⟨⟨m,items'⟩,hitems,heq⟩:=Option.map_eq_some_iff.mp h
  cases heq
  obtain ⟨l,s,p,r,q,rfl,hmove,rfl⟩:=itemsMove_cases hitems
  have hold {x : ℕ} (hq : ∀ p'∈q, p' ≠ .waiting) (hx : (x,Progress.waiting)∈l++(q.toList.map (fun p => (s,p))++r)) :
      (x,Progress.waiting)∈l++(s,p)::r := by
    simp only [List.mem_append,List.mem_map,Option.mem_toList,Prod.mk.injEq] at hx
    rcases hx with hx | ⟨p',hp',-,rfl⟩ | hx
    · simp [hx]
    · exact absurd rfl (hq _ hp')
    · simp [hx]
  obtain ⟨-,hu⟩ | ⟨-,p',rfl,htold,hpoll⟩:=itemMove_cases hmove
  · obtain ⟨hdelivered,hq⟩:=unlinkItem_delivered hu
    exact ⟨.inl hdelivered,fun x ⟨ho,y,hy⟩ => ⟨ho,y,hold hq hy⟩⟩
  · cases htold with
    | skipped | failed => exact ⟨.inl rfl,fun x ⟨ho,y,hy⟩ => ⟨ho,y,hold (by simp) hy⟩⟩
    | called halive hlive =>
      exact ⟨.inr ⟨s,hpoll rfl,⟨o,_,rfl,by simp⟩,rfl,halive,hlive⟩,fun x ⟨ho,y,hy⟩ => ⟨ho,y,hold (by simp) hy⟩⟩

theorem unlinking_delivered {after : After}
    (h : (itemsMove n o false move items).map (fun (n,items) => (n,Thread.unlinking o after items))=some (n',t')) :
    n'.delivered=n.delivered ∧ ∀ x, t'.Notifies x → (Thread.unlinking o after items).Notifies x := by
  obtain ⟨⟨m,items'⟩,hitems,heq⟩:=Option.map_eq_some_iff.mp h
  cases heq
  obtain ⟨l,s,p,r,q,rfl,hmove,rfl⟩:=itemsMove_cases hitems
  obtain ⟨-,hu⟩ | ⟨hfalse,-⟩:=itemMove_cases hmove
  · exact ⟨(unlinkItem_delivered hu).1,fun x hx => hx⟩
  · contradiction

theorem step_delivered (h : step move n t=some (n',t')) :
    (n'.delivered=n.delivered ∨ ∃ s, Delivers n move t n' s) ∧ ∀ o, t'.Notifies o → t.Notifies o := by
  unfold step at h
  split at h
  · rename_i owner after
    cases after with
    | nothing =>
      cases h
      exact ⟨.inl rfl,fun _ => False.elim⟩
    | abandon =>
      cases h
      refine ⟨.inl rfl,fun o ⟨_,s,hs⟩ => ?_⟩
      simp at hs
    | terminate =>
      cases h
      exact ⟨.inl rfl,fun o ⟨ho,_⟩ => ⟨ho,rfl⟩⟩
  · cases h
    exact ⟨.inl rfl,fun _ => False.elim⟩
  · cases h
    exact ⟨.inl rfl,fun _ => False.elim⟩
  · cases h
    exact ⟨.inl dropItem_delivered,fun _ => False.elim⟩
  · obtain ⟨hdelivered,hnotifies⟩:=unlinking_delivered h
    exact ⟨.inl hdelivered,hnotifies⟩
  · exact disposing_delivered h
  · contradiction

theorem next_delivered (hn : program.next p a=some p') :
    p'.shared.delivered=p.shared.delivered ∨ ∃ k j deadline o items s, a=.step k (.poll j deadline) ∧
      p.threads[k]? = some (.disposing o items) ∧ (s,.waiting)∈items ∧ p'.shared.delivered=p.shared.delivered++[s] ∧
      (p.shared.owners (p.shared.subs s).watcher).alive=true ∧ (p.shared.subs s).cancelled=false := by
  obtain ⟨e,n',new,rfl,he,rfl⟩ | ⟨k,l,t,r,n',t',rfl,hl,hs,rfl⟩:=Program.next_cases hn
  · exact .inl (enter_delivered he)
  · obtain hsame | ⟨s,⟨j,deadline,rfl⟩,⟨o,items,rfl,hmem⟩,hd,halive,hlive⟩:=(step_delivered hs).1
    · exact .inl hsame
    · exact .inr ⟨l.length,j,deadline,o,items,s,rfl,by simp [hl],hmem,hd,halive,hlive⟩

/-- The thread at index `i` is the one that the event started. -/
def Began (limits : ℕ → ℕ) (actions : List (Action Event Move)) (i : ℕ) (e : Event) : Prop :=
  ∃ before after q, actions=before++.enter e::after ∧ program.run (begin limits) before=some q ∧ q.threads.length=i

theorem Began.snoc (h : Began limits actions i e) : Began limits (actions++[a]) i e := by
  obtain ⟨before,after,q,rfl,hq,hi⟩:=h
  exact ⟨before,after++[a],q,by simp,hq,hi⟩

theorem notifies_began (hrun : program.run (begin limits) actions=some p) (ht : p.threads[i]? = some t)
    (hn : t.Notifies o) : Began limits actions i (.close o .terminate) := by
  induction actions using List.reverseRecOn generalizing p t with
  | nil =>
    cases hrun
    simp [begin] at ht
  | append_singleton actions a ih =>
    rw [Program.run_append] at hrun
    obtain ⟨q,hq,hlast⟩:=Option.bind_eq_some_iff.mp hrun
    obtain ⟨p₁,hnext,heq⟩:=Option.bind_eq_some_iff.mp hlast
    cases heq
    obtain ⟨e,n',new,rfl,he,rfl⟩ | ⟨k,l,u,r,n',u',rfl,hl,hs,rfl⟩:=Program.next_cases hnext
    · by_cases hlt : i<q.threads.length
      · rw [List.getElem?_append_left hlt] at ht
        exact (ih hq ht hn).snoc
      · rw [List.getElem?_append_right (by omega)] at ht
        have hmem:=List.mem_of_getElem? ht
        rw [Option.mem_toList] at hmem
        obtain rfl:=hmem
        have hi : i=q.threads.length := by
          have:=(List.getElem?_eq_some_iff.mp ht).1
          simp at this
          omega
        obtain ⟨x,after,subs,rfl,hafter⟩ | ⟨x,rfl,rfl⟩:=enter_new he
        · obtain ⟨rfl,rfl⟩:=hn
          rw [← hafter (by decide)]
          exact ⟨actions,[],q,rfl,hq,hi.symm⟩
        · exact hn.elim
    · by_cases hi : i=l.length
      · subst hi
        obtain rfl : u'=t := by simpa using ht
        exact (ih hq (t := u) (by simp [hl]) ((step_delivered hs).2 o hn)).snoc
      · refine (ih hq (t := t) ?_ hn).snoc
        have hset : l++u'::r=q.threads.set l.length u' := by simp [hl]
        rw [hset,List.getElem?_set_ne (by omega)] at ht
        exact ht

def Cancelling (i s : ℕ) (p : Pool Net Thread) : Prop :=
  s<p.shared.created ∧ ((p.shared.subs s).cancelled=true ∨
    ∃ o after items, p.threads[i]? = some (.unlinking o after items) ∧ (s,.fresh)∈items)

theorem step_cancelling {after : After}
    (h : step move n (.unlinking o after items)=some (n',t')) (hs : (s,.fresh)∈items) :
    (n'.subs s).cancelled=true ∨ ∃ o after items, t'=.unlinking o after items ∧ (s,.fresh)∈items := by
  have hmap : (itemsMove n o false move items).map (fun (n,items) => (n,Thread.unlinking o after items))=some (n',t') := by
    unfold step at h
    split at h <;> simp_all
  obtain ⟨⟨m,items'⟩,hitems,heq⟩:=Option.map_eq_some_iff.mp hmap
  cases heq
  obtain ⟨l,x,p,r,q,rfl,hmove,rfl⟩:=itemsMove_cases hitems
  rcases mem_middle hs with heq | hmem
  · cases heq
    obtain ⟨-,hu⟩ | ⟨hfalse,-⟩:=itemMove_cases hmove
    · exact .inl (unlinkItem_unlinks hu (by simp)).cancelled
    · contradiction
  · exact .inr ⟨o,after,_,rfl,hmem⟩

theorem Cancelling.next (h : Cancelling i s p) (hi : Inv p.shared p.threads) (hn : program.next p a=some p') :
    Cancelling i s p' := by
  obtain ⟨hlt,hc⟩:=h
  obtain ⟨hlt',-,-,hcancelled⟩:=hi.next_ends hn hlt
  refine ⟨hlt',?_⟩
  rcases hc with hc | ⟨o,after,items,ht,hs⟩
  · exact .inl (hcancelled hc)
  · obtain ⟨e,n',new,rfl,he,rfl⟩ | ⟨k,l,u,r,n',u',rfl,hl,hst,rfl⟩:=Program.next_cases hn
    · refine .inr ⟨o,after,items,?_,hs⟩
      rw [List.getElem?_append_left (List.getElem?_eq_some_iff.mp ht).1]
      exact ht
    · by_cases hi : i=l.length
      · subst hi
        obtain rfl : u=.unlinking o after items := by simpa [hl] using ht
        obtain hc | ⟨o',after',items',rfl,hs'⟩:=step_cancelling hst hs
        · exact .inl hc
        · exact .inr ⟨o',after',items',by simp,hs'⟩
      · refine .inr ⟨o,after,items,?_,hs⟩
        have hset : l++u'::r=p.threads.set l.length u' := by simp [hl]
        rw [hset,List.getElem?_set_ne (by omega)]
        exact ht

theorem count_delivered (hi : Inv p.shared p.threads) (hs : s<p.shared.created)
    (hcancelled : (p.shared.subs s).cancelled=true) (hc : program.Along Counted p actions)
    (hrun : program.run p actions=some p') : p'.shared.delivered.count s=p.shared.delivered.count s := by
  have h:=Program.run_invariant (P := program) (C := Counted) (I := fun q => Inv q.shared q.threads ∧
    s<q.shared.created ∧ (q.shared.subs s).cancelled=true ∧ q.shared.delivered.count s=p.shared.delivered.count s)
    ?_ ⟨hi,hs,hcancelled,rfl⟩ hc hrun
  · exact h.2.2.2
  · intro q a q' ⟨hi,hs,hcancelled,hcount⟩ hc hn
    obtain ⟨hs',-,-,hkeep⟩:=hi.next_ends hn hs
    refine ⟨hi.next hc hn,hs',hkeep hcancelled,?_⟩
    rcases next_delivered hn with hsame | ⟨k,j,d,o,items,x,-,-,-,hd,-,hlive⟩
    · rw [hsame,hcount]
    · have hne : x≠s := by
        rintro rfl
        simp [hcancelled] at hlive
      rw [hd,List.count_append,List.count_singleton,hcount]
      simp [hne]

/-- The operation was called on the owner and has not returned. -/
def Thread.on (o : ℕ) : Thread → Bool
  | .unlinking owner _ _ | .disposing owner _ | .dropping owner _ => owner==o
  | .ended _ | .returned => false

theorem Inv.incoming {threads : List Thread} (h : Inv n threads) (hquiet : ∀ t∈threads, t.on watcher=false)
    (halive : (n.owners target).alive=true ∧ (n.owners watcher).alive=true)
    (hs : (n.owners target).incoming.get watcher=some s) : (n.owners watcher).outgoing.get target=some s := by
  obtain ⟨-,ht,hw⟩:=h.typed.incoming target watcher s hs
  have hout : n.out s := by
    refine (h.coversIn s (by rw [Net.inc,ht,hw]; exact hs)).resolve_right fun ⟨t,htm,hc⟩ => ?_
    have hsound:=h.sound t htm
    have hon:=hquiet t htm
    cases t with
    | unlinking owner after items =>
      obtain ⟨p,hp,-⟩:=hc
      have howner:=(hsound.2.2 _ hp).watcher
      simp [Thread.on,← howner,hw] at hon
    | dropping owner items =>
      obtain ⟨stage,hstage⟩:=hc
      have hdead:=hsound.1
      rcases (hsound.2 _ hstage).owner with howner | howner
      · simp [← howner,ht,halive.1] at hdead
      · simp [← howner,hw,halive.2] at hdead
    | disposing | ended | returned => exact hc.elim
  rw [Net.out,ht,hw] at hout
  exact hout

theorem Inv.symmetric {threads : List Thread} (h : Inv n threads) (hquiet : ∀ t∈threads, t.busy=false) :
    (n.owners target).incoming.get watcher=some s ↔ (n.owners watcher).outgoing.get target=some s := by
  constructor
  · intro hs
    obtain ⟨-,ht,hw⟩:=h.typed.incoming target watcher s hs
    have hout:=(h.coversIn s (by rw [Net.inc,ht,hw]; exact hs)).resolve_right (by
      rintro ⟨t,htm,hc⟩
      have:=hquiet t htm
      cases t <;> simp_all [Thread.CoversIn,Thread.busy])
    rw [Net.out,ht,hw] at hout
    exact hout
  · intro hs
    obtain ⟨-,hw,ht⟩:=h.typed.outgoing watcher target s hs
    have hin:=(h.coversOut s (by rw [Net.out,ht,hw]; exact hs)).resolve_right (by
      rintro ⟨t,htm,hc⟩
      have:=hquiet t htm
      cases t <;> simp_all [Thread.CoversOut,Thread.busy])
    rw [Net.inc,ht,hw] at hin
    exact hin

theorem Inv.released (h : Inv p.shared p.threads) (hsettled : Settled p) (hended : .ended target∈p.threads)
    (hlast : ∀ items, .disposing target items∉p.threads) :
    (p.shared.owners target).incoming.get watcher=none ∧ (p.shared.owners watcher).outgoing.get target=none := by
  have hnone:=(h.sound _ hended).2
  refine ⟨hnone watcher,Option.eq_none_iff_forall_ne_some.mpr fun s hs => ?_⟩
  obtain ⟨-,hw,ht⟩:=h.typed.outgoing watcher target s hs
  have hin : ¬p.shared.inc s := by
    rw [Net.inc,ht,hnone]
    simp
  obtain ⟨t,htm,hc⟩:=(h.coversOut s (by rw [Net.out,ht,hw]; exact hs)).resolve_left hin
  have hsound:=h.sound t htm
  cases t with
  | disposing owner items =>
    obtain ⟨stage,hstage⟩:=hc
    have howner:=(hsound.2.2.2 _ hstage).target
    rw [ht] at howner
    exact hlast items (howner ▸ htm)
  | dropping owner items =>
    obtain ⟨stage,hstage,-⟩:=hc
    rcases (hsound.2 _ hstage).owner with howner | howner
    · rw [ht] at howner
      exact hsettled target items hended (howner ▸ htm) _ hstage ht
    · have hdead:=(h.typed.dead owner hsound.1 target).2
      rw [← howner,hw,hs] at hdead
      contradiction
  | unlinking | ended | returned => exact hc.elim

structure Graph (limits : ℕ → ℕ) (p : Pool Net Thread) : Prop where
  symmetric : (∀ t∈p.threads, t.busy=false) → ∀ target watcher s,
    (p.shared.owners target).incoming.get watcher=some s ↔ (p.shared.owners watcher).outgoing.get target=some s
  limited : ∀ o, (p.shared.owners o).incoming.size≤limits o ∧ (p.shared.owners o).outgoing.size≤limits o
  refusing : ∀ o, p.shared.refuses o=true → (p.shared.owners o).outgoing=.empty
  once : p.shared.delivered.Nodup
  released : ∀ target, .ended target∈p.threads → (∀ items, .disposing target items∉p.threads) → ∀ watcher,
    (p.shared.owners target).incoming.get watcher=none ∧ (p.shared.owners watcher).outgoing.get target=none

structure Section (limits : ℕ → ℕ) (actions : List (Action Event Move)) (p : Pool Net Thread) (a : Action Event Move)
    (p' : Pool Net Thread) : Prop where
  closed : ∀ o, (p.shared.owners o).closed=true → (p'.shared.owners o).closed=true
  edges : ∀ target watcher s,
    (p'.shared.owners target).incoming.get watcher=some s ∨ (p'.shared.owners watcher).outgoing.get target=some s →
      (p.shared.owners target).incoming.get watcher=some s ∨ (p.shared.owners watcher).outgoing.get target=some s ∨
        a=.enter (.watch target watcher) ∧ p.shared.refuses target=false ∧ p.shared.refuses watcher=false
  watched : ∀ target watcher, a=.enter (.watch target watcher) → (p.shared.watch target watcher).2=.ok () →
    target≠watcher → (∀ t∈p.threads, t.on target=false ∧ t.on watcher=false) →
      ∃ s, (p'.shared.owners target).incoming.get watcher=some s ∧ (p'.shared.owners watcher).outgoing.get target=some s
  delivered : p'.shared.delivered=p.shared.delivered ∨ ∃ s k j deadline, a=.step k (.poll j deadline) ∧
    p'.shared.delivered=p.shared.delivered++[s] ∧ Began limits actions k (.close (p.shared.subs s).target .terminate) ∧
      (p.shared.out s ∨ ∃ t∈p.threads, t.on (p.shared.subs s).watcher=true ∧ t.Cancels s)

section
variable (h : Inv p.shared p.threads)
include h

section
variable (hn : program.next p a=some p')
include hn

theorem Inv.next_owners : Shrinks p.shared p'.shared ∨
    ∃ target watcher, a=.enter (.watch target watcher) ∧ Registered p.shared target watcher p'.shared := by
  obtain ⟨e,n',new,rfl,he,rfl⟩ | ⟨k,l,t,r,n',t',rfl,hl,hs,rfl⟩:=Program.next_cases hn
  · rcases enter_turn h.typed he with hturn | ⟨rfl,target,watcher,rfl,hr⟩
    · exact .inl hturn.shrinks
    · exact .inr ⟨target,watcher,rfl,hr⟩
  · exact .inl (step_turn h.typed (h.sound t (by simp [hl])) hs).shrinks

theorem Inv.next_limit : (p'.shared.owners o).limit=(p.shared.owners o).limit := by
  rcases h.next_owners hn with hshr | ⟨target,watcher,-,hr⟩
  · exact (hshr.owner o).limit
  · exact hr.owner.1

theorem Inv.next_closed (hclosed : (p.shared.owners o).closed=true) : (p'.shared.owners o).closed=true := by
  rcases h.next_owners hn with hshr | ⟨target,watcher,-,hr⟩
  · exact (hshr.owner o).closed hclosed
  · exact hr.owner.2.2.1.trans hclosed

theorem Inv.next_edges
    (hs : (p'.shared.owners target).incoming.get watcher=some s ∨ (p'.shared.owners watcher).outgoing.get target=some s) :
    (p.shared.owners target).incoming.get watcher=some s ∨ (p.shared.owners watcher).outgoing.get target=some s ∨
      a=.enter (.watch target watcher) ∧ p.shared.refuses target=false ∧ p.shared.refuses watcher=false := by
  rcases h.next_owners hn with hshr | ⟨t,w,rfl,hr⟩
  · rcases hs with hs | hs
    · exact .inl ((hshr.owner target).incoming watcher s hs)
    · exact .inr (.inl ((hshr.owner watcher).outgoing target s hs))
  · by_cases hnew : target=t ∧ watcher=w
    · obtain ⟨rfl,rfl⟩:=hnew
      exact .inr (.inr ⟨rfl,hr.accepts⟩)
    · have hne (ht : target=t) (hw : watcher=w) : False := hnew ⟨ht,hw⟩
      rcases hs with hs | hs
      · refine .inl ?_
        rw [hr.owners] at hs
        simp only at hs
        split at hs
        · rename_i ht
          rwa [OrderedMap.get_insert_of_ne fun hw => hne ht hw] at hs
        · exact hs
      · refine .inr (.inl ?_)
        rw [hr.owners] at hs
        simp only at hs
        split at hs
        · rename_i hw
          rwa [OrderedMap.get_insert_of_ne fun ht => hne ht hw] at hs
        · exact hs

end

theorem Inv.watched (hn : program.next p (.enter (.watch target watcher))=some p')
    (hok : (p.shared.watch target watcher).2=.ok ()) (hne : target≠watcher)
    (hquiet : ∀ t∈p.threads, t.on watcher=false) :
    ∃ s, (p'.shared.owners target).incoming.get watcher=some s ∧ (p'.shared.owners watcher).outgoing.get target=some s := by
  obtain ⟨e,n',new,heq,he,rfl⟩ | ⟨k,l,t,r,n',t',heq,-⟩:=Program.next_cases hn
  · obtain rfl:=Action.enter.inj heq
    simp only [program,enter,Option.ite_none_right_eq_some,Option.some.injEq,Prod.mk.injEq,Bool.and_eq_true] at he
    obtain ⟨halive,rfl,-⟩:=he
    obtain ⟨hr,-⟩ | ⟨hsame,hold⟩:=watch_cases halive.1 halive.2
    · have hboth:=hr.both
      simp only [Net.inc,Net.out,hr.subs,if_pos] at hboth
      exact ⟨_,hboth⟩
    · obtain ⟨s,hs⟩:=(hold hok).resolve_left hne
      exact ⟨s,hsame.symm ▸ hs,hsame.symm ▸ h.incoming hquiet halive hs⟩
  · contradiction

theorem Inv.section (hrun : program.run (begin limits) actions=some p)
    (hn : program.next p a=some p') : Section limits actions p a p' := by
  refine ⟨fun o => h.next_closed hn,fun _ _ _ => h.next_edges hn,?_,?_⟩
  · rintro target watcher rfl hok hne hquiet
    exact h.watched hn hok hne fun t ht => (hquiet t ht).2
  · rcases next_delivered hn with hsame | ⟨k,j,deadline,o,items,s,rfl,hthread,hmem,hd,halive,hlive⟩
    · exact .inl hsame
    · have hsound:=h.sound _ (List.mem_of_getElem? hthread)
      have hs:=hsound.2.2.2 _ hmem
      refine .inr ⟨s,k,j,deadline,rfl,hd,?_,?_⟩
      · rw [hs.target]
        exact notifies_began hrun hthread ⟨rfl,s,hmem⟩
      · refine (h.cancels s hs.created ?_ halive hlive).imp_right fun ⟨t,htm,hc⟩ => ⟨t,htm,?_,hc⟩
        · rw [hs.target]
          exact hsound.1
        · have hsound:=h.sound t htm
          cases t with
          | unlinking owner after items => simp [Thread.on,(hsound.2.2 _ hc).watcher]
          | _ => exact hc.elim

theorem Inv.graph (hsettled : Settled p) (hlimit : ∀ o, (p.shared.owners o).limit=limits o) : Graph limits p := by
  refine ⟨fun hquiet _ _ _ => h.symmetric hquiet,fun o => ?_,fun o ho => ?_,?_,fun _ hended hlast _ => ?_⟩
  · rw [← hlimit o]
    exact h.typed.limited o
  · exact OrderedMap.ext fun k => (h.typed.refusing o ho k).trans OrderedMap.get_empty.symm
  · refine List.nodup_iff_count_le_one.mpr fun s => ?_
    have:=h.once s
    omega
  · exact h.released hsettled hended hlast

end

theorem run_graph (hc : program.Along Counted (begin limits) actions)
    (hrun : program.run (begin limits) actions=some p) : Inv p.shared p.threads ∧ Graph limits p := by
  have h:=Program.run_invariant (P := program) (C := Counted)
    (I := fun q => Inv q.shared q.threads ∧ ∀ o, (q.shared.owners o).limit=limits o) ?_ ⟨.start limits,fun _ => rfl⟩ hc hrun
  · exact ⟨h.1,h.1.graph (run_inv hc hrun).2 h.2⟩
  · intro q a q' ⟨hi,hl⟩ hc hn
    exact ⟨hi.next hc hn,fun o => (hi.next_limit hn).trans (hl o)⟩

/-- The event takes the edge to the target out of the watcher's table. -/
def Event.gives (target watcher : ℕ) : Event → Prop
  | .unwatch t w => t=target ∧ w=watcher
  | .close o _ | .suspend o => o=watcher
  | _ => False

theorem enter_cancelling (hi : Inv p.shared p.threads) (hgives : e.gives target watcher)
    (hs : (p.shared.owners watcher).outgoing.get target=some s) (hn : program.next p (.enter e)=some q) :
    Cancelling p.threads.length s q := by
  obtain ⟨hlt,-,-⟩:=hi.typed.outgoing watcher target s hs
  refine ⟨(hi.next_ends hn hlt).1,.inr ?_⟩
  simp only [Program.next,program,Option.map_eq_some_iff,Prod.exists] at hn
  obtain ⟨n',new,he,rfl⟩:=hn
  have hlast {t : Thread} : (p.threads++[t])[p.threads.length]? = some t := by simp
  cases e with
  | unwatch t w =>
    obtain ⟨rfl,rfl⟩:=hgives
    simp only [enter,Option.ite_none_right_eq_some,Option.some.injEq,Prod.mk.injEq] at he
    obtain ⟨-,-,rfl⟩:=he
    exact ⟨_,_,_,hlast,by simp [hs]⟩
  | close | suspend =>
    obtain rfl:=hgives
    simp only [enter,Option.ite_none_right_eq_some,Option.some.injEq,Prod.mk.injEq] at he
    obtain ⟨-,-,rfl⟩:=he
    exact ⟨_,_,_,hlast,List.mem_map_of_mem (mem_values.mpr ⟨_,hs⟩)⟩
  | setRecipient | watch | resume | destroy => exact hgives.elim

/-- The graph of subscriptions is sound in every state and every section of a run, and once the
operation that took an edge from its watcher is done no delivery starts along that edge. -/
theorem subscriptions_sound {limits : ℕ → ℕ} {before : List (Action Event Move)} {p : Pool Net Thread}
    (hc : program.Along Counted (begin limits) before) (hrun : program.run (begin limits) before=some p) :
    Graph limits p ∧ (∀ a p', program.next p a=some p' → Section limits before p a p') ∧ ∀ e target watcher s q after
    p' more p'', e.gives target watcher → (p.shared.owners watcher).outgoing.get target=some s → Counted p
    (.enter e) → program.next p (.enter e)=some q → program.Along Counted q after → program.run q after=some p' →
    (∀ o x items, p'.threads[p.threads.length]? ≠ some (.unlinking o x items)) → program.Along Counted p' more →
    program.run p' more=some p'' → p''.shared.delivered.count s=p'.shared.delivered.count s := by
  obtain ⟨hi,hg⟩:=run_graph hc hrun
  refine ⟨hg,fun a p' hn => hi.section hrun hn,?_⟩
  intro e target watcher s q after p' more p'' hgives hs hcounted hn hafter hrun' hdone hmore hrun''
  have hq:=hi.next hcounted hn
  obtain ⟨hi',hlt,hcancel⟩:=Program.run_invariant (P := program) (C := Counted)
    (I := fun q => Inv q.shared q.threads ∧ Cancelling p.threads.length s q)
    (fun q a q' ⟨hi,hcancel⟩ hc hn => ⟨hi.next hc hn,hcancel.next hi hn⟩)
    ⟨hq,enter_cancelling hi hgives hs hn⟩ hafter hrun'
  rcases hcancel with hcancel | ⟨o,x,items,hthread,-⟩
  · exact count_delivered hi' hlt hcancel hmore hrun''
  · exact absurd hthread (hdone o x items)

/-- Owner 1 watches owner 0, whose end is announced. -/
def announced : List (Action Event Move) := [.enter (.setRecipient 1),.enter (.watch 0 1),.enter (.close 0 .terminate),.step 0 .next]

def announcedThrough : List (Action Event Move) :=
  announced++[.step 0 (.poll 0 true),.step 0 (.finish 0 false),.step 0 (.unlink 0),.step 0 (.unlink 0),.step 0 (.unlink 0),
    .step 0 .next]

theorem subscriptions_sound_announced : ∃ p, program.run (begin fun _ => 2) announcedThrough=some p ∧
    p.shared.delivered=[0] ∧ .ended 0∈p.threads ∧ Graph (fun _ => 2) p := by
  have hc : program.Along Counted (begin fun _ => 2) announcedThrough := by decide
  refine ⟨_,rfl,rfl,by simp [begin],?_⟩
  exact (subscriptions_sound hc rfl).1

/-- An owner that watches itself is told that it does although no edge is made. An operation
that finds an edge taken returns before the one that took it has cancelled or released it: a
second `unwatch` returns before a delivery starts, and a second announcement while the watcher
still holds the edge. -/
theorem racing_calls_return_early :
    ((begin fun _ => 2).shared.watch 0 0).2=.ok () ∧
      (((begin fun _ => 2).shared.watch 0 0).1.owners 0).incoming.get 0=none ∧
      (∃ p p', program.run (begin fun _ => 2) (announced++[.enter (.unwatch 0 1),.enter (.unwatch 0 1),.step 2 .next])=some p ∧
        p.threads[2]? = some .returned ∧ p.shared.delivered=[] ∧
        program.next p (.step 0 (.poll 0 true))=some p' ∧ p'.shared.delivered=[0]) ∧
      ∃ p, program.run (begin fun _ => 2) (announced++[.enter (.close 0 .abandon),.step 1 .next,.step 1 .next])=some p ∧
        p.threads[1]? = some (.ended 0) ∧ (p.shared.owners 1).outgoing.get 0=some 0 := by
  refine ⟨rfl,rfl,⟨_,_,rfl,rfl,rfl,rfl,rfl⟩,_,rfl,rfl,rfl⟩

end Parrot.DeathWatch
