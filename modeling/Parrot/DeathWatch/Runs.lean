import Parrot.DeathWatch.Operations

/-! # The graph of subscriptions over whole runs

Whatever the order of the sections, an edge stands in both tables, in neither, or in the hands
of an operation. -/

namespace Parrot.DeathWatch
open Option (ite_none_right_eq_some mem_toList map_eq_some_iff)
open Threads

variable {n n' : Net} {o s x target watcher : ℕ} {t t' : Thread} {p p' : Pool Net Thread} {e : Event} {move : Move}
  {a : Action Event Move} {actions : List (Action Event Move)}

structure Registered (n : Net) (target watcher : ℕ) (n' : Net) : Prop where
  alive : (n.owners target).alive=true ∧ (n.owners watcher).alive=true
  distinct : target≠watcher
  accepts : n.refuses target=false ∧ n.refuses watcher=false
  absent : (n.owners target).incoming.get watcher=none
  room : (n.owners target).incoming.size<(n.owners target).limit ∧
    (n.owners watcher).outgoing.size<(n.owners watcher).limit
  created : n'.created=n.created+1
  subs : ∀ s, n'.subs s=if s=n.created then ⟨target,watcher,false⟩ else n.subs s
  owners : ∀ o, n'.owners o={n.owners o with
    incoming := if o=target then (n.owners o).incoming.insert watcher n.created else (n.owners o).incoming
    outgoing := if o=watcher then (n.owners o).outgoing.insert target n.created else (n.owners o).outgoing}
  delivered : n'.delivered=n.delivered

theorem watch_cases (ht : (n.owners target).alive=true) (hw : (n.owners watcher).alive=true) : Registered n target
    watcher (n.watch target watcher).1 ∧ (n.watch target watcher).2=.ok () ∨ (n.watch target watcher).1=n ∧
    ((n.watch target watcher).2=.ok () → target=watcher ∨ ∃ s, (n.owners target).incoming.get watcher=some s) := by
  by_cases heq : target=watcher
  · exact .inr (by simp [Net.watch,heq])
  by_cases hendpoint : (n.owners watcher).endpoint=true
  · by_cases hrefuses : (n.refuses target||n.refuses watcher)=true
    · exact .inr (by simp [Net.watch,heq,hendpoint,hrefuses])
    · by_cases hcontains : (n.owners target).incoming.contains watcher=true
      · refine .inr ⟨by simp [Net.watch,heq,hendpoint,hrefuses,hcontains],fun _ => .inr ?_⟩
        exact Option.isSome_iff_exists.mp hcontains
      · by_cases hfull : (n.owners target).incoming.size≥(n.owners target).limit ∨
            (n.owners watcher).outgoing.size≥(n.owners watcher).limit
        · refine .inr ⟨?_,?_⟩
          · simp only [Net.watch,if_neg heq,hendpoint,hrefuses,hcontains,if_pos hfull]
            simp
          · simp only [Net.watch,if_neg heq,hendpoint,hrefuses,hcontains,if_pos hfull]
            simp
        · refine .inl ⟨⟨⟨ht,hw⟩,heq,?_,?_,?_,?_,?_,?_,?_⟩,?_⟩
          · simpa using hrefuses
          · simpa [OrderedMap.contains] using hcontains
          · simpa using hfull
          all_goals simp only [Net.watch,if_neg heq,hendpoint,hrefuses,hcontains,if_neg hfull]
          · simp
          · intro s
            simp [Function.update_apply]
          · intro x
            simp only [Bool.not_true,Bool.false_eq_true,if_false,Net.modify_owners]
            by_cases hx : x=watcher
            · subst hx
              simp [Ne.symm heq]
            · by_cases hx' : x=target
              · subst hx'
                simp [heq]
              · simp [hx,hx']
          · simp
          · simp
  · exact .inr (by simp [Net.watch,heq,hendpoint])

theorem enter_turn (hn : Typed n) {new : Option Thread} (h : enter e n=some (n',new)) :
    Turn n none n' new ∨ new=none ∧ ∃ target watcher, e=.watch target watcher ∧ Registered n target watcher n' := by
  cases e <;> simp only [enter,ite_none_right_eq_some,Option.some.injEq,Prod.mk.injEq,Bool.and_eq_true] at h
  case setRecipient o =>
    obtain ⟨-,rfl,rfl⟩:=h
    exact .inl (Turn.still (.modify (.setRecipient _) rfl rfl) rfl)
  case watch target watcher =>
    obtain ⟨⟨ht,hw⟩,rfl,rfl⟩:=h
    rcases watch_cases ht hw with ⟨hr,-⟩ | ⟨hsame,-⟩
    · exact .inr ⟨rfl,target,watcher,rfl,hr⟩
    · rw [hsame]
      exact .inl (Turn.still (.refl n) rfl)
  case unwatch target watcher =>
    obtain ⟨⟨ht,hw⟩,rfl,rfl⟩:=h
    refine .inl (Turn.release hn (.removeOutgoing _ _) rfl hw (by simp) (fun s hs => ?_) fun k s hk hs => ?_)
    · have hs : (n.owners watcher).outgoing.get target=some s := by simpa using hs
      refine ⟨⟨target,hs⟩,fun k hk => ?_⟩
      obtain ⟨-,-,htarget⟩:=hn.outgoing watcher target s hs
      have hk' : (n.owners watcher).outgoing.get k=some s := (Owner.Shrinks.removeOutgoing _ target).outgoing k s hk
      obtain rfl : target=k := htarget.symm.trans (hn.outgoing watcher k s hk').2.2
      simp at hk
    · have hne : k≠target := by
        rintro rfl
        exact hs (by simp [hk])
      exact (OrderedMap.get_remove_of_ne hne).trans hk
  case close o after =>
    obtain ⟨halive,rfl,rfl⟩:=h
    refine .inl (Turn.release hn (.close _) rfl halive (fun _ => rfl) (fun s hs => ?_) fun k s hk hs => ?_)
    · exact ⟨mem_values.mp hs,by simp⟩
    · exact absurd (mem_values.mpr ⟨k,hk⟩) hs
  case suspend o =>
    obtain ⟨halive,rfl,rfl⟩:=h
    refine .inl (Turn.release hn (.suspend _) rfl halive (by simp) (fun s hs => ?_) fun k s hk hs => ?_)
    · exact ⟨mem_values.mp hs,by simp⟩
    · exact absurd (mem_values.mpr ⟨k,hk⟩) hs
  case resume o =>
    obtain ⟨-,rfl,rfl⟩:=h
    split
    · exact .inl (Turn.still (.refl n) rfl)
    · exact .inl (Turn.still (.modify (.resume _) rfl rfl) rfl)
  case destroy o =>
    obtain ⟨-,rfl,rfl⟩:=h
    exact .inl (Turn.destroy hn)

theorem Turn.items_unlinking {after : After} {items : List (ℕ × Progress)} (hn : Typed n)
    (h : (Thread.unlinking o after items).Sound n)
    (hm : (itemsMove n o false move items).map (fun (n,items) => (n,Thread.unlinking o after items))=some (n',t')) :
    Turn n (some (.unlinking o after items)) n' (some t') := by
  obtain ⟨⟨m,items'⟩,hitems,heq⟩:=Option.map_eq_some_iff.mp hm
  cases heq
  obtain ⟨l,s,p,r,q,rfl,hmove,rfl⟩:=itemsMove_cases hitems
  obtain ⟨-,hu⟩ | ⟨hfalse,-⟩:=itemMove_cases hmove
  · exact Turn.unlinking hn h hu
  · contradiction

theorem Turn.items_disposing {items : List (ℕ × Progress)} (hn : Typed n) (h : (Thread.disposing o items).Sound n)
    (hm : (itemsMove n o true move items).map (fun (n,items) => (n,Thread.disposing o items))=some (n',t')) :
    Turn n (some (.disposing o items)) n' (some t') := by
  obtain ⟨⟨m,items'⟩,hitems,heq⟩:=Option.map_eq_some_iff.mp hm
  cases heq
  obtain ⟨l,s,p,r,q,rfl,hmove,rfl⟩:=itemsMove_cases hitems
  obtain ⟨-,hu⟩ | ⟨-,p',rfl,htold,-⟩:=itemMove_cases hmove
  · exact Turn.disposing hn h hu
  · exact Turn.told h htold

theorem step_turn (hn : Typed n) (h : t.Sound n) (hs : step move n t=some (n',t')) : Turn n (some t) n' (some t') := by
  cases t with
  | unlinking owner after items =>
    by_cases hend : move=.next ∧ items=[]
    · obtain ⟨rfl,rfl⟩:=hend
      simp only [step,Option.some.injEq] at hs
      have hold (s : ℕ) : ¬(Thread.unlinking owner after []).CoversIn s ∧ ¬(Thread.unlinking owner after []).CoversOut s ∧
          ¬(Thread.unlinking owner after []).Cancels s := by
        simp [Thread.CoversIn,Thread.CoversOut,Thread.Cancels]
      obtain ⟨halive,hafter,-⟩:=h
      cases after with
      | nothing =>
        cases hs
        exact Turn.leave trivial hold fun _ => rfl
      | terminate =>
        cases hs
        exact Turn.dispose hn (.takeIncoming _) rfl rfl halive halive (hafter (by decide)) (.inr rfl) hold
      | abandon =>
        cases hs
        rw [Net.fail,Net.modify_modify]
        exact Turn.dispose hn ((Owner.Shrinks.takeIncoming _).trans (.fail _ _)) rfl rfl halive halive (hafter (by decide))
          (.inl rfl) hold
    · have hs' : (itemsMove n owner false move items).map (fun (n,items) => (n,Thread.unlinking owner after items)) =
          some (n',t') := by
        unfold step at hs
        split at hs <;> simp_all
      exact Turn.items_unlinking hn h hs'
  | disposing owner items =>
    by_cases hend : move=.next ∧ items=[]
    · obtain ⟨rfl,rfl⟩:=hend
      simp only [step,Option.some.injEq,Prod.mk.injEq] at hs
      obtain ⟨rfl,rfl⟩:=hs
      refine Turn.leave ⟨h.2.1,h.2.2.1⟩ (fun s => ?_) fun _ => rfl
      simp [Thread.CoversIn,Thread.CoversOut,Thread.Cancels]
    · have hs' : (itemsMove n owner true move items).map (fun (n,items) => (n,Thread.disposing owner items)) =
          some (n',t') := by
        unfold step at hs
        split at hs <;> simp_all
      exact Turn.items_disposing hn h hs'
  | dropping owner items =>
    cases move with
    | next =>
      cases items with
      | nil =>
        simp only [step,Option.some.injEq,Prod.mk.injEq] at hs
        obtain ⟨rfl,rfl⟩:=hs
        refine Turn.leave trivial (fun s => ?_) fun _ => rfl
        simp [Thread.CoversIn,Thread.CoversOut,Thread.Cancels]
      | cons i items =>
        simp only [step,Option.some.injEq,Prod.mk.injEq] at hs
        obtain ⟨rfl,rfl⟩:=hs
        exact Turn.dropping hn h
    | poll | finish | drop | unlink => simp [step] at hs
  | ended | returned => simp [step] at hs

/-- An entry without its counterpart, an edge that is given up but not cancelled, and a
notification that may still be delivered are each in the hands of some operation. -/
structure Inv (n : Net) (threads : List Thread) : Prop where
  typed : Typed n
  sound : ∀ t∈threads, t.Sound n
  coversIn : ∀ s, n.inc s → n.out s ∨ ∃ t∈threads, t.CoversIn s
  coversOut : ∀ s, n.out s → n.inc s ∨ ∃ t∈threads, t.CoversOut s
  cancels : ∀ s<n.created, (n.owners (n.subs s).target).alive=true → (n.owners (n.subs s).watcher).alive=true →
    (n.subs s).cancelled=false → n.out s ∨ ∃ t∈threads, t.Cancels s
  once : ∀ s, stored n s+Program.held (Thread.waits s) threads+n.delivered.count s≤1
  delivered : ∀ s∈n.delivered, s<n.created

theorem Inv.start (limits : ℕ → ℕ) : Inv (Net.start limits) [] := by
  refine ⟨.start limits,by simp,?_,?_,?_,?_,?_⟩
  · simp [Net.inc,Net.start]
  · simp [Net.out,Net.start]
  · simp [Net.start]
  · simp [stored,Net.inc,Net.start]
  · simp [Net.start]

theorem held_toList (s : ℕ) (t : Option Thread) : Program.held (Thread.waits s) t.toList=t.elim 0 (Thread.waits s) := by
  cases t <;> simp

theorem Turn.inv {l r : List Thread} {old new : Option Thread} (ht : Turn n old n' new) (h : Inv n (l++old.toList++r))
    (halive : ∀ t∈l++r, ∀ o, t.holds n o=true → (n'.owners o).alive=(n.owners o).alive) :
    Inv n' (l++new.toList++r) := by
  have hshr:=ht.shrinks
  -- The operation that covers an edge is the one at work or one that stands by.
  have hsplit {P : Thread → Prop} (hex : ∃ t∈l++old.toList++r, P t) : (∃ t∈old, P t) ∨ ∃ t∈l++r, P t := by
    obtain ⟨t,hmem,hp⟩:=hex
    simp only [List.mem_append,mem_toList] at hmem
    rcases hmem with (hmem | hmem) | hmem
    · exact .inr ⟨t,by simp [hmem],hp⟩
    · exact .inl ⟨t,hmem,hp⟩
    · exact .inr ⟨t,by simp [hmem],hp⟩
  have hjoin {P : Thread → Prop} (hex : (∃ t∈new, P t) ∨ ∃ t∈l++r, P t) : ∃ t∈l++new.toList++r, P t := by
    rcases hex with ⟨t,hmem,hp⟩ | ⟨t,hmem,hp⟩
    · exact ⟨t,by simp [Option.mem_def.mp hmem],hp⟩
    · rcases List.mem_append.mp hmem with hmem | hmem
      · exact ⟨t,by simp [hmem],hp⟩
      · exact ⟨t,by simp [hmem],hp⟩
  refine ⟨hshr.typed h.typed,?_,?_,?_,?_,?_,?_⟩
  · intro t hmem
    simp only [List.mem_append,mem_toList] at hmem
    rcases hmem with (hmem | hmem) | hmem
    · exact (h.sound t (by simp [hmem])).shrinks hshr (halive t (by simp [hmem]))
    · exact ht.sound t hmem
    · exact (h.sound t (by simp [hmem])).shrinks hshr (halive t (by simp [hmem]))
  · intro s hs
    rcases h.coversIn s (hshr.inc hs) with hout | hcover
    · exact (ht.coversIn s hs (.inl hout)).imp_right fun hc => hjoin (.inl hc)
    · rcases hsplit hcover with hold | hrest
      · exact (ht.coversIn s hs (.inr hold)).imp_right fun hc => hjoin (.inl hc)
      · exact .inr (hjoin (.inr hrest))
  · intro s hs
    rcases h.coversOut s (hshr.out hs) with hin | hcover
    · exact (ht.coversOut s hs (.inl hin)).imp_right fun hc => hjoin (.inl hc)
    · rcases hsplit hcover with hold | hrest
      · exact (ht.coversOut s hs (.inr hold)).imp_right fun hc => hjoin (.inl hc)
      · exact .inr (hjoin (.inr hrest))
  · intro s hs htarget hwatcher hlive
    rw [(hshr.ends s).1] at htarget
    rw [(hshr.ends s).2] at hwatcher
    have hlive' : (n.subs s).cancelled=false := by
      by_contra hne
      have:=hshr.cancelled s (by simpa using hne)
      simp [hlive] at this
    have hbefore:=h.cancels s (hshr.created ▸ hs) ((hshr.owner _).alive htarget) ((hshr.owner _).alive hwatcher) hlive'
    rcases hbefore with hout | hcover
    · exact (ht.cancels s htarget hwatcher hlive (.inl hout)).imp_right fun hc => hjoin (.inl hc)
    · rcases hsplit hcover with hold | hrest
      · exact (ht.cancels s htarget hwatcher hlive (.inr hold)).imp_right fun hc => hjoin (.inl hc)
      · exact .inr (hjoin (.inr hrest))
  · intro s
    have hbefore:=h.once s
    have hturn:=ht.once s
    simp only [Program.held_append,held_toList] at hbefore ⊢
    omega
  · intro s hs
    rw [hshr.created]
    rcases ht.delivered s hs with hs | hs
    · exact h.delivered s hs
    · exact hs

namespace Registered

variable (h : Registered n target watcher n')

include h in
theorem ends (hs : s≠n.created) : n'.subs s=n.subs s := by rw [h.subs,if_neg hs]

include h in
theorem owner : (n'.owners o).limit=(n.owners o).limit ∧ (n'.owners o).alive=(n.owners o).alive ∧
    (n'.owners o).closed=(n.owners o).closed ∧ n'.refuses o=n.refuses o := by
  simp [h.owners,Net.refuses]

include h in
theorem outgoing_absent {threads : List Thread} (hi : Inv n threads) : (n.owners watcher).outgoing.get target=none := by
  refine Option.eq_none_iff_forall_ne_some.mpr fun s hs => ?_
  obtain ⟨-,hw,ht⟩:=hi.typed.outgoing watcher target s hs
  have hout : n.out s := by
    rw [Net.out,hw,ht]
    exact hs
  have hinc : ¬n.inc s := by
    rw [Net.inc,hw,ht,h.absent]
    simp
  obtain ⟨t,htm,hc⟩:=(hi.coversOut s hout).resolve_left hinc
  have hsound:=hi.sound t htm
  cases t with
  | disposing owner items =>
    obtain ⟨p,hp⟩:=hc
    have howner:=(hsound.2.2.2 _ hp).target
    have hclosed:=hsound.2.1
    have haccepts:=h.accepts.1
    simp only [Net.refuses,← ht,howner,hclosed] at haccepts
    simp at haccepts
  | dropping owner items =>
    obtain ⟨stage,hstage,-⟩:=hc
    have hdead:=hsound.1
    rcases (hsound.2 _ hstage).owner with howner | howner
    · simp [← howner,ht,h.alive.1] at hdead
    · simp [← howner,hw,h.alive.2] at hdead
  | unlinking | ended | returned => exact hc.elim

include h in
theorem inc (hs : s<n.created) : n'.inc s ↔ n.inc s := by
  unfold Net.inc
  rw [h.ends (by omega),h.owners]
  simp only
  split
  · rename_i ht
    rw [OrderedMap.get_insert]
    split
    · rename_i hw
      rw [ht,hw,h.absent]
      simp only [Option.some.injEq,reduceCtorEq,iff_false]
      omega
    · rfl
  · rfl

include h in
theorem out {threads : List Thread} (hi : Inv n threads) (hs : s<n.created) : n'.out s ↔ n.out s := by
  unfold Net.out
  rw [h.ends (by omega),h.owners]
  simp only
  split
  · rename_i hw
    rw [OrderedMap.get_insert]
    split
    · rename_i ht
      rw [hw,ht,h.outgoing_absent hi]
      simp only [Option.some.injEq,reduceCtorEq,iff_false]
      omega
    · rfl
  · rfl

include h in
theorem both : n'.inc n.created ∧ n'.out n.created := by
  simp [Net.inc,Net.out,h.subs,h.owners]

include h in
theorem typed (hn : Typed n) : Typed n' := by
  refine ⟨?_,?_,?_,?_,?_,?_⟩
  · intro o w s hs
    rw [h.owners] at hs
    have hold : (n.owners o).incoming.get w=some s → s<n'.created ∧ (n'.subs s).target=o ∧ (n'.subs s).watcher=w := by
      intro hold
      obtain ⟨hlt,ht,hw⟩:=hn.incoming o w s hold
      rw [h.ends (by omega),h.created]
      exact ⟨by omega,ht,hw⟩
    simp only at hs
    split at hs
    · rename_i ho
      rw [OrderedMap.get_insert] at hs
      split at hs
      · rename_i hw
        cases hs
        rw [h.subs,if_pos rfl,h.created]
        exact ⟨by omega,ho.symm,hw.symm⟩
      · exact hold hs
    · exact hold hs
  · intro o t s hs
    rw [h.owners] at hs
    have hold : (n.owners o).outgoing.get t=some s → s<n'.created ∧ (n'.subs s).watcher=o ∧ (n'.subs s).target=t := by
      intro hold
      obtain ⟨hlt,hw,ht⟩:=hn.outgoing o t s hold
      rw [h.ends (by omega),h.created]
      exact ⟨by omega,hw,ht⟩
    simp only at hs
    split at hs
    · rename_i ho
      rw [OrderedMap.get_insert] at hs
      split at hs
      · rename_i ht
        cases hs
        rw [h.subs,if_pos rfl,h.created]
        exact ⟨by omega,ho.symm,ht.symm⟩
      · exact hold hs
    · exact hold hs
  · intro s hs
    rw [h.subs]
    split
    · exact h.distinct
    · exact hn.loopless s (by rw [h.created] at hs; omega)
  · intro o ho k
    have hdead : (n.owners o).alive=false := h.owner.2.1 ▸ ho
    have ht : o≠target := by
      rintro rfl
      simp [h.alive.1] at hdead
    have hw : o≠watcher := by
      rintro rfl
      simp [h.alive.2] at hdead
    simpa [h.owners,ht,hw] using hn.dead o hdead k
  · intro o ho k
    have hrefuses : n.refuses o=true := h.owner.2.2.2 ▸ ho
    have hw : o≠watcher := by
      rintro rfl
      simp [h.accepts.2] at hrefuses
    simpa [h.owners,hw] using hn.refusing o hrefuses k
  · intro o
    have hl:=hn.limited o
    rw [h.owners]
    constructor
    · simp only
      split
      · rename_i ho
        have:=(OrderedMap.size_insert_le (m := (n.owners o).incoming) (k := watcher) (a := n.created))
        have hroom:=h.room.1
        subst ho
        omega
      · exact hl.1
    · simp only
      split
      · rename_i ho
        have:=(OrderedMap.size_insert_le (m := (n.owners o).outgoing) (k := target) (a := n.created))
        have hroom:=h.room.2
        subst ho
        omega
      · exact hl.2

include h in
theorem none_incoming (hclosed : (n.owners o).closed=true) (hnone : ∀ k, (n.owners o).incoming.get k=none) (k : ℕ) :
    (n'.owners o).incoming.get k=none := by
  have ht : o≠target := by
    rintro rfl
    have:=h.accepts.1
    simp [Net.refuses,hclosed] at this
  simp [h.owners,ht,hnone]

include h in
theorem sound {threads : List Thread} (hi : Inv n threads) (ht : t.Sound n) : t.Sound n' := by
  have hlt : n.created≤n'.created := by
    rw [h.created]
    omega
  cases t with
  | unlinking owner after items =>
    obtain ⟨halive,hafter,hitems⟩:=ht
    refine ⟨h.owner.2.1.trans halive,fun hne => h.owner.2.2.1.trans (hafter hne),fun i hmem => ?_⟩
    have hs:=hitems i hmem
    have hends:=h.ends (s := i.1) (by have := hs.created; omega)
    refine ⟨hs.created.trans_le hlt,hends ▸ hs.watcher,fun hout => hs.absent ((h.out hi hs.created).mp hout),?_,?_⟩
    · exact fun hp => hends ▸ hs.cancelled hp
    · exact fun hp hin => hs.cut hp ((h.inc hs.created).mp hin)
  | disposing owner items =>
    obtain ⟨halive,hclosed,hnone,hitems⟩:=ht
    refine ⟨h.owner.2.1.trans halive,h.owner.2.2.1.trans hclosed,h.none_incoming hclosed hnone,fun i hmem => ?_⟩
    have hs:=hitems i hmem
    have hends:=h.ends (s := i.1) (by have := hs.created; omega)
    exact ⟨hs.created.trans_le hlt,hends ▸ hs.target,fun hp => hends ▸ hs.cancelled hp⟩
  | dropping owner items =>
    obtain ⟨hdead,hitems⟩:=ht
    refine ⟨h.owner.2.1.trans hdead,fun i hmem => ?_⟩
    have hs:=hitems i hmem
    have hends:=h.ends (s := i.1) (by have := hs.created; omega)
    exact ⟨hs.created.trans_le hlt,hends ▸ hs.owner⟩
  | ended owner => exact ⟨h.owner.2.2.1.trans ht.1,h.none_incoming ht.1 ht.2⟩
  | returned => trivial

include h in
theorem inv {threads : List Thread} (hi : Inv n threads) : Inv n' threads := by
  have htyped:=h.typed hi.typed
  have hnew (s : ℕ) (hs : s<n'.created) : s<n.created ∨ s=n.created := by
    rw [h.created] at hs
    omega
  have hinc (s : ℕ) (hs : n'.inc s) : s<n.created ∨ s=n.created := hnew s (htyped.incoming _ _ s hs).1
  have hout (s : ℕ) (hs : n'.out s) : s<n.created ∨ s=n.created := hnew s (htyped.outgoing _ _ s hs).1
  refine ⟨htyped,fun t ht => h.sound hi (hi.sound t ht),?_,?_,?_,?_,?_⟩
  · intro s hs
    rcases hinc s hs with hlt | rfl
    · exact (hi.coversIn s ((h.inc hlt).mp hs)).imp_left (h.out hi hlt).mpr
    · exact .inl h.both.2
  · intro s hs
    rcases hout s hs with hlt | rfl
    · exact (hi.coversOut s ((h.out hi hlt).mp hs)).imp_left (h.inc hlt).mpr
    · exact .inl h.both.1
  · intro s hs ht hw hlive
    rcases hnew s hs with hlt | rfl
    · rw [h.ends (by omega)] at ht hw hlive
      rw [h.owner.2.1] at ht hw
      exact (hi.cancels s hlt ht hw hlive).imp_left (h.out hi hlt).mpr
    · exact .inl h.both.2
  · intro s
    have honce:=hi.once s
    rw [h.delivered]
    by_cases hs : s=n.created
    · -- No notification of the new edge exists yet.
      subst hs
      have hcount : n.delivered.count n.created=0 :=
        List.count_eq_zero.mpr fun hmem => absurd (hi.delivered _ hmem) (by omega)
      have hheld : Program.held (Thread.waits n.created) threads=0 := by
        refine Program.held_eq_zero fun t ht => ?_
        have hsound:=hi.sound t ht
        cases t with
        | disposing owner items =>
          exact List.count_eq_zero.mpr fun hmem => absurd (hsound.2.2.2 _ hmem).created (by simp)
        | _ => rfl
      have : stored n' n.created≤1 := by
        unfold stored
        split <;> omega
      omega
    · have hsame : stored n' s ≤ stored n s := by
        unfold stored
        split
        · rename_i hin
          rw [if_pos ((h.inc ((hinc s hin).resolve_right hs)).mp hin)]
        · omega
      omega
  · intro s hs
    rw [h.delivered] at hs
    have:=hi.delivered s hs
    rw [h.created]
    omega

end Registered

theorem enter_alive {new : Option Thread} (h : enter e n=some (n',new)) (hne : e ≠ .destroy o) :
    (n'.owners o).alive=(n.owners o).alive := by
  have hmodify {x : ℕ} {f : Owner → Owner} (hf : ∀ y, (f y).alive=y.alive) :
      ((n.modify x f).owners o).alive=(n.owners o).alive := by
    rw [Net.modify_owners]
    split
    · rename_i heq
      rw [hf,heq]
    · rfl
  cases e <;> simp only [enter,ite_none_right_eq_some,Option.some.injEq,Prod.mk.injEq,Bool.and_eq_true] at h
  case setRecipient | close | suspend =>
    obtain ⟨-,rfl,-⟩:=h
    exact hmodify fun _ => rfl
  case watch target watcher =>
    obtain ⟨⟨ht,hw⟩,rfl,-⟩:=h
    rcases watch_cases ht hw with ⟨hr,-⟩ | ⟨hsame,-⟩
    · exact hr.owner.2.1
    · rw [hsame]
  case unwatch target watcher =>
    obtain ⟨-,rfl,-⟩:=h
    exact hmodify fun _ => rfl
  case resume o =>
    obtain ⟨-,rfl,-⟩:=h
    split
    · rfl
    · exact hmodify fun _ => rfl
  case destroy x =>
    obtain ⟨-,rfl,-⟩:=h
    have hx : o≠x := by
      rintro rfl
      exact hne rfl
    rw [Net.modify_owners,if_neg hx]

theorem Inv.next (h : Inv p.shared p.threads) (hc : Counted p a) (hn : program.next p a=some p') :
    Inv p'.shared p'.threads := by
  obtain ⟨e,n',new,rfl,he,rfl⟩ | ⟨k,l,t,r,n',t',rfl,hl,hs,rfl⟩:=Program.next_cases hn
  · rcases enter_turn h.typed he with hturn | ⟨rfl,target,watcher,rfl,hr⟩
    · have hinv:=hturn.inv (l := p.threads) (r := []) (by simpa using h) (by
        intro t ht o ho
        refine enter_alive he ?_
        rintro rfl
        have:=hc t (by simpa using ht)
        simp [ho] at this)
      simpa using hinv
    · simpa using hr.inv h
  · rw [hl] at h
    have hturn:=step_turn h.typed (h.sound t (by simp)) hs
    have hinv:=hturn.inv (l := l) (r := r) (by simpa using h) (fun _ _ o _ => hturn.alive rfl o)
    simpa using hinv

def Settled (p : Pool Net Thread) : Prop :=
  ∀ o items, .ended o∈p.threads → .dropping o items∈p.threads → ∀ i∈items, (p.shared.subs i.1).target≠o

theorem step_ended (h : step move n t=some (n',.ended o)) : t=.disposing o [] := by
  unfold step at h
  split at h
  · rename_i after
    cases after <;> simp [afterClose] at h
  · simp_all
  · simp at h
  · simp at h
  · simp [map_eq_some_iff] at h
  · simp [map_eq_some_iff] at h
  · contradiction

theorem step_dropping {items : List (ℕ × DropStage)} (h : step move n t=some (n',.dropping o items)) :
    ∃ old, t=.dropping o old ∧ ∀ i∈items, ∃ j∈old, j.1=i.1 := by
  unfold step at h
  split at h
  · rename_i after
    cases after <;> simp [afterClose] at h
  · simp at h
  · simp at h
  · simp only [Option.some.injEq,Prod.mk.injEq,Thread.dropping.injEq] at h
    obtain ⟨-,rfl,rfl⟩:=h
    refine ⟨_,rfl,fun i hi => ?_⟩
    simp only [List.mem_append,List.mem_map,mem_toList] at hi
    rcases hi with ⟨stage,-,rfl⟩ | hi
    · exact ⟨_,List.mem_cons_self,rfl⟩
    · exact ⟨i,List.mem_cons_of_mem _ hi,rfl⟩
  · simp [map_eq_some_iff] at h
  · simp [map_eq_some_iff] at h
  · contradiction

theorem enter_new (h : enter e n=some (n',some t)) :
    (∃ o after subs, t=unlinking o after subs ∧ (after ≠ .nothing → e=.close o after)) ∨ ∃ o, e=.destroy o ∧
    t=.dropping o ((values (n.owners o).incoming++values (n.owners o).outgoing).map fun s => (s,.fresh)) := by
  cases e with
  | setRecipient | watch | resume => simp [enter] at h
  | unwatch | suspend =>
    simp only [enter,ite_none_right_eq_some,Option.some.injEq,Prod.mk.injEq] at h
    exact .inl ⟨_,_,_,h.2.2.symm,by simp⟩
  | close o after =>
    simp only [enter,ite_none_right_eq_some,Option.some.injEq,Prod.mk.injEq] at h
    exact .inl ⟨_,_,_,h.2.2.symm,fun _ => rfl⟩
  | destroy o =>
    simp only [enter,ite_none_right_eq_some,Option.some.injEq,Prod.mk.injEq] at h
    exact .inr ⟨o,rfl,h.2.2.symm⟩

theorem Inv.next_ends (h : Inv p.shared p.threads) (hn : program.next p a=some p') (hs : s<p.shared.created) :
    s<p'.shared.created ∧ (p'.shared.subs s).target=(p.shared.subs s).target ∧
      (p'.shared.subs s).watcher=(p.shared.subs s).watcher ∧
      ((p.shared.subs s).cancelled=true → (p'.shared.subs s).cancelled=true) := by
  obtain ⟨e,n',new,rfl,he,rfl⟩ | ⟨k,l,t,r,n',t',rfl,hl,hst,rfl⟩:=Program.next_cases hn
  · rcases enter_turn h.typed he with hturn | ⟨rfl,target,watcher,rfl,hr⟩
    · have hshr:=hturn.shrinks
      exact ⟨hshr.created ▸ hs,(hshr.ends s).1,(hshr.ends s).2,hshr.cancelled s⟩
    · have hends:=hr.ends (s := s) (by omega)
      have hcreated:=hr.created
      refine ⟨?_,?_⟩
      · simp only
        omega
      · simp [hends]
  · have hshr:=(step_turn h.typed (h.sound t (by simp [hl])) hst).shrinks
    exact ⟨hshr.created ▸ hs,(hshr.ends s).1,(hshr.ends s).2,hshr.cancelled s⟩

theorem Settled.next (h : Settled p) (hi : Inv p.shared p.threads) (hn : program.next p a=some p') : Settled p' := by
  intro o items hended hdropping i hmem
  have hends {items : List (ℕ × DropStage)} {j : ℕ × DropStage} (hd : Thread.dropping o items∈p.threads) (hj : j∈items) :
      (p'.shared.subs j.1).target=(p.shared.subs j.1).target :=
    (hi.next_ends hn ((hi.sound _ hd).2 j hj).created).2.1
  obtain ⟨e,n',new,rfl,he,rfl⟩ | ⟨k,l,t,r,n',t',rfl,hl,hst,rfl⟩:=Program.next_cases hn
  · have hbefore : Thread.ended o∈p.threads := by
      rcases List.mem_append.mp hended with hended | hended
      · exact hended
      · rw [mem_toList] at hended
        obtain rfl:=hended
        obtain ⟨o',after,subs,heq,-⟩ | ⟨o',-,heq⟩:=enter_new he <;> simp [unlinking] at heq
    rcases List.mem_append.mp hdropping with hdropping | hdropping
    · rw [hends hdropping hmem]
      exact h o items hbefore hdropping i hmem
    · rw [mem_toList] at hdropping
      obtain rfl:=hdropping
      obtain ⟨o',after,subs,heq,-⟩ | ⟨o',rfl,heq⟩:=enter_new he
      · simp [unlinking] at heq
      · obtain ⟨rfl,rfl⟩:=Thread.dropping.inj heq
        obtain ⟨s,hs,rfl⟩:=List.mem_map.mp hmem
        rcases List.mem_append.mp hs with hs | hs
        · obtain ⟨k,hk⟩:=mem_values.mp hs
          simp [(hi.sound _ hbefore).2 k] at hk
        · obtain ⟨k,hk⟩:=mem_values.mp hs
          obtain ⟨hcreated,hw,-⟩:=hi.typed.outgoing o k s hk
          have hloop:=hi.typed.loopless s hcreated
          rw [(hi.next_ends hn hcreated).2.1]
          exact hw ▸ hloop
  · simp only [List.mem_append,List.mem_cons] at hended hdropping
    have hrest {u : Thread} (hu : u∈l ∨ u∈r) : u∈p.threads := by
      rw [hl]
      rcases hu with hu | hu <;> simp [hu]
    have hmine : t∈p.threads := by simp [hl]
    by_cases ht : t'=.ended o
    · -- The owner was still alive, so no destructor of it runs.
      subst ht
      obtain rfl:=step_ended hst
      have halive:=(hi.sound _ hmine).1
      have hdead:=(hi.sound (.dropping o items) (hrest (by simpa using hdropping))).1
      simp [halive] at hdead
    · have hbefore : Thread.ended o∈p.threads := hrest (by
        rcases hended with hended | rfl | hended
        · exact .inl hended
        · exact absurd rfl ht
        · exact .inr hended)
      by_cases hd : t'=.dropping o items
      · subst hd
        obtain ⟨old,rfl,hsub⟩:=step_dropping hst
        obtain ⟨j,hj,heq⟩:=hsub i hmem
        rw [← heq,hends hmine hj]
        exact h o old hbefore hmine j hj
      · have hdropping : Thread.dropping o items∈p.threads := hrest (by
          rcases hdropping with hdropping | hdropping | hdropping
          · exact .inl hdropping
          · exact absurd hdropping.symm hd
          · exact .inr hdropping)
        rw [hends hdropping hmem]
        exact h o items hbefore hdropping i hmem

def begin (limits : ℕ → ℕ) : Pool Net Thread := ⟨Net.start limits,[]⟩

theorem run_inv {limits : ℕ → ℕ} (hc : program.Along Counted (begin limits) actions)
    (hrun : program.run (begin limits) actions=some p) : Inv p.shared p.threads ∧ Settled p := by
  refine Program.run_invariant (C := Counted) (I := fun p => Inv p.shared p.threads ∧ Settled p) ?_ ?_ hc hrun
  · intro p a p' ⟨hi,hs⟩ hc hn
    exact ⟨hi.next hc hn,hs.next hi hn⟩
  · exact ⟨.start limits,by simp [Settled,begin]⟩

namespace Thread

def busy : Thread → Bool
  | .unlinking _ _ _ | .disposing _ _ | .dropping _ _ => true
  | .ended _ | .returned => false

end Thread

end Parrot.DeathWatch
