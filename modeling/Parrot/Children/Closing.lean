import Parrot.Children.Cohorts

/-! # Slots, closing and joining

A permit belongs to one child from its spawn to the end of its notification. -/

namespace Parrot.Children
open Function (update_self update_of_ne update)

namespace Task

def child : Task → Option Child
  | .finish _ _ stage => stage.child
  | _ => none

theorem child_of_idle {k : Task} (h : k.idle=true) : k.child=none := by
  cases k with
  | finish m r stage =>
    cases stage with
    | lock => rfl
    | record _ _ | recovery _ | abort _ _ | receipt _ _ | settle _ _ | done _ => cases h
  | spawn _ | policy _ _ | close _ _ => rfl

theorem not_pending_of_idle {k : Task} (h : k.idle=true) {p : Prop} (stage : SpawnStage) (hs : k=.spawn stage)
    (hp : stage.pending=true) : p := by
  subst hs
  cases stage with
  | done r => cases hp
  | lock | group | create => cases h

end Task

namespace ChildScope
open Recovery

def Holds (s : ChildScope) (c : Child) : Prop := c∈s.children ∨ ∃ t k, s.tasks t=some k ∧ k.child=some c

structure Slots (s : ChildScope) : Prop where
  nodup : s.permits.Nodup
  bound : s.permits.length ≤ maxChildren
  distinct : (s.children.map Child.id).Nodup
  pending : ∀ t stage, s.tasks t=some (.spawn stage) → stage.pending=true → t∈s.permits
  owned : ∀ c, s.Holds c → s.tasks c.permit=some (.spawn (.done (.ok c.id))) ∧ c.permit∈s.permits ∧ c.id∈s.inserted
  apart : ∀ t k c, s.tasks t=some k → k.child=some c → c.id∉s.children.map Child.id
  alone : ∀ t u k l c d, s.tasks t=some k → s.tasks u=some l → k.child=some c → l.child=some d → c.id=d.id → t=u
  created : ∀ m∈s.inserted, m∈s.created
  used : ∀ p∈s.permits, ∃ k, s.tasks p=some k

theorem new_slots : Slots new where
  nodup := List.nodup_nil
  bound := Nat.zero_le _
  distinct := List.nodup_nil
  pending := fun _ _ h => by cases h
  owned := fun c hc => by
    cases hc with
    | inl hin => cases hin
    | inr hfin =>
      obtain ⟨t,k,hk,-⟩:=hfin
      cases hk
  apart := fun _ _ _ h => by cases h
  alone := fun _ _ _ _ _ _ h => by cases h
  created := fun _ h => by cases h
  used := fun _ h => by cases h

variable {s s' : ChildScope}

theorem Slots.permit_inj (h : Slots s) {c d : Child} (hc : s.Holds c) (hd : s.Holds d) (heq : c.permit=d.permit) :
    c.id=d.id := by
  have hct:=(h.owned c hc).1
  have hdt:=(h.owned d hd).1
  rw [heq,hdt] at hct
  simpa using hct.symm

theorem Slots.children_length (h : Slots s) : s.children.length ≤ maxChildren := by
  have hnodup : (s.children.map Child.permit).Nodup := by
    refine List.Nodup.map_on (fun c hc d hd heq => ?_) (List.Nodup.of_map _ h.distinct)
    exact List.inj_on_of_nodup_map h.distinct hc hd (h.permit_inj (.inl hc) (.inl hd) heq)
  have hsub : s.children.map Child.permit⊆s.permits := by
    intro p hp
    obtain ⟨c,hc,rfl⟩:=List.mem_map.mp hp
    exact (h.owned c (.inl hc)).2.1
  have hle:=(List.subperm_of_subset hnodup hsub).length_le
  rw [List.length_map] at hle
  exact hle.trans h.bound

theorem used_update {f : ℕ → Option Task} {t p : ℕ} {k : Task} (h : ∃ l, f p=some l) :
    ∃ l, update f t (some k) p=some l := by
  by_cases hp : p=t
  · exact ⟨k,by rw [hp,update_self]⟩
  · rw [update_of_ne hp]
    exact h

variable {t : ℕ}

section
variable (h : Slots s)
include h

theorem Slots.pass {k : Task} (htasks : s'.tasks=update s.tasks t (some k))
    (hsame : (s'.permits,s'.children,s'.inserted)=(s.permits,s.children,s.inserted))
    (hcreated : ∀ m∈s.created, m∈s'.created) (hold : ∀ id, s.tasks t≠some (.spawn (.done (.ok id))))
    (hchild : ∀ c, k.child=some c → ∃ k', s.tasks t=some k' ∧ k'.child=some c)
    (hpend : ∀ stage, k=.spawn stage → stage.pending=true → t∈s.permits) : Slots s' := by
  simp only [Prod.mk.injEq] at hsame
  obtain ⟨hpermits,hchildren,hinserted⟩:=hsame
  have hback : ∀ u l c, s'.tasks u=some l → l.child=some c → ∃ l', s.tasks u=some l' ∧ l'.child=some c := by
    intro u l c hl hc
    rw [htasks] at hl
    cases update_eq_some hl with
    | inl hself =>
      obtain ⟨rfl,rfl⟩:=hself
      exact hchild c hc
    | inr hother => exact ⟨l,hother.2,hc⟩
  refine ⟨hpermits ▸ h.nodup,hpermits ▸ h.bound,hchildren ▸ h.distinct,fun u stage hu hp => ?_,fun c hc => ?_,
    fun u l c hl hc => ?_,fun u v l l' c d hl hl' hc hd heq => ?_,fun m hm => hcreated m (h.created m (hinserted ▸ hm)),
    fun p hp => ?_⟩
  · rw [htasks] at hu
    rw [hpermits]
    cases update_eq_some hu with
    | inl hself =>
      obtain ⟨rfl,heq⟩:=hself
      exact hpend stage heq.symm hp
    | inr hother => exact h.pending u stage hother.2 hp
  · have hholds : s.Holds c := by
      cases hc with
      | inl hin => exact .inl (hchildren ▸ hin)
      | inr hfin =>
        obtain ⟨u,l,hl,hlc⟩:=hfin
        obtain ⟨l',hl',hlc'⟩:=hback u l c hl hlc
        exact .inr ⟨u,l',hl',hlc'⟩
    obtain ⟨htask,hpermit,hin⟩:=h.owned c hholds
    rw [htasks,hpermits,hinserted]
    refine ⟨?_,hpermit,hin⟩
    have hne : c.permit≠t := by
      intro heq
      rw [heq] at htask
      exact hold c.id htask
    rw [update_of_ne hne]
    exact htask
  · obtain ⟨l',hl',hlc'⟩:=hback u l c hl hc
    rw [hchildren]
    exact h.apart u l' c hl' hlc'
  · obtain ⟨k₁,hk₁,hc₁⟩:=hback u l c hl hc
    obtain ⟨k₂,hk₂,hd₂⟩:=hback v l' d hl' hd
    exact h.alone u v k₁ k₂ c d hk₁ hk₂ hc₁ hd₂ heq
  · rw [htasks]
    exact used_update (h.used p (hpermits ▸ hp))

theorem Slots.congr (hsame : (s'.permits,s'.children,s'.inserted,s'.created,s'.tasks) =
    (s.permits,s.children,s.inserted,s.created,s.tasks)) : Slots s' := by
  cases s
  cases s'
  cases hsame
  exact ⟨h.nodup,h.bound,h.distinct,h.pending,h.owned,h.apart,h.alone,h.created,h.used⟩

theorem Slots.giveBack {p : ℕ} (hpend : ∀ t stage, s.tasks t=some (.spawn stage) → stage.pending=true → t≠p)
    (howned : ∀ c, s.Holds c → c.permit≠p) : Slots (s.dropPermit p) := by
  refine ⟨h.nodup.erase p,List.length_erase_le.trans h.bound,h.distinct,fun t stage ht hp => ?_,fun c hc => ?_,h.apart,
    h.alone,h.created,fun q hq => h.used q (List.mem_of_mem_erase hq)⟩
  · exact (h.nodup.mem_erase_iff).mpr ⟨hpend t stage ht hp,h.pending t stage ht hp⟩
  · obtain ⟨htask,hpermit,hin⟩:=h.owned c hc
    exact ⟨htask,(h.nodup.mem_erase_iff).mpr ⟨howned c hc,hpermit⟩,hin⟩

theorem spawnFails_slots {e : ActorError} {stage : SpawnStage} {created : List Uuid}
    (ht : s.tasks t=some (.spawn stage)) (hp : stage.pending=true) (hcreated : ∀ m∈s.created, m∈created) :
    Slots {s.spawnFails t e with created:=created} := by
  -- the call ends first, then nobody has its permit
  have hold : ∀ id, s.tasks t≠some (.spawn (.done (.ok id))) := by
    intro id hid
    rw [ht] at hid
    cases hid
    cases hp
  have hend : Slots {s.setTask t (.spawn (.done (.error e))) with created:=created} :=
    h.pass rfl rfl hcreated hold (fun c hc => by cases hc) fun stage' hs hp' => by
      cases hs
      cases hp'
  refine (hend.giveBack (p := t) (fun u stage' hu hp' => ?_) fun c hc heq => ?_).congr rfl
  · rintro rfl
    cases ((update_self ..).symm.trans hu)
    cases hp'
  · have htask:=(hend.owned c hc).1
    rw [heq] at htask
    cases ((update_self ..).symm.trans htask)

theorem notified_slots {m : Uuid} {res : Except ActorError Unit} {c : Child}
    (ht : s.tasks t=some (.finish m res (.done (some c)))) :
    Slots ((s.dropPermit c.permit).setTask t (.finish m res (.done none))) := by
  have hc : s.Holds c := .inr ⟨t,_,ht,rfl⟩
  have hid:=h.apart t _ c ht rfl
  have hend : Slots (s.setTask t (.finish m res (.done none))) :=
    h.pass rfl rfl (fun _ hm => hm) (fun id hid => by rw [ht] at hid; cases hid) (fun c hc => by cases hc)
      fun stage hs => by cases hs
  have hpermit : s.tasks c.permit=some (.spawn (.done (.ok c.id))) := (h.owned c hc).1
  have hback : ∀ d, (s.setTask t (.finish m res (.done none))).Holds d → s.Holds d ∧ d.id≠c.id := by
    intro d hd
    cases hd with
    | inl hin => exact ⟨.inl hin,fun heq => hid (heq ▸ List.mem_map_of_mem hin)⟩
    | inr hfin =>
      obtain ⟨u,l,hl,hlc⟩:=hfin
      cases update_eq_some hl with
      | inl hself =>
        obtain ⟨-,rfl⟩:=hself
        cases hlc
      | inr hother =>
        refine ⟨.inr ⟨u,l,hother.2,hlc⟩,fun heq => hother.1 ?_⟩
        exact h.alone u t l _ d c hother.2 ht hlc rfl heq
  refine (hend.giveBack (p := c.permit) (fun u stage hu hp => ?_) fun d hd heq => ?_).congr rfl
  · rintro rfl
    cases update_eq_some hu with
    | inl hself => cases hself.2
    | inr hother =>
      rw [hother.2] at hpermit
      cases hpermit
      cases hp
  · obtain ⟨hdh,hne⟩:=hback d hd
    exact hne (h.permit_inj hdh hc heq)

theorem acquire_slots (hnone : s.tasks t=none) (hroom : s.permits.length < maxChildren) :
    Slots (({s with permits:=t::s.permits}).setTask t (.spawn .lock)) := by
  have hfresh : t∉s.permits := by
    intro hin
    obtain ⟨k,hk⟩:=h.used t hin
    rw [hnone] at hk
    cases hk
  have hback : ∀ u l c, update s.tasks t (some (.spawn .lock)) u=some l → l.child=some c → s.tasks u=some l := by
    intro u l c hl hc
    cases update_eq_some hl with
    | inl hself =>
      obtain ⟨-,rfl⟩:=hself
      cases hc
    | inr hother => exact hother.2
  refine ⟨List.nodup_cons.mpr ⟨hfresh,h.nodup⟩,hroom,h.distinct,fun u stage hu hp => ?_,fun c hc => ?_,
    fun u l c hl hc => h.apart u l c (hback u l c hl hc) hc,fun u v l l' c d hl hl' hc hd heq => ?_,h.created,fun p hp => ?_⟩
  · cases update_eq_some hu with
    | inl hself => exact List.mem_cons.mpr (.inl hself.1)
    | inr hother => exact List.mem_cons_of_mem t (h.pending u stage hother.2 hp)
  · have hholds : s.Holds c := by
      cases hc with
      | inl hin => exact .inl hin
      | inr hfin =>
        obtain ⟨u,l,hl,hlc⟩:=hfin
        exact .inr ⟨u,l,hback u l c hl hlc,hlc⟩
    obtain ⟨htask,hpermit,hin⟩:=h.owned c hholds
    refine ⟨(update_of_ne (fun heq => ?_) ..).trans htask,List.mem_cons_of_mem t hpermit,hin⟩
    exact hfresh (heq ▸ hpermit)
  · exact h.alone u v l l' c d (hback u l c hl hc) (hback v l' d hl' hd) hc hd heq
  · cases List.mem_cons.mp hp with
    | inl hself =>
      subst hself
      exact ⟨_,update_self ..⟩
    | inr hold => exact used_update (h.used p hold)

theorem inserts_slots {id : Uuid} (ht : s.tasks t=some (.spawn .create)) (hid : id∉s.created) :
    Slots (s.create t id (.ok ())) := by
  have hnew : id∉s.inserted := fun hin => hid (h.created id hin)
  have hids : id∉s.children.map Child.id := by
    intro hin
    obtain ⟨c,hc,rfl⟩:=List.mem_map.mp hin
    exact hnew (h.owned c (.inl hc)).2.2
  have hback : ∀ u l c, (s.create t id (.ok ())).tasks u=some l → l.child=some c → s.tasks u=some l := by
    intro u l c hl hc
    cases update_eq_some hl with
    | inl hself =>
      obtain ⟨-,rfl⟩:=hself
      cases hc
    | inr hother => exact hother.2
  have hkeep : ∀ c, s.Holds c → (s.create t id (.ok ())).tasks c.permit=some (.spawn (.done (.ok c.id))) := by
    intro c hc
    have htask:=(h.owned c hc).1
    refine (update_of_ne (fun heq => ?_) ..).trans htask
    rw [heq,ht] at htask
    cases htask
  refine ⟨h.nodup,h.bound,List.nodup_cons.mpr ⟨hids,h.distinct⟩,fun u stage hu hp => ?_,fun c hc => ?_,
    fun u l c hl hc => ?_,fun u v l l' c d hl hl' hc hd heq => ?_,fun m hm => ?_,fun p hp => ?_⟩
  · cases update_eq_some hu with
    | inl hself =>
      cases hself.2
      cases hp
    | inr hother => exact h.pending u stage hother.2 hp
  · have hcases : c=⟨id,t⟩ ∨ s.Holds c := by
      cases hc with
      | inl hin => exact (List.mem_cons.mp hin).imp_right .inl
      | inr hfin =>
        obtain ⟨u,l,hl,hlc⟩:=hfin
        exact .inr (.inr ⟨u,l,hback u l c hl hlc,hlc⟩)
    cases hcases with
    | inl hself =>
      subst hself
      exact ⟨update_self ..,h.pending t _ ht rfl,List.mem_cons_self ..⟩
    | inr hold =>
      obtain ⟨-,hpermit,hin⟩:=h.owned c hold
      exact ⟨hkeep c hold,hpermit,List.mem_cons_of_mem id hin⟩
  · have hl:=hback u l c hl hc
    have hne : c.id≠id := fun heq => hnew (heq ▸ (h.owned c (.inr ⟨u,l,hl,hc⟩)).2.2)
    exact fun hin => (List.mem_cons.mp hin).elim hne (h.apart u l c hl hc)
  · exact h.alone u v l l' c d (hback u l c hl hc) (hback v l' d hl' hd) hc hd heq
  · cases List.mem_cons.mp hm with
    | inl hself => exact List.mem_cons.mpr (.inl hself)
    | inr hold => exact List.mem_cons_of_mem id (h.created m hold)
  · exact used_update (h.used p hp)

theorem removes_slots {m : Uuid} {res : Except ActorError Unit} (ht : s.tasks t=some (.finish m res .lock))
    (hfree : s.childrenLock=none) : Slots (s.finishStep t m res .lock) := by
  rw [finishStep,if_neg (by rw [hfree]; decide)]
  have hfound : ∀ c, (s.children.find? fun child => child.id=m)=some c → c∈s.children ∧ c.id=m := by
    intro c hc
    exact ⟨List.mem_of_find?_eq_some hc,by simpa using List.find?_some hc⟩
  have hsub : ∀ id, id∈(s.children.filter fun child => child.id≠m).map Child.id → id∈s.children.map Child.id :=
    fun id hid => (List.filter_sublist.map Child.id).subset hid
  have hgone : m∉(s.children.filter fun child => child.id≠m).map Child.id := by
    intro hin
    obtain ⟨c,hc,hcm⟩:=List.mem_map.mp hin
    have hne:=(List.mem_filter.mp hc).2
    exact absurd hcm (by simpa using hne)
  refine ⟨h.nodup,h.bound,h.distinct.sublist (List.filter_sublist.map Child.id),fun u stage hu hp => ?_,fun c hc => ?_,
    fun u l c hl hc => ?_,fun u v l l' c d hl hl' hc hd heq => ?_,h.created,fun p hp => used_update (h.used p hp)⟩
  · cases update_eq_some hu with
    | inl hself => cases hself.2
    | inr hother => exact h.pending u stage hother.2 hp
  · have hholds : s.Holds c := by
      cases hc with
      | inl hin => exact .inl (List.mem_filter.mp hin).1
      | inr hfin =>
        obtain ⟨u,l,hl,hlc⟩:=hfin
        cases update_eq_some hl with
        | inl hself =>
          obtain ⟨-,rfl⟩:=hself
          exact .inl (hfound c hlc).1
        | inr hother => exact .inr ⟨u,l,hother.2,hlc⟩
    obtain ⟨htask,hpermit,hin⟩:=h.owned c hholds
    refine ⟨(update_of_ne (fun heq => ?_) ..).trans htask,hpermit,hin⟩
    rw [heq,ht] at htask
    cases htask
  · cases update_eq_some hl with
    | inl hself =>
      obtain ⟨-,rfl⟩:=hself
      rw [(hfound c hc).2]
      exact hgone
    | inr hother => exact fun hin => h.apart u l c hother.2 hc (hsub _ hin)
  · cases update_eq_some hl with
    | inl hself =>
      obtain ⟨rfl,rfl⟩:=hself
      cases update_eq_some hl' with
      | inl hself' => exact hself'.1.symm
      | inr hother' =>
        exact absurd (heq ▸ List.mem_map_of_mem (hfound c hc).1) (h.apart v l' d hother'.2 hd)
    | inr hother =>
      cases update_eq_some hl' with
      | inl hself' =>
        obtain ⟨rfl,rfl⟩:=hself'
        exact absurd (heq ▸ List.mem_map_of_mem (hfound d hd).1) (h.apart u l c hother.2 hc)
      | inr hother' => exact h.alone u v l l' c d hother.2 hother'.2 hc hd heq

theorem move_slots (hmove : Move s s') : Slots s' := by
  have hcreated : ∀ m∈s.created, m∈s.created := fun _ hm => hm
  -- for a task that is neither a spawned child's nor has a child to notify about
  have hpass : ∀ {s' t k} {old : Task}, s.tasks t=some old → (∀ id, old ≠ .spawn (.done (.ok id))) →
      s'.tasks=update s.tasks t (some k) →
      (s'.permits,s'.children,s'.inserted)=(s.permits,s.children,s.inserted) → s'.created=s.created →
      k.child=old.child → (∀ stage, k=.spawn stage → stage.pending=true → t∈s.permits) → Slots s' := by
    intro s' t k old ht hold htasks hsame hc hchild hpend
    refine h.pass htasks hsame (fun m hm => hc ▸ hm) (fun id hid => ?_) (fun c hkc => ⟨old,ht,hchild ▸ hkc⟩) hpend
    exact hold id (Option.some.inj (ht.symm.trans hid))
  cases hmove with
  | stay => exact h
  | lifetimes | dropsGroup | epoch | releases => exact h.congr rfl
  | idle t k l _ hold hk =>
    refine h.pass rfl rfl hcreated (fun id hid => ?_) (fun c hc => ?_) (Task.not_pending_of_idle hk)
    · cases hold _ hid
    · rw [Task.child_of_idle hk] at hc
      cases hc
  | acquire t hnone hroom => exact acquire_slots h hnone hroom
  | spawnFails t e stage created ht hp _ hc => exact spawnFails_slots h ht hp hc
  | spawnLocks t ht _ _ => exact hpass ht (fun id hid => by cases hid) rfl rfl rfl rfl fun _ _ _ => h.pending t _ ht rfl
  | spawnPasses t ht _ => exact hpass ht (fun id hid => by cases hid) rfl rfl rfl rfl fun _ _ _ => h.pending t _ ht rfl
  | inserts t id ht hid => exact inserts_slots h ht hid
  | policyLocks _ _ _ _ ht | policyPasses _ _ _ _ ht | policyAdmitted _ _ _ _ _ ht | swaps _ _ _ ht
  | records _ _ _ _ _ ht | assigned _ _ _ _ _ ht | finished _ _ _ _ ht | aborts _ _ _ _ _ _ ht
  | receipts _ _ _ _ _ _ ht | closeLocks _ _ ht | closeAborts _ _ ht | snapshots _ _ ht | joins _ _ _ _ _ ht =>
    exact hpass ht (fun id hid => by cases hid) rfl rfl rfl rfl fun _ hs => by cases hs
  | policyUnlocks t m stage k g ht _ hk =>
    exact hpass ht (fun id hid => by cases hid) rfl rfl rfl (Task.child_of_idle hk) (Task.not_pending_of_idle hk)
  | registers t m c ht hactive hopen =>
    rw [register,if_neg (by rw [hactive]; decide),if_neg (by rw [hopen]; decide)]
    exact hpass ht (fun id hid => by cases hid) rfl rfl rfl rfl fun _ hs => by cases hs
  | removes t m res ht hfree => exact removes_slots h ht hfree
  | notified t m res c ht => exact notified_slots h ht

end

end ChildScope

def CloseStage.stops : CloseStage → Option (List Uuid)
  | .waiting stops | .done stops _ => some stops
  | .lock | .abort | .closed | .snapshot => none

namespace Task

def stops : Task → Option (List Uuid)
  | .close _ stage => stage.stops
  | _ => none

def entering : Task → Bool
  | .spawn .group | .spawn .create => true
  | _ => false

theorem stops_of_idle {k : Task} (h : k.idle=true) : k.stops=none := by
  cases k with
  | close j stage =>
    cases stage with
    | lock => rfl
    | abort | closed | snapshot | waiting _ | done _ _ => cases h
  | spawn _ | policy _ _ | finish _ _ _ => rfl

def aside : Task → Bool
  | .spawn .group | .spawn .create | .finish _ _ (.record _ _) => false
  | .close _ stage => match stage with
    | .lock => true
    | _ => false
  | _ => true

theorem aside_of_idle {k : Task} (h : k.idle=true) : k.aside=true := by
  cases k with
  | spawn stage =>
    cases stage with
    | lock | done _ => rfl
    | group | create => cases h
  | policy _ _ => rfl
  | finish m r stage =>
    cases stage with
    | lock => rfl
    | record _ _ | recovery _ | abort _ _ | receipt _ _ | settle _ _ | done _ => cases h
  | close j stage =>
    cases stage with
    | lock => rfl
    | abort | closed | snapshot | waiting _ | done _ _ => cases h

theorem stops_of_entering {k : Task} (h : k.entering=true) : k.stops=none := by
  cases k with
  | spawn _ | policy _ _ | finish _ _ _ => rfl
  | close _ _ => cases h

theorem locks_of_entering {k : Task} (h : k.entering=true) : k.locks=true := by
  cases k with
  | spawn stage =>
    cases stage with
    | group | create => rfl
    | lock | done _ => cases h
  | close _ _ | policy _ _ | finish _ _ _ => cases h

end Task

namespace ChildScope
open Recovery
variable {s s' : ChildScope}

/-- What becomes of a task in a move: a snapshot, once taken, stays, and a join that ends
looks at the record. -/
inductive Becomes (s : ChildScope) : Option Task → Task → Prop where
  | same {k} : Becomes s (some k) k
  | other {old k} : (∀ k', old=some k' → k'.stops=none) → k.stops=none → Becomes s old k
  | snapshot (j stops) : Becomes s (some (.close j .snapshot)) (.close j (.waiting stops))
  | join (j stops result) : (s.retirementFailure.isSome=true → ∃ error, result=.error error) →
      Becomes s (some (.close j (.waiting stops))) (.close j (.done stops result))

theorem joined_fails (s : ChildScope) (stops disposal : Except ActorError Unit) (h : s.retirementFailure.isSome=true) :
    ∃ error, (stops.bind fun _ => disposal.bind fun _ =>
      match s.retirementFailure with
      | some error => .error error
      | none => .ok ())=Except.error (α := Unit) error := by
  obtain ⟨e,he⟩:=Option.isSome_iff_exists.mp h
  rw [he]
  cases stops with
  | error e' => exact ⟨e',rfl⟩
  | ok u =>
    cases disposal with
    | error e' => exact ⟨e',rfl⟩
    | ok u => exact ⟨e,rfl⟩

theorem move_tasks (hmove : Move s s') : s'.tasks=s.tasks ∨
    ∃ t k, s'.tasks=update s.tasks t (some k) ∧ Becomes s (s.tasks t) k := by
  -- a call of another kind, or one whose snapshot is still to come
  have hpass : ∀ {s' : ChildScope} {t : ℕ} {k old : Task}, s.tasks t=some old →
      s'.tasks=update s.tasks t (some k) → old.stops=none → k.stops=none → s'.tasks=s.tasks ∨
      ∃ t k, s'.tasks=update s.tasks t (some k) ∧ Becomes s (s.tasks t) k := by
    intro s' t k old ht htasks hold hk
    refine .inr ⟨t,k,htasks,.other (fun k' hk' => ?_) hk⟩
    obtain rfl:=Option.some.inj (ht.symm.trans hk')
    exact hold
  cases hmove with
  | stay | lifetimes | dropsGroup | epoch | releases => exact .inl rfl
  | idle t k l _ hold hk =>
    exact .inr ⟨t,k,rfl,.other (fun k' hk' => Task.stops_of_idle (hold k' hk')) (Task.stops_of_idle hk)⟩
  | acquire t hnone _ =>
    refine .inr ⟨t,_,rfl,.other (fun k' hk' => ?_) rfl⟩
    rw [hnone] at hk'
    cases hk'
  | spawnFails _ _ _ _ ht | spawnLocks _ ht | spawnPasses _ ht | inserts _ _ ht | policyLocks _ _ _ _ ht
  | policyPasses _ _ _ _ ht | policyAdmitted _ _ _ _ _ ht | swaps _ _ _ ht | records _ _ _ _ _ ht
  | assigned _ _ _ _ _ ht | finished _ _ _ _ ht | aborts _ _ _ _ _ _ ht | receipts _ _ _ _ _ _ ht
  | notified _ _ _ _ ht | closeLocks _ _ ht =>
    exact hpass ht rfl rfl rfl
  | policyUnlocks t m stage k g ht _ hk => exact hpass ht rfl rfl (Task.stops_of_idle hk)
  | registers t m c ht hactive hopen =>
    rw [register,if_neg (by rw [hactive]; decide),if_neg (by rw [hopen]; decide)]
    exact hpass ht rfl rfl rfl
  | removes t m res ht hfree =>
    rw [finishStep,if_neg (by rw [hfree]; decide)]
    exact hpass ht rfl rfl rfl
  | closeAborts t j ht =>
    refine hpass ht rfl rfl ?_
    cases j with
    | true | false => rfl
  | snapshots t j ht _ =>
    exact .inr ⟨t,_,rfl,by rw [ht]; exact .snapshot j _⟩
  | joins t j stops a b ht =>
    exact .inr ⟨t,_,rfl,by rw [ht]; exact .join j stops _ (joined_fails s a b)⟩

variable {u : ℕ}

theorem move_becomes (hmove : Move s s') {l : Task} (hl : s'.tasks u=some l) : Becomes s (s.tasks u) l := by
  cases move_tasks hmove with
  | inl hsame =>
    rw [← hsame,hl]
    exact .same
  | inr hupdate =>
    obtain ⟨t,k,htasks,hk⟩:=hupdate
    rw [htasks] at hl
    cases update_eq_some hl with
    | inl hself =>
      obtain ⟨rfl,rfl⟩:=hself
      exact hk
    | inr hother =>
      rw [hother.2]
      exact .same

variable {k : Task}

theorem move_kept (hmove : Move s s') (hk : s.tasks u=some k) : ∃ l, s'.tasks u=some l := by
  cases move_tasks hmove with
  | inl hsame => exact ⟨k,by rw [hsame]; exact hk⟩
  | inr hupdate =>
    obtain ⟨t,k',htasks,-⟩:=hupdate
    rw [htasks]
    exact used_update ⟨k,hk⟩

variable {stops : List Uuid}

theorem move_stops (hmove : Move s s') (hk : s.tasks u=some k)
    (hstops : k.stops=some stops) : ∃ l, s'.tasks u=some l ∧ l.stops=some stops := by
  obtain ⟨l,hl⟩:=move_kept hmove hk
  refine ⟨l,hl,?_⟩
  have hbecomes:=move_becomes hmove hl
  rw [hk] at hbecomes
  cases hbecomes with
  | same | join => exact hstops
  | other hold _ =>
    rw [hold k rfl] at hstops
    cases hstops
  | snapshot j stops' => cases hstops

structure Shut (s : ChildScope) : Prop where
  closed : s.shut=true → s.closed=true
  decided : s.shut=true → ∀ i r, s.epochs i=some r → r.error.isSome=true ∨ r.committed=true
  closing : ∀ t j stage, s.tasks t=some (.close j stage) → stage ≠ .lock → s.closed=true
  whole : ∀ m∈s.inserted, m∈s.children.map Child.id ∨ m∈s.removed
  taken : ∀ t k stops, s.tasks t=some k → k.stops=some stops →
    (∀ m∈s.inserted, m∈stops ∨ m∈s.removed) ∧ ∀ u l, s.tasks u=some l → l.entering=false
  recorded : s.failures≠[] → s.retirementFailure.isSome=true
  after : ∀ t m res c, s.tasks t=some (.finish m res (.record c true)) → s.shut=true

theorem new_shut : Shut new where
  closed := fun h => by cases h
  decided := fun h => by cases h
  closing := fun _ _ _ h => by cases h
  whole := fun _ h => by cases h
  taken := fun _ _ _ h => by cases h
  recorded := fun h => absurd rfl h
  after := fun _ _ _ _ h => by cases h

variable {t : ℕ}

theorem Shut.pass (h : Shut s) (htasks : s'.tasks=update s.tasks t (some k))
    (hsame : (s'.closed,s'.shut,s'.inserted,s'.children,s'.removed,s'.failures,s'.retirementFailure) =
    (s.closed,s.shut,s.inserted,s.children,s.removed,s.failures,s.retirementFailure))
    (hepochs : s.shut=true → ∀ i r', s'.epochs i=some r' → ∃ r, s.epochs i=some r ∧ Decided r r')
    (hclose : ∀ j stage, k=.close j stage → stage ≠ .lock → s.closed=true) (hstops : ∀ stops, k.stops=some stops →
    (∀ m∈s.inserted, m∈stops ∨ m∈s.removed) ∧ ∀ u l, s.tasks u=some l → l.entering=false)
    (henter : k.entering=true → ∀ u l, s.tasks u=some l → l.stops=none)
    (hrec : ∀ m res c, k=.finish m res (.record c true) → s.shut=true) : Shut s' := by
  simp only [Prod.mk.injEq] at hsame
  obtain ⟨hclosed,hshut,hinserted,hchildren,hremoved,hfailures,hfailure⟩:=hsame
  refine ⟨fun hs => ?_,fun hs i r' hr' => ?_,fun u j stage hu hne => ?_,fun m hm => ?_,fun u l stops hl hst => ?_,
    fun hf => ?_,fun u m res c hu => ?_⟩
  · rw [hclosed]
    exact h.closed (hshut ▸ hs)
  · obtain ⟨r,hr,hdec⟩:=hepochs (hshut ▸ hs) i r' hr'
    exact (h.decided (hshut ▸ hs) i r hr).imp (fun he => by rw [hdec.2.1 he]; exact he) hdec.1
  · rw [htasks] at hu
    rw [hclosed]
    cases update_eq_some hu with
    | inl hself => exact hclose j stage hself.2.symm hne
    | inr hother => exact h.closing u j stage hother.2 hne
  · rw [hchildren,hremoved]
    exact h.whole m (hinserted ▸ hm)
  · have hnew : k.entering=false := by
      rw [← Bool.not_eq_true]
      intro hent
      rw [htasks] at hl
      cases update_eq_some hl with
      | inl hself =>
        obtain ⟨-,rfl⟩:=hself
        rw [Task.stops_of_entering hent] at hst
        cases hst
      | inr hother =>
        rw [henter hent u l hother.2] at hst
        cases hst
    have hfacts : (∀ m∈s.inserted, m∈stops ∨ m∈s.removed) ∧ ∀ u l, s.tasks u=some l → l.entering=false := by
      rw [htasks] at hl
      cases update_eq_some hl with
      | inl hself =>
        obtain ⟨-,rfl⟩:=hself
        exact hstops stops hst
      | inr hother => exact h.taken u l stops hother.2 hst
    rw [hinserted,hremoved]
    refine ⟨hfacts.1,fun v l' hv => ?_⟩
    rw [htasks] at hv
    cases update_eq_some hv with
    | inl hself =>
      obtain ⟨-,rfl⟩:=hself
      exact hnew
    | inr hother => exact hfacts.2 v l' hother.2
  · rw [hfailure]
    exact h.recorded (hfailures ▸ hf)
  · rw [htasks] at hu
    rw [hshut]
    cases update_eq_some hu with
    | inl hself => exact hrec m res c hself.2.symm
    | inr hother => exact h.after u m res c hother.2

theorem Shut.congr (h : Shut s) (hsame : (s'.closed,s'.shut,s'.inserted,s'.children,s'.removed,s'.failures,
      s'.retirementFailure,s'.tasks) =
    (s.closed,s.shut,s.inserted,s.children,s.removed,s.failures,s.retirementFailure,s.tasks))
    (hepochs : s.shut=true → ∀ i r', s'.epochs i=some r' → ∃ r, s.epochs i=some r ∧ Decided r r') : Shut s' := by
  cases s
  cases s'
  cases hsame
  refine ⟨h.closed,fun hs i r' hr' => ?_,h.closing,h.whole,h.taken,h.recorded,h.after⟩
  obtain ⟨r,hr,hdec⟩:=hepochs hs i r' hr'
  exact (h.decided hs i r hr).imp (fun he => by rw [hdec.2.1 he]; exact he) hdec.1

theorem Shut.no_stops (h : Shut s) (hopen : s.closed=false) {l : Task} (hl : s.tasks u=some l) : l.stops=none := by
  cases hst : l.stops with
  | none => rfl
  | some stops =>
    cases l with
    | close j stage =>
      have hne : stage ≠ .lock := by
        rintro rfl
        cases hst
      exact absurd ((h.closing u j stage hl hne).symm.trans hopen) (by decide)
    | spawn _ | policy _ _ | finish _ _ _ => cases hst

theorem entered_none (hl : Locks s) (hfree : s.childrenLock=none) {l : Task} (h : s.tasks u=some l) :
    l.entering=false := by
  rw [← Bool.not_eq_true]
  intro hent
  cases hfree.symm.trans (hl.held u l h (Task.locks_of_entering hent))

theorem Shut.aside (h : Shut s) (htasks : s'.tasks=update s.tasks t (some k))
    (hsame : (s'.closed,s'.shut,s'.inserted,s'.children,s'.removed,s'.failures,s'.retirementFailure) =
    (s.closed,s.shut,s.inserted,s.children,s.removed,s.failures,s.retirementFailure)) (hepochs : s.shut=true → ∀ i r',
    s'.epochs i=some r' → ∃ r, s.epochs i=some r ∧ Decided r r') (hk : k.aside=true) : Shut s' := by
  refine h.pass htasks hsame hepochs (fun j stage hj hne => ?_) (fun stops hst => ?_) (fun hent => ?_) fun m res c hm => ?_
  · subst hj
    cases stage with
    | lock => exact absurd rfl hne
    | abort | closed | snapshot | waiting _ | done _ _ => cases hk
  · cases k with
    | close j stage =>
      cases stage with
      | lock | abort | closed | snapshot => cases hst
      | waiting _ | done _ _ => cases hk
    | spawn _ | policy _ _ | finish _ _ _ => cases hst
  · cases k with
    | spawn stage =>
      cases stage with
      | lock | done _ => cases hent
      | group | create => cases hk
    | close _ _ | policy _ _ | finish _ _ _ => cases hent
  · subst hm
    cases hk

theorem setEpoch_back {i : ℕ} {r r' : Recovery} (hr : s.epochs i=some r) (hdec : Decided r r') (j : ℕ) (q : Recovery)
    (hq : update s.epochs i (some r') j=some q) : ∃ p, s.epochs j=some p ∧ Decided p q := by
  cases update_eq_some hq with
  | inl hself =>
    obtain ⟨rfl,rfl⟩:=hself
    exact ⟨r,hr,hdec⟩
  | inr hother => exact ⟨q,hother.2,Decided.refl q⟩

theorem records_shut (h : Shut s) {m : Uuid} {res : Except ActorError Unit} {c : Option Child} {a : Bool}
    (ht : s.tasks t=some (.finish m res (.record c a))) : Shut (s.finishStep t m res (.record c a)) := by
  have hfields : Shut {s with
      retirementFailure := if c.isSome ∧ s.closed then s.retirementFailure.or (failed res) else s.retirementFailure
      failures := if c.isSome ∧ a ∧ (failed res).isSome then m::s.failures else s.failures} := by
    refine ⟨h.closed,h.decided,h.closing,h.whole,h.taken,fun hne => ?_,h.after⟩
    by_cases hfail : c.isSome ∧ a ∧ (failed res).isSome
    · obtain ⟨hc,ha,he⟩:=hfail
      rw [ha] at ht
      have hclosed:=h.closed (h.after t m res c ht)
      show (if c.isSome ∧ s.closed then s.retirementFailure.or (failed res) else s.retirementFailure).isSome=true
      rw [if_pos ⟨hc,hclosed⟩,Option.isSome_or,he,Bool.or_true]
    · have hold : s.retirementFailure.isSome=true := by
        refine h.recorded fun hnil => hne ?_
        show (if c.isSome ∧ a ∧ (failed res).isSome then m::s.failures else s.failures)=[]
        rw [if_neg hfail]
        exact hnil
      show (if c.isSome ∧ s.closed then s.retirementFailure.or (failed res) else s.retirementFailure).isSome=true
      split
      · rw [Option.isSome_or,hold,Bool.true_or]
      · exact hold
  exact hfields.aside rfl rfl (fun _ i r hr => ⟨r,hr,Decided.refl r⟩) rfl

theorem removes_shut (h : Shut s) {m : Uuid} {res : Except ActorError Unit}
    (hfree : s.childrenLock=none) : Shut (s.finishStep t m res .lock) := by
  rw [finishStep,if_neg (by rw [hfree]; decide)]
  have hfields : Shut {s with
      children := s.children.filter fun child => child.id≠m
      removed := ((s.children.find? fun child => child.id=m).map Child.id).toList++s.removed} := by
    refine ⟨h.closed,h.decided,h.closing,fun m' hm' => ?_,fun u k stops hk hst => ?_,h.recorded,h.after⟩
    · cases h.whole m' hm' with
      | inr hgone => exact .inr (List.mem_append_right _ hgone)
      | inl hin =>
        obtain ⟨c,hc,rfl⟩:=List.mem_map.mp hin
        by_cases hcm : c.id=m
        · refine .inr (List.mem_append_left _ ?_)
          cases hfind : s.children.find? fun child => child.id=m with
          | none => exact absurd hcm (by simpa using List.find?_eq_none.mp hfind c hc)
          | some d =>
            have hd : d.id=m := by simpa using List.find?_some hfind
            simp [hd,hcm]
        · exact .inl (List.mem_map_of_mem (List.mem_filter.mpr ⟨hc,by simpa using hcm⟩))
    · obtain ⟨hall,hnone⟩:=h.taken u k stops hk hst
      exact ⟨fun m' hm' => (hall m' hm').imp_right (List.mem_append_right _),hnone⟩
  refine hfields.pass rfl rfl (fun _ i r hr => ⟨r,hr,Decided.refl r⟩) (fun _ _ hk => by cases hk) (fun _ hst => by cases hst)
    (fun hent => by cases hent) fun m' res' c hk => ?_
  simp only [Task.finish.injEq,FinishStage.record.injEq] at hk
  exact hk.2.2.2

theorem Shut.entered (h : Shut s) (ht : s.tasks t=some k) (hent : k.entering=true)
    {l : Task} (hl : s.tasks u=some l) : l.stops=none := by
  cases hst : l.stops with
  | none => rfl
  | some stops => exact absurd hent (by rw [(h.taken u l stops hl hst).2 t k ht]; decide)

theorem inserts_shut (h : Shut s) {id : Uuid} (ht : s.tasks t=some (.spawn .create)) :
    Shut (s.create t id (.ok ())) := by
  have hfields : Shut {s with children:=⟨id,t⟩::s.children,inserted:=id::s.inserted} := by
    refine ⟨h.closed,h.decided,h.closing,fun m hm => ?_,fun u k stops hk hst => ?_,h.recorded,h.after⟩
    · cases List.mem_cons.mp hm with
      | inl hself => exact .inl (List.mem_cons.mpr (.inl hself))
      | inr hold => exact (h.whole m hold).imp_left (List.mem_cons_of_mem id)
    · rw [h.entered ht rfl hk] at hst
      cases hst
  exact hfields.aside rfl rfl (fun _ i r hr => ⟨r,hr,Decided.refl r⟩) rfl

theorem closeLocks_shut (h : Shut s) (t : ℕ) (j : Bool) :
    Shut (({s with closed:=true,activeLock:=some t}).setTask t (.close j .abort)) := by
  have hfields : Shut {s with closed:=true,activeLock:=some t} :=
    ⟨fun _ => rfl,h.decided,fun _ _ _ _ _ => rfl,h.whole,h.taken,h.recorded,h.after⟩
  exact hfields.pass rfl rfl (fun _ i r hr => ⟨r,hr,Decided.refl r⟩) (fun _ _ _ _ => rfl) (fun _ hst => by cases hst)
    (fun hent => by cases hent) fun _ _ _ hk => by cases hk

theorem closeAborts_shut (hc : Cohorts s) (h : Shut s) {j : Bool} (ht : s.tasks t=some (.close j .abort)) :
    Shut (s.closeStep t j .abort) := by
  have hclosed:=h.closing t j .abort ht (fun he => by cases he)
  have hfields : Shut {s with epochs:=(s.closeStep t j .abort).epochs,activeLock:=none,shut:=true} := by
    refine ⟨fun _ => hclosed,fun _ i r' hr' => ?_,h.closing,h.whole,h.taken,h.recorded,fun _ _ _ _ _ => rfl⟩
    change (s.closeStep t j .abort).epochs i=some r' at hr'
    rw [closeAborts_epochs] at hr'
    split at hr'
    · obtain ⟨r,hr,rfl⟩:=Option.map_eq_some_iff.mp hr'
      exact abort_decides r _
    · rename_i hother
      refine (hc.sound i r' hr').decided fun hnil => hother ?_
      exact hc.inForce i ⟨r',hr',hnil⟩
  refine hfields.pass rfl rfl (fun _ i r hr => ⟨r,hr,Decided.refl r⟩) (fun _ _ _ _ => hclosed) (fun stops hst => ?_)
    (fun hent => by cases hent) fun _ _ _ hk => by cases hk
  cases j with
  | true | false => cases hst

theorem move_shut (hl : Locks s) (hc : Cohorts s) (h : Shut s) (hmove : Move s s') : Shut s' := by
  have hkeep : s.shut=true → ∀ i r', s.epochs i=some r' → ∃ r, s.epochs i=some r ∧ Decided r r' :=
    fun _ i r hr => ⟨r,hr,Decided.refl r⟩
  cases hmove with
  | stay => exact h
  | lifetimes | dropsGroup => exact h.congr rfl hkeep
  | idle t k l _ _ hk => exact h.aside rfl rfl hkeep (Task.aside_of_idle hk)
  | acquire | spawnFails | policyLocks | policyPasses | policyAdmitted | swaps | assigned | finished | notified =>
    exact h.aside rfl rfl hkeep rfl
  | spawnLocks t ht _ hopen =>
    exact h.pass rfl rfl hkeep (fun _ _ hk => by cases hk) (fun _ hst => by cases hst)
      (fun _ u l hu => h.no_stops hopen hu) fun _ _ _ hk => by cases hk
  | spawnPasses t ht _ =>
    exact h.pass rfl rfl hkeep (fun _ _ hk => by cases hk) (fun _ hst => by cases hst)
      (fun _ u l hu => h.entered ht rfl hu) fun _ _ _ hk => by cases hk
  | inserts t id ht _ => exact inserts_shut h ht
  | policyUnlocks t m stage k g _ _ hk => exact h.aside rfl rfl hkeep (Task.aside_of_idle hk)
  | registers t m c ht hactive hopen =>
    rw [register,if_neg (by rw [hactive]; decide),if_neg (by rw [hopen]; decide)]
    exact h.aside rfl rfl (fun hs => absurd ((h.closed hs).symm.trans hopen) (by decide)) rfl
  | removes t m res _ hfree => exact removes_shut h hfree
  | records t m res c a ht => exact records_shut h ht
  | aborts t m res c i r _ hr => exact h.aside rfl rfl (fun _ => setEpoch_back hr (abort_decided r _)) rfl
  | receipts t m res c i r _ hr => exact h.aside rfl rfl (fun _ => setEpoch_back hr (step_decided r _)) rfl
  | closeLocks t j _ _ => exact closeLocks_shut h t j
  | closeAborts t j ht => exact closeAborts_shut hc h ht
  | snapshots t j ht hfree =>
    refine h.pass rfl rfl hkeep (fun _ _ _ _ => h.closing t j _ ht fun he => by cases he) (fun stops hst => ?_)
      (fun hent => by cases hent) fun _ _ _ hk => by cases hk
    cases hst
    exact ⟨h.whole,fun u l hu => entered_none hl hfree hu⟩
  | joins t j stops a b ht =>
    refine h.pass rfl rfl hkeep (fun _ _ _ _ => h.closing t j _ ht fun he => by cases he) (fun stops' hst => ?_)
      (fun hent => by cases hent) fun _ _ _ hk => by cases hk
    cases hst
    exact h.taken t _ stops ht rfl
  | epoch i r a hr _ _ _ => exact h.congr rfl fun _ => setEpoch_back hr (step_decided r a)
  | releases i r a hr _ _ _ _ => exact h.congr rfl fun _ => setEpoch_back hr (step_decided r a)

structure Lasting (s s' : ChildScope) : Prop where
  shut : s.shut=true → s'.shut=true
  registered : s.closed=true → s'.registered=s.registered
  epochs : s.closed=true → ∀ i r, s.epochs i=some r → ∃ r', s'.epochs i=some r' ∧ Decided r r'
  inserted : (∀ t, s.tasks t≠some (.spawn .create)) → s'.inserted=s.inserted
  children : (∀ t, s.tasks t≠some (.spawn .create)) → ∀ c∈s'.children, c∈s.children
  failure : s.retirementFailure.isSome=true → s'.retirementFailure.isSome=true

theorem Lasting.of_eq (hsame : (s'.shut,s'.registered,s'.inserted,s'.children,s'.retirementFailure) =
    (s.shut,s.registered,s.inserted,s.children,s.retirementFailure))
    (hepochs : ∀ i r, s.epochs i=some r → ∃ r', s'.epochs i=some r' ∧ Decided r r') : Lasting s s' := by
  simp only [Prod.mk.injEq] at hsame
  obtain ⟨hshut,hreg,hinserted,hchildren,hfailure⟩:=hsame
  exact ⟨fun h => hshut ▸ h,fun _ => hreg,fun _ => hepochs,fun _ => hinserted,fun _ c hc => hchildren ▸ hc,
    fun h => hfailure ▸ h⟩

theorem setEpoch_on {i : ℕ} {r r' : Recovery} (hr : s.epochs i=some r) (hdec : Decided r r') (j : ℕ) (q : Recovery)
    (hq : s.epochs j=some q) : ∃ p, update s.epochs i (some r') j=some p ∧ Decided q p := by
  by_cases hj : j=i
  · subst hj
    obtain rfl:=Option.some.inj (hr.symm.trans hq)
    exact ⟨r',update_self ..,hdec⟩
  · exact ⟨q,(update_of_ne hj ..).trans hq,Decided.refl q⟩

theorem move_lasting (hmove : Move s s') : Lasting s s' := by
  have hkeep : ∀ i r, s.epochs i=some r → ∃ r', s.epochs i=some r' ∧ Decided r r' :=
    fun i r hr => ⟨r,hr,Decided.refl r⟩
  cases hmove with
  | stay | lifetimes | idle | acquire | spawnFails | spawnLocks | spawnPasses | policyLocks | policyPasses | policyAdmitted
  | policyUnlocks | swaps | dropsGroup | assigned | finished | notified | closeLocks | snapshots | joins =>
    exact .of_eq rfl hkeep
  | inserts t id ht _ =>
    exact ⟨fun h => h,fun _ => rfl,fun _ => hkeep,fun hnone => absurd ht (hnone t),fun hnone => absurd ht (hnone t),fun h => h⟩
  | registers t m c _ hactive hopen =>
    rw [register,if_neg (by rw [hactive]; decide),if_neg (by rw [hopen]; decide)]
    have hnot : s.closed≠true := by
      rw [hopen]
      decide
    exact ⟨fun h => h,fun h => absurd h hnot,fun h => absurd h hnot,fun _ => rfl,fun _ _ hc => hc,fun h => h⟩
  | removes t m res _ hfree =>
    rw [finishStep,if_neg (by rw [hfree]; decide)]
    exact ⟨fun h => h,fun _ => rfl,fun _ => hkeep,fun _ => rfl,fun _ c hc => (List.mem_filter.mp hc).1,fun h => h⟩
  | records t m res c a _ =>
    refine ⟨fun h => h,fun _ => rfl,fun _ => hkeep,fun _ => rfl,fun _ _ hc => hc,fun h => ?_⟩
    show (if c.isSome ∧ s.closed then s.retirementFailure.or (failed res) else s.retirementFailure).isSome=true
    split
    · rw [Option.isSome_or,h,Bool.true_or]
    · exact h
  | aborts t m res c i r _ hr => exact .of_eq rfl (setEpoch_on hr (abort_decided r _))
  | receipts t m res c i r _ hr => exact .of_eq rfl (setEpoch_on hr (step_decided r _))
  | closeAborts t j _ =>
    refine ⟨fun _ => rfl,fun _ => rfl,fun _ i r hr => ?_,fun _ => rfl,fun _ _ hc => hc,fun h => h⟩
    obtain ⟨r',hr',hdec,-⟩:=(closeAborts_further s t j).on i r hr
    exact ⟨r',hr',hdec⟩
  | epoch i r a hr _ _ _ => exact .of_eq rfl (setEpoch_on hr (step_decided r a))
  | releases i r a hr _ _ _ _ => exact .of_eq rfl (setEpoch_on hr (step_decided r a))

structure Inv (s : ChildScope) : Prop where
  locks : Locks s
  cohorts : Cohorts s
  slots : Slots s
  shut : Shut s

theorem new_inv : Inv new := ⟨new_locks,new_cohorts,new_slots,new_shut⟩

theorem step_inv (h : Inv s) (a : ScopeAction) : Inv (s.step a) := by
  have hmove:=step_moves s a
  exact ⟨move_locks h.locks hmove,move_cohorts h.locks h.cohorts hmove,move_slots h.slots hmove,
    move_shut h.locks h.cohorts h.shut hmove⟩

theorem run_inv (h : Inv s) (actions : List ScopeAction) : Inv (s.run actions) := by
  induction actions generalizing s with
  | nil => exact h
  | cons a actions ih => exact ih (step_inv h a)

theorem run_shut (h : Inv s) (hs : s.shut=true) (actions : List ScopeAction) :
    (s.run actions).registered=s.registered ∧
    ∀ i r, s.epochs i=some r → ∃ r', (s.run actions).epochs i=some r' ∧ Decided r r' := by
  induction actions generalizing s with
  | nil => exact ⟨rfl,fun i r hr => ⟨r,hr,Decided.refl r⟩⟩
  | cons a actions ih =>
    have hlast:=move_lasting (step_moves s a)
    have hclosed:=h.shut.closed hs
    obtain ⟨hreg,hepochs⟩:=ih (step_inv h a) (hlast.shut hs)
    refine ⟨hreg.trans (hlast.registered hclosed),fun i r hr => ?_⟩
    obtain ⟨r₁,hr₁,hdec₁⟩:=hlast.epochs hclosed i r hr
    obtain ⟨r₂,hr₂,hdec₂⟩:=hepochs i r₁ hr₁
    exact ⟨r₂,hr₂,hdec₁.trans hdec₂⟩

theorem run_taken (h : Inv s) (hk : s.tasks t=some k)
    (hst : k.stops=some stops) (actions : List ScopeAction) : (s.run actions).inserted=s.inserted := by
  induction actions generalizing s k with
  | nil => rfl
  | cons a actions ih =>
    obtain ⟨l,hl,hlst⟩:=move_stops (step_moves s a) hk hst
    have hnone : ∀ u, s.tasks u≠some (.spawn .create) := by
      intro u hu
      cases (h.shut.taken t k stops hk hst).2 u _ hu
    exact (ih (step_inv h a) hl hlst).trans ((move_lasting (step_moves s a)).inserted hnone)

theorem run_joined (h : s.retirementFailure.isSome=true) (actions : List ScopeAction) {j : Bool} {result : Except ActorError Unit}
    (hdone : (s.run actions).tasks t=some (.close j (.done stops result))) :
    s.tasks t=some (.close j (.done stops result)) ∨ ∃ error, result=.error error := by
  induction actions generalizing s with
  | nil => exact .inl hdone
  | cons a actions ih =>
    have hmove:=step_moves s a
    cases ih ((move_lasting hmove).failure h) hdone with
    | inr herror => exact .inr herror
    | inl hnext =>
      have hbecomes:=move_becomes hmove hnext
      cases hold : s.tasks t with
      | none =>
        rw [hold] at hbecomes
        cases hbecomes with
        | other _ hk => cases hk
      | some k =>
        rw [hold] at hbecomes
        cases hbecomes with
        | same => exact .inl rfl
        | other _ hk => cases hk
        | join j stops result herror => exact .inr (herror h)

/-- For every order of spawns, failures, drops, arrivals, receipts, closings and joins: one
cohort at a time and the flag that tells of it, no child beyond the slots or beside a
cohort, no epoch and no commit after `close`, no child after a snapshot, and no join that
forgets a failure. -/
theorem scope_runs_one_cohort (actions : List ScopeAction) :
    let s:=new.run actions
    (s.groupActive=true ↔ ∃ c, s.Alive c) ∧ (∀ c c', s.Alive c → s.Alive c' → c=c') ∧
    (∀ m i, (s.lifetimes m).recovery=some i → s.Alive (.epoch i) ∧ ∃ r, s.epochs i=some r ∧ m∈r.members) ∧
    s.children.length ≤ maxChildren ∧
    (∀ a, ∀ c∈(s.step a).children, c∉s.children → ∀ d, ¬s.Alive d) ∧
    (s.shut=true → ∀ more, (s.run more).registered=s.registered ∧ ∀ i r, s.epochs i=some r → r.committed=false →
      ∃ r', (s.run more).epochs i=some r' ∧ r'.committed=false) ∧
    (∀ t k stops, s.tasks t=some k → k.stops=some stops →
      (∀ more, (s.run more).inserted=s.inserted) ∧ ∀ m∈s.inserted, m∈stops ∨ m∈s.removed) ∧
    (s.failures≠[] → ∀ more t stops result, (s.run more).tasks t=some (.close true (.done stops result)) →
      s.tasks t≠some (.close true (.done stops result)) → ∃ error, result=.error error) := by
  intro s
  have h : Inv s := run_inv new_inv actions
  refine ⟨h.cohorts.active,h.cohorts.one,fun m i hm => ?_,h.slots.children_length,fun a c hc hnew => ?_,
    fun hs more => ?_,fun t k stops hk hst => ?_,fun hne more t stops result hdone hnot => ?_⟩
  · obtain ⟨r,hr,hmem,hnil⟩:=h.cohorts.assigned m i hm
    exact ⟨⟨r,hr,hnil⟩,r,hr,hmem⟩
  · by_cases hcreate : ∃ t, s.tasks t=some (.spawn .create)
    · obtain ⟨t,ht⟩:=hcreate
      exact h.cohorts.none_alive (h.locks.passed t _ ht)
    · rw [not_exists] at hcreate
      exact absurd ((move_lasting (step_moves s a)).children hcreate c hc) hnew
  · obtain ⟨hreg,hepochs⟩:=run_shut h hs more
    refine ⟨hreg,fun i r hr hopen => ?_⟩
    obtain ⟨r',hr',hdec⟩:=hepochs i r hr
    refine ⟨r',hr',((run_inv h more).cohorts.sound i r' hr').votes.aborted ?_⟩
    have herror:=(h.shut.decided hs i r hr).resolve_right (by rw [hopen]; decide)
    rw [hdec.2.1 herror]
    exact herror
  · exact ⟨fun more => run_taken h hk hst more,(h.shut.taken t k stops hk hst).1⟩
  · exact (run_joined (h.shut.recorded hne) more hdone).resolve_left hnot

end ChildScope

end Parrot.Children
