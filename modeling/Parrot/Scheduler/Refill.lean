import Mathlib.Data.List.Nodup
import Parrot.Scheduler.Queue

/-! # Markers and entries

A marker waits only while every slot is taken, and it is younger than the entries of its lane.
-/

namespace Parrot.Scheduler
open List (map_cons filter_append filter_cons_of_neg perm_middle mem_cons_self any_cons mem_cons_of_mem)
open QueueState

def markersOf (registered : List Registration) : List Entry :=
  registered.filterMap fun r => r.deferred.map fun a => ⟨r.mailbox,a⟩

variable {registered : List Registration} {id : ℕ} {e : Entry}

theorem markersOf_cons (r : Registration) (registered : List Registration) :
    markersOf (r::registered)=(r.deferred.map fun a => ⟨r.mailbox,a⟩).toList++markersOf registered := by
  unfold markersOf
  cases hr : r.deferred with
  | none =>
    rw [List.filterMap_cons_none]
    · rfl
    · rw [hr]
      rfl
  | some a =>
    rw [List.filterMap_cons_some]
    · rfl
    · rw [hr]
      rfl

theorem mem_markersOf : e∈markersOf registered ↔ ⟨e.mailbox,some e.admission⟩∈registered := by
  rw [markersOf,List.mem_filterMap]
  constructor
  · intro h
    obtain ⟨⟨id,deferred⟩,hr,heq⟩:=h
    obtain ⟨a,ha,rfl⟩:=Option.map_eq_some_iff.mp heq
    cases ha
    exact hr
  · intro h
    exact ⟨_,h,rfl⟩

theorem markersOf_clear (id : ℕ) : markersOf (registered.map fun r => if r.mailbox=id then {r with deferred:=none} else r) =
    (markersOf registered).filter fun e => e.mailbox != id := by
  induction registered with
  | nil => rfl
  | cons r registered ih =>
    rw [map_cons,markersOf_cons,markersOf_cons,filter_append,ih]
    congr 1
    by_cases hr : r.mailbox=id
    · rw [if_pos hr]
      cases r.deferred with
      | none => rfl
      | some a => simp [hr]
    · rw [if_neg hr]
      cases r.deferred with
      | none => rfl
      | some a => simp [hr]

theorem markersOf_remove (id : ℕ) : markersOf (registered.filter fun r => r.mailbox != id) =
    (markersOf registered).filter fun e => e.mailbox != id := by
  induction registered with
  | nil => rfl
  | cons r registered ih =>
    rw [markersOf_cons,filter_append,← ih]
    by_cases hr : r.mailbox=id
    · rw [filter_cons_of_neg (by simp [hr])]
      cases r.deferred with
      | none => rfl
      | some a => simp [hr]
    · rw [List.filter_cons_of_pos (by simp [hr]),markersOf_cons]
      congr 1
      cases r.deferred with
      | none => rfl
      | some a => simp [hr]

theorem markersOf_sublist : ((markersOf registered).map Entry.mailbox).Sublist (registered.map Registration.mailbox) := by
  induction registered with
  | nil => exact List.Sublist.refl _
  | cons r registered ih =>
    rw [markersOf_cons,List.map_append,map_cons]
    cases r.deferred with
    | none => exact ih.cons _
    | some a => exact ih.cons_cons _

theorem find_registration {r : Registration} (hnodup : (registered.map Registration.mailbox).Nodup) (hr : r∈registered) :
    registered.find? (fun x => x.mailbox==r.mailbox)=some r := by
  induction registered with
  | nil => contradiction
  | cons x registered ih =>
    obtain ⟨hnew,hnodup⟩:=List.nodup_cons.mp hnodup
    rcases List.mem_cons.mp hr with rfl | hr
    · exact List.find?_cons_of_pos (beq_self_eq_true _)
    · have hne : (x.mailbox==r.mailbox)=false := by
        rw [beq_eq_false_iff_ne]
        intro heq
        rw [heq] at hnew
        exact hnew (List.mem_map_of_mem hr)
      rw [List.find?_cons,hne]
      exact ih hnodup hr

theorem markersOf_set {a : Admission} (hnodup : (registered.map Registration.mailbox).Nodup)
    (hr : (⟨id,none⟩ : Registration)∈registered) :
    (markersOf (registered.map fun r => if r.mailbox=id then {r with deferred:=some a} else r)).Perm
      (⟨id,a⟩::markersOf registered) := by
  induction registered with
  | nil => contradiction
  | cons x registered ih =>
    obtain ⟨hnew,hnodup⟩:=List.nodup_cons.mp hnodup
    rw [map_cons,markersOf_cons,markersOf_cons]
    rcases List.mem_cons.mp hr with rfl | hr
    · rw [if_pos rfl]
      have hsame : registered.map (fun r => if r.mailbox=id then {r with deferred:=some a} else r)=registered := by
        rw [List.map_congr_left (g := fun r => r),List.map_id']
        intro r hmem
        rw [if_neg]
        intro heq
        exact hnew (List.mem_map.mpr ⟨r,hmem,heq⟩)
      rw [hsame]
      exact List.Perm.refl _
    · have hne : x.mailbox≠id := by
        intro heq
        exact hnew (List.mem_map.mpr ⟨⟨id,none⟩,hr,heq.symm⟩)
      rw [if_neg hne]
      exact ((ih hnodup hr).append_left _).trans perm_middle

variable {alive : Alive} {capacity : ℕ} {s s' : QueueState}

def residentsOf (s : QueueState) : List Entry := s.high++s.normal

def pendingOf (alive : Alive) (s : QueueState) : List Entry :=
  residentsOf s++s.markers.filter fun e => alive e.mailbox

structure Sound (alive : Alive) (capacity : ℕ) (s : QueueState) : Prop where
  ids : (s.registered.map Registration.mailbox).Nodup
  count : s.deferredCount=s.markers.length
  bounded : s.len≤capacity
  high_lane : ∀ e∈s.high, e.admission.lane=.high
  normal_lane : ∀ e∈s.normal, e.admission.lane=.normal
  tickets : ((residentsOf s++s.markers).map fun e => e.admission.ticket).Nodup
  issued : ∀ e∈residentsOf s++s.markers, e.admission.ticket<s.nextTicket
  high_sorted : s.high.Pairwise fun a b => a.admission.ticket<b.admission.ticket
  normal_sorted : s.normal.Pairwise fun a b => a.admission.ticket<b.admission.ticket
  behind : ∀ e∈residentsOf s, ∀ m∈s.markers, e.admission.lane=m.admission.lane →
    e.admission.ticket < m.admission.ticket
  held : ∀ e∈residentsOf s, alive e.mailbox=true

def Full (capacity : ℕ) (s : QueueState) : Prop := s.markers≠[] → capacity ≤ s.len

theorem new_sound (alive : Alive) (capacity : ℕ) : Sound alive capacity .new :=
  ⟨List.nodup_nil,rfl,Nat.zero_le _,by simp [QueueState.new],by simp [QueueState.new],List.nodup_nil,
    by simp [QueueState.new,residentsOf,markers],List.Pairwise.nil,List.Pairwise.nil,
    by simp [QueueState.new,residentsOf],by simp [QueueState.new,residentsOf]⟩

theorem key_lt {a b : Admission} : a.key<b.key ↔
    (a.lane=.high ∧ b.lane=.normal) ∨ (a.lane=b.lane ∧ a.ticket<b.ticket) := by
  unfold Admission.key
  rw [Prod.Lex.toLex_lt_toLex]
  cases a.lane with
  | high | normal =>
    cases b.lane with
    | high | normal => simp

theorem key_injective {a b : Admission} (h : a.key=b.key) : a=b := by
  unfold Admission.key at h
  have hpair:=toLex.injective h
  cases a with
  | mk lane ticket =>
    cases b with
    | mk lane' ticket' =>
      cases lane with
      | high =>
        cases lane' with
        | high => simpa using hpair
        | normal => simp at hpair
      | normal =>
        cases lane' with
        | high => simp at hpair
        | normal => simpa using hpair

theorem Sound.eq_of_ticket (h : Sound alive capacity s) {x y : Entry} (hx : x∈residentsOf s++s.markers)
    (hy : y∈residentsOf s++s.markers) (heq : x.admission.ticket=y.admission.ticket) : x=y :=
  List.inj_on_of_nodup_map h.tickets hx hy heq

structure Taken (alive : Alive) (s s' : QueueState) (e : Entry) : Prop where
  normal : s'.normal=s.normal
  high : s'.high=s.high
  nextTicket : s'.nextTicket=s.nextTicket
  closed : s'.closed=s.closed
  markers : s.markers.Perm (e::s'.markers)
  count : s'.deferredCount=s.deferredCount-1
  ids : (s'.registered.map Registration.mailbox).Nodup
  contains : ∀ id, alive id=true → s'.contains id=s.contains id

theorem markers_eq (s : QueueState) : s.markers=markersOf s.registered := rfl

theorem markers_take (hids : (s.registered.map Registration.mailbox).Nodup) (he : e∈s.markers) :
    s.markers.Perm (e::s.markers.filter fun x => x.mailbox != e.mailbox) := by
  have hnodup : (s.markers.map Entry.mailbox).Nodup := hids.sublist markersOf_sublist
  obtain ⟨l,m,heq⟩:=List.append_of_mem he
  rw [heq] at hnodup ⊢
  rw [List.map_append,map_cons,List.nodup_append,List.nodup_cons] at hnodup
  obtain ⟨-,⟨hright,-⟩,hleft⟩:=hnodup
  have hl : l.filter (fun x => x.mailbox != e.mailbox)=l := by
    rw [List.filter_eq_self]
    intro x hx
    rw [bne_iff_ne]
    exact hleft _ (List.mem_map_of_mem hx) _ (mem_cons_self ..)
  have hm : m.filter (fun x => x.mailbox != e.mailbox)=m := by
    rw [List.filter_eq_self]
    intro x hx
    rw [bne_iff_ne]
    intro heq
    exact hright (List.mem_map.mpr ⟨x,hx,heq⟩)
  rw [filter_append,filter_cons_of_neg (by simp),hl,hm]
  exact perm_middle

theorem contains_mark (s : QueueState) (id : ℕ) (d : Option Admission) (x : ℕ) : (s.mark id d).contains x=s.contains x := by
  unfold QueueState.contains QueueState.mark
  rw [List.any_map]
  congr 1
  funext r
  simp only [Function.comp]
  split
  · rfl
  · rfl

theorem ids_mark (s : QueueState) (id : ℕ) (d : Option Admission) :
    (s.mark id d).registered.map Registration.mailbox=s.registered.map Registration.mailbox := by
  unfold QueueState.mark
  rw [List.map_map]
  congr 1
  funext r
  simp only [Function.comp]
  split
  · rfl
  · rfl

theorem contains_remove {x : ℕ} (hne : x≠id) :
    (registered.filter fun r => r.mailbox != id).any (fun r => r.mailbox==x)=registered.any fun r => r.mailbox==x := by
  induction registered with
  | nil => rfl
  | cons r registered ih =>
    by_cases hr : r.mailbox=id
    · have hx : (r.mailbox==x)=false := by
        rw [beq_eq_false_iff_ne,hr]
        exact hne.symm
      rw [filter_cons_of_neg (by simp [hr]),any_cons,hx,Bool.false_or,ih]
    · rw [List.filter_cons_of_pos (by simp [hr]),any_cons,any_cons,ih]

theorem takeDeferred_spec (alive : Alive) (hids : (s.registered.map Registration.mailbox).Nodup) (he : e∈s.markers) :
    ∃ s', takeDeferred alive s e.mailbox=(if alive e.mailbox then some e else none,s') ∧ Taken alive s s' e := by
  have hmem:=mem_markersOf.mp he
  have hfind:=find_registration hids hmem
  have hperm:=markers_take hids he
  have hclear : (s.mark e.mailbox none).markers=s.markers.filter fun x => x.mailbox != e.mailbox :=
    markersOf_clear e.mailbox
  unfold takeDeferred
  rw [hfind]
  dsimp only
  cases halive : alive e.mailbox with
  | true =>
    refine ⟨_,rfl,rfl,rfl,rfl,rfl,?_,rfl,?_,fun id _ => contains_mark s e.mailbox none id⟩
    · rw [← hclear] at hperm
      exact hperm
    · show ((s.mark e.mailbox none).registered.map Registration.mailbox).Nodup
      rw [ids_mark]
      exact hids
  | false =>
    refine ⟨_,rfl,rfl,rfl,rfl,rfl,?_,rfl,?_,?_⟩
    · show s.markers.Perm (e::markersOf ((s.mark e.mailbox none).registered.filter fun r => r.mailbox != e.mailbox))
      rw [markersOf_remove,← markers_eq,hclear,List.filter_filter]
      simpa using hperm
    · show (((s.mark e.mailbox none).registered.filter fun r => r.mailbox != e.mailbox).map Registration.mailbox).Nodup
      have hsub:=((List.filter_sublist (p := fun r : Registration => r.mailbox != e.mailbox)
        (l := (s.mark e.mailbox none).registered)).map Registration.mailbox)
      refine List.Nodup.sublist hsub ?_
      rw [ids_mark]
      exact hids
    · intro id hid
      have hne : id≠e.mailbox := by
        intro heq
        rw [heq,halive] at hid
        contradiction
      exact (contains_remove hne).trans (contains_mark s e.mailbox none id)

section
variable (h : Taken alive s s' e)
include h

theorem Taken.residents : residentsOf s'=residentsOf s := by
  rw [residentsOf,residentsOf,h.normal,h.high]

theorem Taken.subset : s'.markers⊆s.markers := fun _ hx =>
  h.markers.symm.subset (mem_cons_of_mem e hx)

theorem Taken.mem : e∈s.markers := h.markers.symm.subset (mem_cons_self ..)

theorem Taken.perm : (residentsOf s++s.markers).Perm (e::(residentsOf s'++s'.markers)) := by
  rw [h.residents]
  exact (h.markers.append_left _).trans perm_middle

theorem Taken.sound (hs : Sound alive capacity s) : Sound alive capacity s' := by
  have hnodup : ((e::(residentsOf s'++s'.markers)).map fun e => e.admission.ticket).Nodup :=
    (h.perm.map _).nodup_iff.mp hs.tickets
  refine ⟨h.ids,?_,?_,?_,?_,(List.nodup_cons.mp hnodup).2,?_,?_,?_,?_,?_⟩
  · rw [h.count,hs.count,h.markers.length_eq]
    rfl
  · rw [QueueState.len,h.normal,h.high]
    exact hs.bounded
  · rw [h.high]
    exact hs.high_lane
  · rw [h.normal]
    exact hs.normal_lane
  · intro x hx
    rw [h.nextTicket]
    exact hs.issued x (h.perm.symm.subset (mem_cons_of_mem e hx))
  · rw [h.high]
    exact hs.high_sorted
  · rw [h.normal]
    exact hs.normal_sorted
  · intro x hx m hm
    rw [h.residents] at hx
    exact hs.behind x hx m (h.subset hm)
  · rw [h.residents]
    exact hs.held

theorem Taken.pending :
    (pendingOf alive s).Perm (if alive e.mailbox then e::pendingOf alive s' else pendingOf alive s') := by
  have hfilter:=h.markers.filter fun x => alive x.mailbox
  unfold pendingOf
  rw [h.residents]
  split
  · rename_i halive
    rw [List.filter_cons_of_pos (p := fun x : Entry => alive x.mailbox) halive] at hfilter
    exact (hfilter.append_left _).trans perm_middle
  · rename_i halive
    rw [filter_cons_of_neg (p := fun x : Entry => alive x.mailbox) halive] at hfilter
    exact hfilter.append_left _

end

theorem oldestDeferred_some (h : s.oldestDeferred=some e) :
    e∈s.markers ∧ ∀ m∈s.markers, e.admission.key ≤ m.admission.key := by
  unfold oldestDeferred at h
  split at h
  · contradiction
  · exact ⟨List.argmin_mem h,fun m hm => List.le_of_mem_argmin (f := fun x : Entry => x.admission.key) hm h⟩

theorem oldestDeferred_none (hs : Sound alive capacity s) (h : s.oldestDeferred=none) : s.markers=[] := by
  unfold oldestDeferred at h
  split at h
  · rename_i hzero
    rw [hs.count] at hzero
    exact List.length_eq_zero_iff.mp hzero
  · exact List.argmin_eq_none.mp h

theorem append_cases (s : QueueState) (e : Entry) :
    (e.admission.lane=.high ∧ s.append e={s with high:=s.high++[e]}) ∨
    (e.admission.lane=.normal ∧ s.append e={s with normal:=s.normal++[e]}) := by
  unfold QueueState.append
  cases e.admission.lane with
  | high => exact .inl ⟨rfl,rfl⟩
  | normal => exact .inr ⟨rfl,rfl⟩

theorem append_residents (s : QueueState) (e : Entry) : (residentsOf (s.append e)).Perm (e::residentsOf s) := by
  rcases append_cases s e with ⟨-,heq⟩ | ⟨-,heq⟩
  · rw [heq]
    show ((s.high++[e])++s.normal).Perm (e::(s.high++s.normal))
    rw [List.append_assoc]
    exact perm_middle
  · rw [heq]
    show (s.high++(s.normal++[e])).Perm (e::(s.high++s.normal))
    rw [← List.append_assoc]
    exact List.perm_append_singleton e _

theorem append_frame (s : QueueState) (e : Entry) : (s.append e).registered=s.registered ∧
    (s.append e).deferredCount=s.deferredCount ∧ (s.append e).nextTicket=s.nextTicket ∧
    (s.append e).closed=s.closed ∧ (s.append e).len=s.len+1 := by
  rcases append_cases s e with ⟨-,heq⟩ | ⟨-,heq⟩
  · rw [heq]
    refine ⟨rfl,rfl,rfl,rfl,?_⟩
    simp only [QueueState.len,List.length_append,List.length_singleton]
    omega
  · rw [heq]
    refine ⟨rfl,rfl,rfl,rfl,?_⟩
    simp only [QueueState.len,List.length_append,List.length_singleton]
    omega

theorem append_markers (s : QueueState) (e : Entry) : (s.append e).markers=s.markers := by
  rw [markers_eq,(append_frame s e).1]
  rfl

theorem append_sound (hs : Sound alive capacity s) (hroom : s.len<capacity) (halive : alive e.mailbox=true)
    (hissued : e.admission.ticket<s.nextTicket)
    (hbefore : ∀ x∈residentsOf s, x.admission.lane=e.admission.lane → x.admission.ticket<e.admission.ticket)
    (hafter : ∀ m∈s.markers, e.admission.lane=m.admission.lane → e.admission.ticket < m.admission.ticket)
    (hnew : ∀ x∈residentsOf s++s.markers, x.admission.ticket≠e.admission.ticket) :
    Sound alive capacity (s.append e) := by
  have hperm:=append_residents s e
  have hmarkers:=append_markers s e
  obtain ⟨hreg,hcount,hticket,-,hlen⟩:=append_frame s e
  refine ⟨?_,?_,?_,?_,?_,?_,?_,?_,?_,?_,?_⟩
  · rw [hreg]
    exact hs.ids
  · rw [hcount,hmarkers]
    exact hs.count
  · rw [hlen]
    exact hroom
  · rcases append_cases s e with ⟨hlane,heq⟩ | ⟨-,heq⟩
    · rw [heq]
      intro x hx
      rcases List.mem_append.mp hx with hx | hx
      · exact hs.high_lane x hx
      · rw [List.mem_singleton.mp hx]
        exact hlane
    · rw [heq]
      exact hs.high_lane
  · rcases append_cases s e with ⟨-,heq⟩ | ⟨hlane,heq⟩
    · rw [heq]
      exact hs.normal_lane
    · rw [heq]
      intro x hx
      rcases List.mem_append.mp hx with hx | hx
      · exact hs.normal_lane x hx
      · rw [List.mem_singleton.mp hx]
        exact hlane
  · have hall : (residentsOf (s.append e)++(s.append e).markers).Perm (e::(residentsOf s++s.markers)) := by
      rw [hmarkers]
      exact hperm.append_right _
    rw [(hall.map _).nodup_iff,map_cons,List.nodup_cons]
    refine ⟨?_,hs.tickets⟩
    intro hmem
    obtain ⟨x,hx,heq⟩:=List.mem_map.mp hmem
    exact hnew x hx heq
  · intro x hx
    rw [hticket]
    rw [hmarkers] at hx
    rcases List.mem_cons.mp ((hperm.append_right s.markers).subset hx) with rfl | hx
    · exact hissued
    · exact hs.issued x hx
  · rcases append_cases s e with ⟨hlane,heq⟩ | ⟨-,heq⟩
    · rw [heq]
      refine List.pairwise_append.mpr ⟨hs.high_sorted,List.pairwise_singleton _ _,fun x hx y hy => ?_⟩
      rw [List.mem_singleton.mp hy]
      exact hbefore x (List.mem_append_left _ hx) ((hs.high_lane x hx).trans hlane.symm)
    · rw [heq]
      exact hs.high_sorted
  · rcases append_cases s e with ⟨-,heq⟩ | ⟨hlane,heq⟩
    · rw [heq]
      exact hs.normal_sorted
    · rw [heq]
      refine List.pairwise_append.mpr ⟨hs.normal_sorted,List.pairwise_singleton _ _,fun x hx y hy => ?_⟩
      rw [List.mem_singleton.mp hy]
      exact hbefore x (List.mem_append_right _ hx) ((hs.normal_lane x hx).trans hlane.symm)
  · intro x hx m hm hlane
    rw [hmarkers] at hm
    rcases List.mem_cons.mp (hperm.subset hx) with rfl | hx
    · exact hafter m hm hlane
    · exact hs.behind x hx m hm hlane
  · intro x hx
    rcases List.mem_cons.mp (hperm.subset hx) with rfl | hx
    · exact halive
    · exact hs.held x hx

theorem promote_sound (hs : Sound alive capacity s) (htaken : Taken alive s s' e) (hroom : s.len<capacity)
    (halive : alive e.mailbox=true) (holdest : ∀ m∈s.markers, e.admission.key ≤ m.admission.key) :
    Sound alive capacity (s'.append e) := by
  have hnodup : ((e::(residentsOf s'++s'.markers)).map fun e => e.admission.ticket).Nodup :=
    (htaken.perm.map _).nodup_iff.mp hs.tickets
  have hfresh:=(List.nodup_cons.mp hnodup).1
  have hnew : ∀ x∈residentsOf s'++s'.markers, x.admission.ticket≠e.admission.ticket := by
    intro x hx heq
    exact hfresh (List.mem_map.mpr ⟨x,hx,heq⟩)
  refine append_sound (htaken.sound hs) ?_ halive ?_ ?_ ?_ hnew
  · rw [QueueState.len,htaken.normal,htaken.high]
    exact hroom
  · rw [htaken.nextTicket]
    exact hs.issued e (List.mem_append_right _ htaken.mem)
  · intro x hx hlane
    rw [htaken.residents] at hx
    exact hs.behind x hx e htaken.mem hlane
  · intro m hm hlane
    have hne:=hnew m (List.mem_append_right _ hm)
    have hle:=holdest m (htaken.subset hm)
    have hnot : ¬ m.admission.key<e.admission.key := not_lt.mpr hle
    rw [key_lt] at hnot
    have : ¬ m.admission.ticket<e.admission.ticket := fun hlt => hnot (.inr ⟨hlane.symm,hlt⟩)
    omega

theorem promote_pending (htaken : Taken alive s s' e) (halive : alive e.mailbox=true) :
    (pendingOf alive (s'.append e)).Perm (pendingOf alive s) := by
  have hpending:=htaken.pending
  rw [if_pos halive] at hpending
  refine List.Perm.trans ?_ hpending.symm
  unfold pendingOf
  rw [append_markers]
  exact (append_residents s' e).append_right _

structure Refilled (alive : Alive) (capacity : ℕ) (s s' : QueueState) : Prop where
  sound : Sound alive capacity s'
  full : Full capacity s'
  pending : (pendingOf alive s').Perm (pendingOf alive s)
  nextTicket : s'.nextTicket=s.nextTicket
  closed : s'.closed=s.closed
  contains : ∀ id, alive id=true → s'.contains id=s.contains id
  markers : s'.markers⊆s.markers

section
variable (hs : Sound alive capacity s)
include hs

theorem refilled_self (hfull : Full capacity s) : Refilled alive capacity s s :=
  ⟨hs,hfull,List.Perm.refl _,rfl,rfl,fun _ _ => rfl,List.Subset.refl _⟩

theorem refillLoop_spec {turns : ℕ} (hturns : s.markers.length≤turns) :
    Refilled alive capacity s (refillLoop alive capacity turns s) := by
  induction turns generalizing s with
  | zero =>
    have hnil : s.markers=[] := List.length_eq_zero_iff.mp (Nat.le_zero.mp hturns)
    exact refilled_self hs fun hne => absurd hnil hne
  | succ turns ih =>
    unfold refillLoop
    split
    · rename_i hroom
      cases hold : s.oldestDeferred with
      | none => exact refilled_self hs fun hne => absurd (oldestDeferred_none hs hold) hne
      | some e =>
        obtain ⟨hmem,holdest⟩:=oldestDeferred_some hold
        obtain ⟨s',htake,htaken⟩:=takeDeferred_spec alive hs.ids hmem
        have hfewer : s'.markers.length≤turns := by
          have hlen:=htaken.markers.length_eq
          rw [List.length_cons] at hlen
          omega
        dsimp only
        rw [htake]
        cases halive : alive e.mailbox with
        | true =>
          have hsound:=promote_sound hs htaken hroom halive holdest
          have hloop:=ih hsound (by rw [append_markers]; exact hfewer)
          obtain ⟨hreg,-,hticket,hclosed,-⟩:=append_frame s' e
          refine ⟨hloop.sound,hloop.full,hloop.pending.trans (promote_pending htaken halive),
            hloop.nextTicket.trans (hticket.trans htaken.nextTicket),hloop.closed.trans (hclosed.trans htaken.closed),?_,?_⟩
          · intro id hid
            have hsame : (s'.append e).contains id=s'.contains id := by rw [QueueState.contains,hreg]; rfl
            exact (hloop.contains id hid).trans (hsame.trans (htaken.contains id hid))
          · intro x hx
            have hx:=hloop.markers hx
            rw [append_markers] at hx
            exact htaken.subset hx
        | false =>
          have hpending:=htaken.pending
          rw [if_neg (by rw [halive]; decide)] at hpending
          have hloop:=ih (htaken.sound hs) hfewer
          exact ⟨hloop.sound,hloop.full,hloop.pending.trans hpending.symm,hloop.nextTicket.trans htaken.nextTicket,
            hloop.closed.trans htaken.closed,fun id hid => (hloop.contains id hid).trans (htaken.contains id hid),
            fun x hx => htaken.subset (hloop.markers hx)⟩
    · rename_i hroom
      exact refilled_self hs fun _ => not_lt.mp hroom

theorem refill_spec : Refilled alive capacity s (s.refill alive capacity) :=
  refillLoop_spec hs (List.length_filterMap_le _ _)

theorem front_some {f : Entry} (h : s.front=some f) :
    (residentsOf s).Perm (f::residentsOf s.popFront) ∧ ∀ x∈residentsOf s, f.admission.key≤x.admission.key := by
  unfold QueueState.front at h
  unfold QueueState.popFront
  cases hhigh : s.high with
  | cons x rest =>
    rw [hhigh] at h
    cases (Option.some.inj h : x=f)
    refine ⟨by rw [residentsOf,hhigh]; exact List.Perm.refl _,?_⟩
    intro y hy
    have hx:=hs.high_lane f (by rw [hhigh]; exact mem_cons_self ..)
    rw [residentsOf,hhigh] at hy
    rcases List.mem_append.mp hy with hy | hy
    · rcases List.mem_cons.mp hy with rfl | hy
      · exact le_rfl
      · have hsorted:=hs.high_sorted
        rw [hhigh] at hsorted
        have hlane:=hs.high_lane y (by rw [hhigh]; exact mem_cons_of_mem _ hy)
        exact (key_lt.mpr (.inr ⟨hx.trans hlane.symm,(List.pairwise_cons.mp hsorted).1 y hy⟩)).le
    · exact (key_lt.mpr (.inl ⟨hx,hs.normal_lane y hy⟩)).le
  | nil =>
    rw [hhigh] at h
    cases hnormal : s.normal with
    | nil =>
      rw [hnormal] at h
      contradiction
    | cons x rest =>
      rw [hnormal] at h
      cases (Option.some.inj h : x=f)
      refine ⟨by rw [residentsOf,hhigh,hnormal]; exact List.Perm.refl _,?_⟩
      intro y hy
      rw [residentsOf,hhigh,hnormal] at hy
      rcases List.mem_cons.mp hy with rfl | hy
      · exact le_rfl
      · have hsorted:=hs.normal_sorted
        rw [hnormal] at hsorted
        have hx:=hs.normal_lane f (by rw [hnormal]; exact mem_cons_self ..)
        have hlane:=hs.normal_lane y (by rw [hnormal]; exact mem_cons_of_mem _ hy)
        exact (key_lt.mpr (.inr ⟨hx.trans hlane.symm,(List.pairwise_cons.mp hsorted).1 y hy⟩)).le

end

theorem front_none (h : s.front=none) : residentsOf s=[] := by
  unfold QueueState.front at h
  unfold residentsOf
  cases hhigh : s.high with
  | nil =>
    rw [hhigh] at h
    cases hnormal : s.normal with
    | nil => rfl
    | cons x rest =>
      rw [hnormal] at h
      contradiction
  | cons x rest =>
    rw [hhigh] at h
    contradiction

theorem popFront_cases (s : QueueState) : s.popFront.high.Sublist s.high ∧ s.popFront.normal.Sublist s.normal ∧
    s.popFront.registered=s.registered ∧ s.popFront.deferredCount=s.deferredCount ∧
    s.popFront.nextTicket=s.nextTicket ∧ s.popFront.closed=s.closed := by
  unfold QueueState.popFront
  split
  · rename_i x rest hhigh
    rw [hhigh]
    exact ⟨List.sublist_cons_self x rest,List.Sublist.refl _,rfl,rfl,rfl,rfl⟩
  · exact ⟨List.Sublist.refl _,List.tail_sublist _,rfl,rfl,rfl,rfl⟩

theorem Sound.sublist (hs : Sound alive capacity s) (hhigh : s'.high.Sublist s.high) (hnormal : s'.normal.Sublist s.normal)
    (hids : (s'.registered.map Registration.mailbox).Nodup) (hmarkers : s'.markers.Sublist s.markers)
    (hcount : s'.deferredCount=s'.markers.length) (hticket : s'.nextTicket=s.nextTicket) :
    Sound alive capacity s' := by
  have hresidents : (residentsOf s').Sublist (residentsOf s) := hhigh.append hnormal
  have hall:=hresidents.append hmarkers
  refine ⟨hids,hcount,?_,fun e he => hs.high_lane e (hhigh.subset he),fun e he => hs.normal_lane e (hnormal.subset he),
    List.Nodup.sublist (hall.map _) hs.tickets,?_,hs.high_sorted.sublist hhigh,hs.normal_sorted.sublist hnormal,?_,?_⟩
  · have h1:=hhigh.length_le
    have h2:=hnormal.length_le
    have h3:=hs.bounded
    unfold QueueState.len at h3 ⊢
    omega
  · intro e he
    rw [hticket]
    exact hs.issued e (hall.subset he)
  · intro e he m hm
    exact hs.behind e (hresidents.subset he) m (hmarkers.subset hm)
  · intro e he
    exact hs.held e (hresidents.subset he)

theorem popFront_sound (hs : Sound alive capacity s) : Sound alive capacity s.popFront := by
  obtain ⟨hhigh,hnormal,hreg,hcount,hticket,-⟩:=popFront_cases s
  have hmarkers : s.popFront.markers=s.markers := congrArg markersOf hreg
  refine hs.sublist hhigh hnormal ?_ ?_ ?_ hticket
  · rw [hreg]
    exact hs.ids
  · rw [hmarkers]
  · rw [hcount,hmarkers]
    exact hs.count

inductive Popped (alive : Alive) (capacity : ℕ) (s s' : QueueState) : Option ℕ → Prop where
  | none (hempty : pendingOf alive s=[]) (hempty' : pendingOf alive s'=[]) : Popped alive capacity s s' none
  | some {e : Entry} (hperm : (pendingOf alive s).Perm (e::pendingOf alive s'))
      (hfirst : ∀ x∈pendingOf alive s, e.admission.key≤x.admission.key) : Popped alive capacity s s' (some e.mailbox)

structure PopSpec (alive : Alive) (capacity : ℕ) (s s' : QueueState) : Prop where
  sound : Sound alive capacity s'
  full : Full capacity s'
  nextTicket : s'.nextTicket=s.nextTicket
  closed : s'.closed=s.closed
  contains : ∀ id, alive id=true → s'.contains id=s.contains id

theorem pending_markers {x : Entry} (hx : x∈pendingOf alive s) : x∈residentsOf s ∨ x∈s.markers := by
  rcases List.mem_append.mp hx with hx | hx
  · exact .inl hx
  · exact .inr (List.mem_filter.mp hx).1

theorem tryPopLoop_spec {turns : ℕ} (hs : Sound alive capacity s) (hfull : Full capacity s)
    (hturns : s.markers.length<turns) : ∃ r s', tryPopLoop alive capacity turns s=(r,s') ∧
      Popped alive capacity s s' r ∧ PopSpec alive capacity s s' := by
  induction turns generalizing s with
  | zero => omega
  | succ turns ih =>
    unfold tryPopLoop
    dsimp only
    cases hdef : s.oldestDeferred.filter fun e => s.front.all fun f => decide (e.admission.key<f.admission.key) with
    | some e =>
      obtain ⟨hold,hbefore⟩:=Option.filter_eq_some_iff.mp hdef
      obtain ⟨hmem,holdest⟩:=oldestDeferred_some hold
      obtain ⟨s1,htake,htaken⟩:=takeDeferred_spec alive hs.ids hmem
      have hpending:=htaken.pending
      dsimp only
      rw [htake]
      cases halive : alive e.mailbox with
      | false =>
        -- A dead mailbox is dropped, and the loop looks again.
        rw [if_neg (by rw [halive]; decide)] at hpending
        have hfull1 : Full capacity s1 := by
          intro hne
          have hroom:=hfull fun hnil => hne (List.eq_nil_of_subset_nil (hnil ▸ htaken.subset))
          rw [QueueState.len,htaken.normal,htaken.high]
          exact hroom
        have hfewer : s1.markers.length<turns := by
          have hlen:=htaken.markers.length_eq
          rw [List.length_cons] at hlen
          omega
        obtain ⟨r,s',hloop,hpopped,hspec⟩:=ih (htaken.sound hs) hfull1 hfewer
        refine ⟨r,s',hloop,?_,hspec.sound,hspec.full,hspec.nextTicket.trans htaken.nextTicket,
          hspec.closed.trans htaken.closed,fun id hid => (hspec.contains id hid).trans (htaken.contains id hid)⟩
        cases hpopped with
        | none hempty hempty' =>
          rw [hempty] at hpending
          exact .none hpending.eq_nil hempty'
        | some hperm hfirst => exact .some (hpending.trans hperm) fun x hx => hfirst x (hpending.subset hx)
      | true =>
        rw [if_pos halive] at hpending
        have hrefill:=refill_spec (htaken.sound hs)
        refine ⟨_,_,rfl,.some (hpending.trans (hrefill.pending.symm.cons e)) ?_,hrefill.sound,hrefill.full,
          hrefill.nextTicket.trans htaken.nextTicket,hrefill.closed.trans htaken.closed,
          fun id hid => (hrefill.contains id hid).trans (htaken.contains id hid)⟩
        intro x hx
        rcases pending_markers hx with hx | hx
        · cases hfront : s.front with
          | none =>
            rw [front_none hfront] at hx
            contradiction
          | some f =>
            rw [hfront] at hbefore
            exact (of_decide_eq_true hbefore).le.trans ((front_some hs hfront).2 x hx)
        · exact holdest x hx
    | none =>
      cases hfront : s.front with
      | none =>
        have hnil : s.markers=[] := by
          cases hold : s.oldestDeferred with
          | none => exact oldestDeferred_none hs hold
          | some e =>
            rw [hold,hfront] at hdef
            contradiction
        have hempty : pendingOf alive s=[] := by
          rw [pendingOf,front_none hfront,hnil]
          rfl
        exact ⟨none,s,rfl,.none hempty hempty,hs,hfull,rfl,rfl,fun _ _ => rfl⟩
      | some f =>
        obtain ⟨hperm,hfirst⟩:=front_some hs hfront
        obtain ⟨-,-,hreg,-,hticket,hclosed⟩:=popFront_cases s
        have hrefill:=refill_spec (popFront_sound hs)
        have hpending : (pendingOf alive s).Perm (f::pendingOf alive s.popFront) := by
          have hmarkers : s.popFront.markers=s.markers := congrArg markersOf hreg
          unfold pendingOf
          rw [hmarkers]
          exact hperm.append_right _
        refine ⟨_,_,rfl,.some (hpending.trans (hrefill.pending.symm.cons f)) ?_,hrefill.sound,hrefill.full,
          hrefill.nextTicket.trans hticket,hrefill.closed.trans hclosed,fun id hid => ?_⟩
        · intro x hx
          rcases pending_markers hx with hx | hx
          · exact hfirst x hx
          · cases hold : s.oldestDeferred with
            | none =>
              rw [oldestDeferred_none hs hold] at hx
              contradiction
            | some e =>
              rw [hold,hfront] at hdef
              have hnot : ¬ e.admission.key<f.admission.key := by simpa using hdef
              exact (not_lt.mp hnot).trans ((oldestDeferred_some hold).2 x hx)
        · have hsame : s.popFront.contains id=s.contains id := by rw [QueueState.contains,hreg]; rfl
          exact (hrefill.contains id hid).trans hsame

theorem tryPop_spec (hs : Sound alive capacity s) (hfull : Full capacity s) : ∃ r s', tryPop alive capacity s=(r,s') ∧
    Popped alive capacity s s' r ∧ PopSpec alive capacity s s' :=
  tryPopLoop_spec hs hfull (Nat.lt_succ_of_le (List.length_filterMap_le _ _))

end Parrot.Scheduler
