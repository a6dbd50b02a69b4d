import Parrot.Discovery.Gateway

/-! # What an operation changes and what it says

Each operation on the table gives events, and replaying the events of a key over the
paths the key had gives the paths it has. -/

namespace Parrot.Discovery
open List (map_map mem_append mem_filter mem_of_mem_filter)
open Machine Feed

def ReceptionistEvent.change : ReceptionistEvent → Change String
  | .registered _ path => .added path
  | .unregistered _ path => .removed path

def feed (key : String) (events : List ReceptionistEvent) : List (Change String) :=
  (events.filter fun ev => ev.key.str=key).map ReceptionistEvent.change

theorem feed_append (key : String) (a b : List ReceptionistEvent) : feed key (a++b)=feed key a++feed key b := by
  rw [feed,List.filter_append,List.map_append]
  rfl

namespace Entries

variable {t t' : Entries} {key : String} {e : ReceptionistEntry}

def paths (t : Entries) (key : String) : Finset String :=
  ((t.list key).map ReceptionistEntry.remotePath).toFinset

structure Shaped (t : Entries) : Prop where
  nonempty : ∀ key, t key≠some []
  keyed : ∀ key, ∀ e∈t.list key, e.key.str=key
  distinct : ∀ key, (t.list key).Nodup

structure Good (t : Entries) : Prop extends Shaped t where
  addressed : ∀ key, ∀ e∈t.list key, (split e.remotePath).map Prod.fst=some e.node

theorem entry_ext {a b : ReceptionistEntry} (hkey : a.key.str=b.key.str) (hpath : a.remotePath=b.remotePath)
    (hnode : a.node=b.node) : a=b := by
  obtain ⟨⟨ka,la⟩,pa,na⟩:=a
  obtain ⟨⟨kb,lb⟩,pb,nb⟩:=b
  obtain rfl : ka=kb := hkey
  obtain rfl : pa=pb := hpath
  obtain rfl : na=nb := hnode
  rfl

theorem Good.paths_nodup (h : Good t) (key : String) : ((t.list key).map ReceptionistEntry.remotePath).Nodup := by
  apply List.Nodup.map_on _ (h.distinct key)
  intro a ha b hb hpath
  have hnode : some a.node=some b.node := by
    rw [← h.addressed key a ha,← h.addressed key b hb,hpath]
  exact entry_ext ((h.keyed key a ha).trans (h.keyed key b hb).symm) hpath (Option.some.inj hnode)

theorem list_update (t : Entries) (key k : String) (o : Option (List ReceptionistEntry)) :
    list (Function.update t key o) k=if k=key then o.getD [] else t.list k := by
  unfold list
  by_cases h : k=key
  · rw [h,Function.update_self,if_pos rfl]
  · rw [Function.update_of_ne h,if_neg h]

variable (l : List ReceptionistEntry)

theorem getD_nonempty : (nonempty l).getD []=l := by
  unfold nonempty
  split
  · next h => exact h.symm
  · rfl

theorem nonempty_ne : nonempty l≠some [] := by
  unfold nonempty
  split
  · exact (Option.some_ne_none _).symm
  · next h => exact fun heq => h (Option.some.inj heq)

def Tracks (t t' : Entries) (events : List ReceptionistEvent) : Prop :=
  ∀ key, replay (t.paths key) (feed key events)=t'.paths key

theorem Tracks.trans {a b c : Entries} {x y : List ReceptionistEvent} (h : Tracks a b x) (h' : Tracks b c y) :
    Tracks a c (x++y) := by
  intro key
  rw [feed_append,replay_append,h key,h' key]

theorem Tracks.nil (t : Entries) : Tracks t t [] := fun _ => rfl

theorem feed_registered (key : String) (l : List ReceptionistEntry) : feed key (l.map ReceptionistEntry.registered) =
    ((l.filter fun e => e.key.str=key).map ReceptionistEntry.remotePath).map .added := by
  rw [feed,List.filter_map,map_map,map_map]
  rfl

theorem feed_unregistered (key : String) (l : List ReceptionistEntry) :
    feed key (l.map ReceptionistEntry.unregistered) =
      ((l.filter fun e => e.key.str=key).map ReceptionistEntry.remotePath).map .removed := by
  rw [feed,List.filter_map,map_map,map_map]
  rfl

theorem list_push (t : Entries) (e : ReceptionistEntry) (key : String) :
    (t.push e).list key=t.list key++[e].filter fun e => e.key.str=key := by
  rw [push,list_update]
  by_cases h : key=e.key.str
  · simp [h]
  · simp [h,Ne.symm h]

theorem push_shaped (h : Shaped t) (hnew : e∉t.list e.key.str) : Shaped (t.push e) := by
  constructor
  · intro key heq
    have hlist : (t.push e).list key=[] := by rw [list,heq]; rfl
    rw [list_push] at hlist
    obtain ⟨hnil,hone⟩:=List.append_eq_nil_iff.mp hlist
    have hkey : key≠e.key.str := by
      rintro rfl
      simp at hone
    rw [push,Function.update_of_ne hkey] at heq
    exact h.nonempty key heq
  · intro key x hx
    rw [list_push,mem_append,mem_filter] at hx
    rcases hx with hx | hx
    · exact h.keyed key x hx
    · exact of_decide_eq_true hx.2
  · intro key
    rw [list_push]
    apply (h.distinct key).append ((List.nodup_singleton e).filter _)
    intro x hx hx'
    obtain ⟨hx',hkey⟩:=List.mem_filter.mp hx'
    rw [List.mem_singleton.mp hx'] at hx hkey
    rw [← of_decide_eq_true hkey] at hx
    exact hnew hx

theorem push_good (h : Good t) (hnew : e∉t.list e.key.str) (haddr : (split e.remotePath).map Prod.fst=some e.node) :
    Good (t.push e) := by
  refine ⟨push_shaped h.toShaped hnew,?_⟩
  intro key x hx
  rw [list_push,mem_append,mem_filter] at hx
  rcases hx with hx | ⟨hx,-⟩
  · exact h.addressed key x hx
  · rw [List.mem_singleton.mp hx]
    exact haddr

theorem push_tracks (t : Entries) (e : ReceptionistEntry) : Tracks t (t.push e) [e.registered] := by
  intro key
  have hfeed:=feed_registered key [e]
  rw [List.map_singleton] at hfeed
  rw [hfeed,replay_added,paths,paths,list_push,List.map_append]
  ext path
  simp only [Finset.mem_union,List.mem_toFinset,mem_append]

theorem list_foldl_push (t : Entries) (key : String) :
    (l.foldl push t).list key=t.list key++l.filter fun e => e.key.str=key := by
  induction l generalizing t with
  | nil => exact (List.append_nil _).symm
  | cons e l ih =>
    rw [List.foldl_cons,ih,list_push,List.append_assoc,← List.filter_append]
    rfl

theorem foldl_push_tracks (t : Entries) : Tracks t (l.foldl push t) (l.map ReceptionistEntry.registered) := by
  induction l generalizing t with
  | nil => exact .nil t
  | cons e l ih => exact (push_tracks t e).trans (ih (t.push e))

theorem not_mem_push {x : ReceptionistEntry} (hx : x∉t.list x.key.str) (hne : x≠e) : x∉(t.push e).list x.key.str := by
  rw [list_push,mem_append,mem_filter]
  rintro (h | ⟨h,-⟩)
  · exact hx h
  · exact hne (List.mem_singleton.mp h)

theorem foldl_push_shaped {l : List ReceptionistEntry} (h : Shaped t) (hl : l.Nodup)
    (hnew : ∀ e∈l, e∉t.list e.key.str) : Shaped (l.foldl push t) := by
  induction l generalizing t with
  | nil => exact h
  | cons e l ih =>
    obtain ⟨he,hl⟩:=List.nodup_cons.mp hl
    apply ih (push_shaped h (hnew e (List.mem_cons_self ..))) hl
    intro x hx
    exact not_mem_push (hnew x (List.mem_cons_of_mem _ hx)) (ne_of_mem_of_not_mem hx he)

theorem retain_key (t : Entries) (keep : ReceptionistEntry → Bool) (order : List String) (key : String) :
    (t.retain keep order).1 key=nonempty ((t.list key).filter keep) := by
  rw [retain,list]
  dsimp only
  cases t key with
  | none => rfl
  | some l => rfl

theorem list_retain (t : Entries) (keep : ReceptionistEntry → Bool) (order : List String) (key : String) :
    (t.retain keep order).1.list key=(t.list key).filter keep := by
  rw [list,retain_key,getD_nonempty]

theorem retain_shaped (h : Shaped t) (keep : ReceptionistEntry → Bool) (order : List String) :
    Shaped (t.retain keep order).1 := by
  constructor
  · intro key heq
    rw [retain_key] at heq
    exact nonempty_ne _ heq
  · intro key e he
    rw [list_retain] at he
    exact h.keyed key e (mem_of_mem_filter he)
  · intro key
    rw [list_retain]
    exact (h.distinct key).filter _

theorem retain_good (h : Good t) (keep : ReceptionistEntry → Bool) (order : List String) :
    Good (t.retain keep order).1 := by
  refine ⟨retain_shaped h.toShaped keep order,?_⟩
  intro key e he
  rw [list_retain] at he
  exact h.addressed key e (mem_of_mem_filter he)

theorem update_shaped (h : Shaped t) (key : String) (keep : ReceptionistEntry → Bool) :
    Shaped (Function.update t key (nonempty ((t.list key).filter keep))) := by
  constructor
  · intro k heq
    by_cases hk : k=key
    · rw [hk,Function.update_self] at heq
      exact nonempty_ne _ heq
    · rw [Function.update_of_ne hk] at heq
      exact h.nonempty k heq
  · intro k e he
    rw [list_update] at he
    split at he
    · next hk =>
      rw [getD_nonempty] at he
      rw [hk]
      exact h.keyed key e (mem_of_mem_filter he)
    · exact h.keyed k e he
  · intro k
    rw [list_update]
    split
    · rw [getD_nonempty]
      exact (h.distinct key).filter _
    · exact h.distinct k

theorem feed_retain (h : Shaped t) (keep : ReceptionistEntry → Bool) {order : List String}
    (horder : System.Keys t order) (key : String) : feed key (t.retain keep order).2 =
    (((t.list key).filter fun e => !keep e).map ReceptionistEntry.remotePath).map .removed := by
  have hone : ∀ k, feed key (((t.list k).filter fun e => !keep e).map ReceptionistEntry.unregistered) =
      if k=key then (((t.list key).filter fun e => !keep e).map ReceptionistEntry.remotePath).map .removed
      else [] := by
    intro k
    rw [feed_unregistered]
    split
    · next hk =>
      rw [hk,List.filter_eq_self.mpr]
      intro e he
      exact decide_eq_true (h.keyed key e (mem_of_mem_filter he))
    · next hk =>
      rw [List.filter_eq_nil_iff.mpr]
      · rfl
      · intro e he heq
        exact hk ((h.keyed k e (mem_of_mem_filter he)).symm.trans (of_decide_eq_true heq))
  have hflat : feed key (t.retain keep order).2=order.flatMap fun k =>
      feed key (((t.list k).filter fun e => !keep e).map ReceptionistEntry.unregistered) := by
    simp only [feed,retain,List.filter_flatMap,List.map_flatMap]
  rw [hflat,flatMap_single (a := key) horder.1]
  · rw [hone,if_pos rfl]
  · intro k _ hk
    rw [hone,if_neg hk]
  · intro habsent
    have hnone : t key=none := by
      cases hk : t key with
      | none => rfl
      | some l => exact absurd (horder.2 key (by rw [hk]; rfl)) habsent
    rw [hone,if_pos rfl,list,hnone]
    rfl

theorem retain_tracks (h : Good t) (keep : ReceptionistEntry → Bool) {order : List String}
    (horder : System.Keys t order) : Tracks t (t.retain keep order).1 (t.retain keep order).2 := by
  intro key
  rw [feed_retain h.toShaped keep horder,replay_removed,paths,paths,list_retain]
  exact (names_filter (h.paths_nodup key) keep).symm

end Entries

end Parrot.Discovery
