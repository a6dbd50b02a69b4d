import Parrot.Discovery.Changes

/-! # Merging a snapshot

The walk consumes the set of pending entries as it goes, and what is left of the set is added.
-/

namespace Parrot.Discovery
open List (filter_congr filter_filter mem_cons mem_filter)
open Machine Feed

namespace Entries

variable {t : Entries} {«from» : String} {pending : List ReceptionistEntry}

def keeps («from» : String) (pending : List ReceptionistEntry) (e : ReceptionistEntry) : Bool :=
  decide (e.node≠«from»)||decide (e∈pending)

variable {l : List ReceptionistEntry}

theorem retainSync_eq (hl : l.Nodup) (hp : pending.Nodup) (hfrom : ∀ e∈pending, e.node=«from») :
    retainSync «from» l pending=(l.filter (keeps «from» pending),pending.filter (fun e => e∉l),
    (l.filter fun e => !keeps «from» pending e).map ReceptionistEntry.unregistered) := by
  induction l generalizing pending with
  | nil => simp [retainSync]
  | cons e l ih =>
    obtain ⟨he,hl⟩:=List.nodup_cons.mp hl
    rw [retainSync]
    by_cases hnode : e.node≠«from»
    · have hout : e∉pending := fun hmem => hnode (hfrom e hmem)
      have hkeep : keeps «from» pending e=true := by simp [keeps,hnode]
      have hrest : pending.filter (fun x => x∉e::l)=pending.filter (fun x => x∉l) := by
        apply filter_congr
        intro x hx
        have hne : x≠e := ne_of_mem_of_not_mem hx hout
        simp [hne]
      rw [if_pos hnode,ih hl hp hfrom,hrest,List.filter_cons_of_pos hkeep,List.filter_cons_of_neg (by simp [hkeep])]
    · rw [if_neg hnode]
      by_cases hmem : e∈pending
      -- the entry is met: it stays, and no later one of this list equals it
      · have hkeep : keeps «from» pending e=true := by simp [keeps,hmem]
        have hsame : ∀ x∈l, keeps «from» (pending.erase e) x=keeps «from» pending x := by
          intro x hx
          have hne : x≠e := ne_of_mem_of_not_mem hx he
          simp [keeps,List.mem_erase_of_ne hne]
        have hrest : (pending.erase e).filter (fun x => x∉l)=pending.filter (fun x => x∉e::l) := by
          rw [hp.erase_eq_filter,filter_filter]
          apply filter_congr
          intro x _
          simp [bne,BEq.beq,Bool.and_comm]
        have hgone : (l.filter fun x => !keeps «from» (pending.erase e) x) =
            l.filter fun x => !keeps «from» pending x :=
          filter_congr fun x hx => by rw [hsame x hx]
        rw [if_pos hmem,ih hl (hp.erase e) fun x hx => hfrom x (List.mem_of_mem_erase hx),hrest,
          filter_congr hsame,hgone,List.filter_cons_of_pos hkeep,List.filter_cons_of_neg (by simp [hkeep])]
      · have hkeep : keeps «from» pending e=false := by simpa [keeps,hmem] using not_not.mp hnode
        have hrest : pending.filter (fun x => x∉e::l)=pending.filter (fun x => x∉l) := by
          apply filter_congr
          intro x hx
          have hne : x≠e := ne_of_mem_of_not_mem hx hmem
          simp [hne]
        rw [if_neg hmem,ih hl hp hfrom,hrest,List.filter_cons_of_neg (by simp [hkeep]),
          List.filter_cons_of_pos (by simp [hkeep])]
        rfl

theorem walkSync_eq {order : List String} (h : Shaped t) (hp : pending.Nodup) (hfrom : ∀ e∈pending, e.node=«from»)
    (horder : order.Nodup) : walkSync «from» order t pending =
    (fun key => if key∈order then (t.retain (keeps «from» pending) order).1 key else t key,
    pending.filter (fun e => ∀ key∈order, e∉t.list key),(t.retain (keeps «from» pending) order).2) := by
  induction order generalizing t pending with
  | nil => simp [walkSync,retain]
  | cons key order ih =>
    obtain ⟨hkey,horder⟩:=List.nodup_cons.mp horder
    rw [walkSync,retainSync_eq (h.distinct key) hp hfrom]
    dsimp only
    have hlist : ∀ k∈order, list (Function.update t key (nonempty ((t.list key).filter (keeps «from» pending)))) k =
        t.list k := by
      intro k hk
      rw [list_update,if_neg (ne_of_mem_of_not_mem hk hkey)]
    have hsame : ∀ k∈order, ∀ e∈t.list k,
        keeps «from» (pending.filter fun e => e∉t.list key) e=keeps «from» pending e := by
      intro k hk e he
      have hout : e∉t.list key := fun hmem =>
        ne_of_mem_of_not_mem hk hkey ((h.keyed k e he).symm.trans (h.keyed key e hmem))
      simp [keeps,hout]
    rw [ih (update_shaped h key _) (hp.filter _) (fun e he => hfrom e (List.mem_of_mem_filter he)) horder]
    refine Prod.ext ?_ (Prod.ext ?_ ?_)
    · funext k
      by_cases hk : k∈order
      · simp only [hk,mem_cons,or_true,if_true,retain_key]
        rw [hlist k hk,filter_congr (hsame k hk)]
      · simp only [hk,mem_cons,or_false,if_false]
        by_cases heq : k=key
        · rw [if_pos heq,heq,Function.update_self,retain_key]
        · rw [if_neg heq,Function.update_of_ne heq]
    · dsimp only
      rw [filter_filter]
      apply filter_congr
      intro e _
      rw [Bool.eq_iff_iff]
      simp only [Bool.and_eq_true,decide_eq_true_eq,mem_cons,forall_eq_or_imp]
      constructor
      · rintro ⟨hrest,hfirst⟩
        exact ⟨hfirst,fun k hk => hlist k hk ▸ hrest k hk⟩
      · rintro ⟨hfirst,hrest⟩
        exact ⟨fun k hk => (hlist k hk).symm ▸ hrest k hk,hfirst⟩
    · dsimp only [retain]
      rw [List.flatMap_cons]
      congr 1
      apply List.flatMap_congr
      intro k hk
      rw [hlist k hk]
      congr 1
      exact filter_congr fun e he => by rw [hsame k hk e he]

theorem walkSync_keys {order : List String} (h : Shaped t) (hp : pending.Nodup) (hfrom : ∀ e∈pending, e.node=«from»)
    (horder : System.Keys t order) : walkSync «from» order t pending=((t.retain (keeps «from» pending) order).1,
    pending.filter (fun e => e∉t.list e.key.str),(t.retain (keeps «from» pending) order).2) := by
  have hkeys : ∀ key, key∉order → t key=none := by
    intro key hkey
    cases ht : t key with
    | none => rfl
    | some l => exact absurd (horder.2 key (by rw [ht]; rfl)) hkey
  rw [walkSync_eq h hp hfrom horder.1]
  refine Prod.ext ?_ (Prod.ext ?_ rfl)
  · funext key
    dsimp only
    split
    · rfl
    · next hkey =>
      rw [retain_key,list,hkeys key hkey]
      rfl
  · apply filter_congr
    intro e _
    rw [decide_eq_decide]
    constructor
    · intro hout hmem
      by_cases hkey : e.key.str∈order
      · exact hout _ hkey hmem
      · rw [list,hkeys _ hkey] at hmem
        exact absurd hmem List.not_mem_nil
    · intro hout key _ hmem
      rw [h.keyed key e hmem] at hout
      exact hout hmem

def news : List ReceptionistEntry → List ReceptionistEntry → List ReceptionistEntry
  | [],_ => []
  | e::l,pending => if e∈pending then e::news l (pending.erase e) else news l pending

theorem upsert_eq (l : List ReceptionistEntry) (t : Entries) (pending : List ReceptionistEntry) :
    upsert l t pending=((news l pending).foldl push t,(news l pending).map ReceptionistEntry.registered) := by
  induction l generalizing t pending with
  | nil => rfl
  | cons e l ih =>
    rw [upsert,news]
    split
    · rw [ih]
      rfl
    · exact ih t pending

theorem mem_news (hp : pending.Nodup) {e : ReceptionistEntry} : e∈news l pending ↔ e∈l ∧ e∈pending := by
  induction l generalizing pending with
  | nil => simp [news]
  | cons x l ih =>
    rw [news]
    split
    · next hx =>
      rw [mem_cons,ih (hp.erase x),mem_cons]
      by_cases heq : e=x
      · simp [heq,hx]
      · simp [heq,List.mem_erase_of_ne heq]
    · next hx =>
      rw [ih hp,mem_cons]
      constructor
      · exact fun h => ⟨.inr h.1,h.2⟩
      · rintro ⟨h | h,hmem⟩
        · exact absurd (h ▸ hmem) hx
        · exact ⟨h,hmem⟩

theorem news_nodup (hp : pending.Nodup) : (news l pending).Nodup := by
  induction l generalizing pending with
  | nil => exact List.nodup_nil
  | cons x l ih =>
    rw [news]
    split
    · apply List.nodup_cons.mpr ⟨?_,ih (hp.erase x)⟩
      rw [mem_news (hp.erase x)]
      exact fun h => hp.not_mem_erase h.2
    · exact ih hp

end Entries

namespace Receptionist
open Entries

variable {r : Receptionist} {sync : ReceptionistSync} {order : List String}

theorem forget_entries (r : Receptionist) (key : ReceptionistKey) (path : String) : (r.forget key path).entries=r.entries :=
  rfl

theorem forgetRemovedOwners_eq (events : List ReceptionistEvent) (r : Receptionist) :
    ∃ owners, r.forgetRemovedOwners events={r with owners:=owners} := by
  induction events generalizing r with
  | nil => exact ⟨r.owners,rfl⟩
  | cons ev events ih =>
    cases ev with
    | registered key path => exact ih r
    | unregistered key path => exact ih (r.forget key path)

def kept (r : Receptionist) (sync : ReceptionistSync) (order : List String) : Entries × List ReceptionistEvent :=
  r.entries.retain (keeps sync.from sync.entries.dedup) order

def fresh (r : Receptionist) (sync : ReceptionistSync) : List ReceptionistEntry :=
  news sync.entries (sync.entries.dedup.filter fun e => e∉r.entries.list e.key.str)

variable {e : ReceptionistEntry}

theorem mem_fresh : e∈r.fresh sync ↔ e∈sync.entries ∧ e∉r.entries.list e.key.str := by
  rw [fresh,mem_news (sync.entries.nodup_dedup.filter _),mem_filter,List.mem_dedup,decide_eq_true_eq]
  exact ⟨fun h => ⟨h.1,h.2.2⟩,fun h => ⟨h.1,h.1,h.2⟩⟩

theorem mergeSync_eq (h : Shaped r.entries) (horder : System.Keys r.entries order)
    (hfrom : ∀ e∈sync.entries, e.node=sync.from) :
    ∃ owners, r.mergeSync sync order =
      ({r with entries:=(r.fresh sync).foldl push (r.kept sync order).1,owners:=owners},
        (r.kept sync order).2++(r.fresh sync).map ReceptionistEntry.registered) := by
  have hany : ¬((sync.entries.any fun e => decide (e.node≠sync.from))=true) := by
    simpa using hfrom
  have hwalk:=walkSync_keys h sync.entries.nodup_dedup
    (fun e he => hfrom e (List.mem_dedup.mp he)) horder
  rw [mergeSync,if_neg hany,hwalk]
  dsimp only
  rw [upsert_eq]
  obtain ⟨owners,ho⟩:=forgetRemovedOwners_eq
    ((r.kept sync order).2++(r.fresh sync).map ReceptionistEntry.registered)
    {r with entries:=(r.fresh sync).foldl push (r.kept sync order).1}
  exact ⟨owners,Prod.ext ho rfl⟩

theorem mergeSync_foreign (hforeign : ¬∀ e∈sync.entries, e.node=sync.from) : r.mergeSync sync order=(r,[]) := by
  rw [mergeSync,if_pos]
  simpa using hforeign

theorem mergeSync_list (h : Shaped r.entries) (horder : System.Keys r.entries order) (hfrom : ∀ e∈sync.entries,
    e.node=sync.from) (key : String) : (r.mergeSync sync order).1.entries.list key=(r.entries.list key).filter
    (keeps sync.from sync.entries.dedup)++ (r.fresh sync).filter fun e => e.key.str=key := by
  obtain ⟨owners,heq⟩:=mergeSync_eq h horder hfrom
  rw [heq,list_foldl_push,kept,list_retain]

theorem fresh_new (he : e∈r.fresh sync) : e∉(r.kept sync order).1.list e.key.str := by
  rw [kept,list_retain]
  exact fun hmem => (mem_fresh.mp he).2 (List.mem_of_mem_filter hmem)

theorem mergeSync_shaped (h : Shaped r.entries) (horder : System.Keys r.entries order)
    (hfrom : ∀ e∈sync.entries, e.node=sync.from) : Shaped (r.mergeSync sync order).1.entries := by
  obtain ⟨owners,heq⟩:=mergeSync_eq h horder hfrom
  rw [heq]
  exact foldl_push_shaped (retain_shaped h _ _) (news_nodup (sync.entries.nodup_dedup.filter _))
    fun e he => fresh_new he

theorem mergeSync_good (h : Good r.entries) (horder : System.Keys r.entries order) (hfrom : ∀ e∈sync.entries,
    e.node=sync.from) (haddr : ∀ e∈sync.entries, (split e.remotePath).map Prod.fst=some e.node) :
    Good (r.mergeSync sync order).1.entries := by
  refine ⟨mergeSync_shaped h.toShaped horder hfrom,?_⟩
  intro key e he
  rw [mergeSync_list h.toShaped horder hfrom,List.mem_append,mem_filter,mem_filter] at he
  rcases he with ⟨he,-⟩ | ⟨he,-⟩
  · exact h.addressed key e he
  · exact haddr e (mem_fresh.mp he).1

theorem mergeSync_tracks (h : Good r.entries) (horder : System.Keys r.entries order) (hfrom : ∀ e∈sync.entries,
    e.node=sync.from) : Tracks r.entries (r.mergeSync sync order).1.entries (r.mergeSync sync order).2 := by
  obtain ⟨owners,heq⟩:=mergeSync_eq h.toShaped horder hfrom
  rw [heq]
  exact (retain_tracks h _ horder).trans (foldl_push_tracks _ _)

theorem mergeSync_others (h : Shaped r.entries) (horder : System.Keys r.entries order) (key : String) :
    ((r.mergeSync sync order).1.entries.list key).filter (fun e => e.node≠sync.from) =
      (r.entries.list key).filter fun e => e.node≠sync.from := by
  by_cases hfrom : ∀ e∈sync.entries, e.node=sync.from
  · rw [mergeSync_list h horder hfrom,List.filter_append,filter_filter,filter_filter]
    have hfresh : ((r.fresh sync).filter fun e => decide (e.node≠sync.from)&&decide (e.key.str=key))=[] := by
      rw [List.filter_eq_nil_iff]
      intro e he
      simp [hfrom e (mem_fresh.mp he).1]
    rw [hfresh,List.append_nil]
    apply filter_congr
    intro e _
    by_cases hnode : e.node=sync.from
    · simp [hnode]
    · simp [keeps,hnode]
  · rw [mergeSync_foreign hfrom]

theorem mem_mergeSync (h : Shaped r.entries) (horder : System.Keys r.entries order)
    (hfrom : ∀ e∈sync.entries, e.node=sync.from) (hnode : e.node=sync.from) :
    e∈(r.mergeSync sync order).1.entries.list e.key.str ↔ e∈sync.entries := by
  rw [mergeSync_list h horder hfrom,List.mem_append,mem_filter,mem_filter,mem_fresh]
  simp only [keeps,hnode,ne_eq,not_true_eq_false,decide_false,Bool.false_or,List.mem_dedup,decide_eq_true_eq,and_true]
  tauto

theorem mergeSync_again (h : Shaped r.entries) (horder : System.Keys r.entries order) {order' : List String}
    (horder' : System.Keys (r.mergeSync sync order).1.entries order') :
    ((r.mergeSync sync order).1.mergeSync sync order').2=[] := by
  by_cases hfrom : ∀ e∈sync.entries, e.node=sync.from
  · have hshaped:=mergeSync_shaped h horder hfrom
    obtain ⟨owners,heq⟩:=mergeSync_eq hshaped horder' hfrom
    rw [heq]
    apply List.append_eq_nil_iff.mpr
    constructor
    · rw [kept]
      apply List.flatMap_eq_nil_iff.mpr
      intro key _
      rw [List.map_eq_nil_iff,List.filter_eq_nil_iff]
      intro e he
      have hkey:=hshaped.keyed key e he
      by_cases hnode : e.node=sync.from
      · rw [← hkey] at he
        have hmem:=(mem_mergeSync h horder hfrom hnode).mp he
        simp [keeps,hmem]
      · simp [keeps,hnode]
    · rw [List.map_eq_nil_iff]
      apply List.eq_nil_iff_forall_not_mem.mpr
      intro e he
      obtain ⟨hmem,hout⟩:=mem_fresh.mp he
      exact hout ((mem_mergeSync h horder hfrom (hfrom e hmem)).mpr hmem)
  · rw [mergeSync_foreign hfrom,mergeSync_foreign hfrom]

end Receptionist

end Parrot.Discovery
