import Mathlib.Data.Finset.Basic

/-! # Feeds of changes

A reader that folds a feed from its start holds the set the feed is about, as long as
whoever changes the set says so. -/

namespace Parrot.Feed

variable {α σ : Type*} [DecidableEq α]

inductive Change (α : Type*) where
  | added (a : α)
  | removed (a : α)

variable (s : Finset α)

def Change.apply : Change α → Finset α
  | .added a => insert a s
  | .removed a => s.erase a

def replay (feed : List (Change α)) : Finset α := feed.foldl Change.apply s

@[simp] theorem replay_nil : replay s []=s := rfl

theorem replay_append (a b : List (Change α)) : replay s (a++b)=replay (replay s a) b :=
  List.foldl_append

theorem replay_added (l : List α) (s : Finset α) : replay s (l.map .added)=s ∪ l.toFinset := by
  induction l generalizing s with
  | nil => simp
  | cons a l ih =>
    have hstep : replay s ((a::l).map .added)=replay (insert a s) (l.map .added) := rfl
    rw [hstep,ih,List.toFinset_cons]
    ext x
    simp only [Finset.mem_union,Finset.mem_insert]
    tauto

theorem replay_snapshot (l : List α) : replay ∅ (l.map .added)=l.toFinset := by
  rw [replay_added]
  ext x
  simp

theorem replay_removed (l : List α) (s : Finset α) : replay s (l.map .removed)=s \ l.toFinset := by
  induction l generalizing s with
  | nil => simp
  | cons a l ih =>
    have hstep : replay s ((a::l).map .removed)=replay (s.erase a) (l.map .removed) := rfl
    rw [hstep,ih,List.toFinset_cons]
    ext x
    simp only [Finset.mem_sdiff,Finset.mem_erase,Finset.mem_insert,not_or]
    tauto

theorem names_filter {l : List σ} {name : σ → α} (hn : (l.map name).Nodup) (keep : σ → Bool) :
    ((l.filter keep).map name).toFinset =
      (l.map name).toFinset \ ((l.filter fun x => !keep x).map name).toFinset := by
  ext a
  simp only [Finset.mem_sdiff,List.mem_toFinset,List.mem_map,List.mem_filter,Bool.not_eq_true']
  constructor
  · rintro ⟨x,⟨hx,hk⟩,rfl⟩
    refine ⟨⟨x,hx,rfl⟩,?_⟩
    rintro ⟨y,⟨hy,hd⟩,heq⟩
    rw [List.inj_on_of_nodup_map hn hy hx heq,hk] at hd
    contradiction
  · rintro ⟨⟨x,hx,rfl⟩,hgone⟩
    refine ⟨x,⟨hx,?_⟩,rfl⟩
    by_contra hk
    exact hgone ⟨x,⟨hx,by simpa using hk⟩,rfl⟩

omit [DecidableEq α] in
theorem flatMap_single {β : Type*} {l : List α} {f : α → List β} {a : α} (hl : l.Nodup)
    (hother : ∀ b∈l, b≠a → f b=[]) (habsent : a∉l → f a=[]) : l.flatMap f=f a := by
  induction l with
  | nil => exact (habsent List.not_mem_nil).symm
  | cons b l ih =>
    obtain ⟨hb,hl⟩:=List.nodup_cons.mp hl
    rw [List.flatMap_cons]
    by_cases hba : b=a
    · have hnil : l.flatMap f=[] := by
        rw [List.flatMap_eq_nil_iff]
        intro c hc
        exact hother c (List.mem_cons_of_mem _ hc) fun heq => hb (hba.trans heq.symm ▸ hc)
      rw [hnil,hba,List.append_nil]
    · rw [hother b (List.mem_cons_self ..) hba,List.nil_append]
      apply ih hl fun c hc => hother c (List.mem_cons_of_mem _ hc)
      intro ha
      exact habsent fun hmem => (List.mem_cons.mp hmem).elim (fun heq => hba heq.symm) ha

end Parrot.Feed
