import Parrot.Lib.CrashLog

/-! # Directories whose newest file alone is unsynced

Files are named by numbers and created in order. As long as a file is synced before its
successor is created, whatever a program does to the newest file leaves the others synced,
also where it stops in the middle. -/

namespace CrashFs

structure Led (n o : ℕ) (l : Listing ℕ) : Prop where
  newest : ∃ x∈l, x.1=n
  le : ∀ x∈l, x.1≤n
  synced : ∀ x∈l, x.1≠n → x.1≠o → x.2.synced=x.2.data

abbrev Headed (n : ℕ) (l : Listing ℕ) : Prop := Led n n l

def AllSynced (l : Listing ℕ) : Prop := ∀ x∈l, x.2.synced=x.2.data

def Effect.OnNewest (n : ℕ) : Effect ℕ → Prop
  | .write m _ => m=n
  | .truncate m _ => m=n
  | .sync m => m=n
  | .unlink m => m≠n
  | .syncDir => True
  | _ => False

def Effect.Touches (n : ℕ) : Effect ℕ → Prop
  | .write m _ => m=n
  | .truncate m _ => m=n
  | .sync m => m=n
  | _ => False

variable {n o : ℕ} {l : Listing ℕ} {hist : List (Listing ℕ)}

theorem Effect.Touches.onNewest {e : Effect ℕ} (h : e.Touches n) : e.OnNewest n := by
  cases e with
  | write | truncate | sync => exact h
  | _ => exact absurd h id

@[simp] theorem current_snoc (hist : List (Listing ℕ)) (l : Listing ℕ) : current (hist++[l])=l := by
  simp [current]

@[simp] theorem current_singleton (l : Listing ℕ) : current [l]=l := rfl

theorem current_map (f : File → File) : current (hist.map (touch n f))=touch n f (current hist) := by
  unfold current
  rw [List.getLast?_map]
  cases hist.getLast? with
  | none | some => rfl

theorem mem_touch {f : File → File} {x : ℕ × File} (h : x∈touch n f l) :
    ∃ y∈l, x.1=y.1 ∧ (x.1≠n → x=y) ∧ (x.1=n → x.2=f y.2) := by
  obtain ⟨y,hy,rfl⟩:=List.mem_map.mp h
  refine ⟨y,hy,?_⟩
  by_cases hn : y.1=n
  · simp [hn]
  · simp [hn]

theorem touch_mem {f : File → File} {y : ℕ × File} (h : y∈l) : ∃ x∈touch n f l, x.1=y.1 := by
  refine ⟨_,List.mem_map_of_mem h,?_⟩
  split
  · rfl
  · rfl

theorem Led.touch (h : Led n o l) (f : File → File) : Led n o (touch n f l) := by
  obtain ⟨y,hy,hyn⟩:=h.newest
  refine ⟨?_,?_,?_⟩
  · obtain ⟨x,hx,hxy⟩:=touch_mem (n := n) (f := f) hy
    exact ⟨x,hx,hxy.trans hyn⟩
  · intro x hx
    obtain ⟨z,hz,hxz,-,-⟩:=mem_touch hx
    rw [hxz]
    exact h.le z hz
  · intro x hx hne
    obtain ⟨z,hz,-,hsame,-⟩:=mem_touch hx
    obtain rfl:=hsame hne
    exact h.synced x hz hne

theorem Headed.sync (h : Headed n l) : AllSynced (CrashFs.touch n (fun f => {f with synced:=f.data}) l) := by
  intro x hx
  obtain ⟨y,hy,hxy,hsame,hnew⟩:=mem_touch hx
  by_cases hn : x.1=n
  · rw [hnew hn]
  · obtain rfl:=hsame hn
    exact h.synced x hy hn hn

theorem Headed.create (h : Headed n l) : Led (n+1) n (l++[(n+1,⟨[],[]⟩)]) := by
  refine ⟨⟨_,List.mem_append_right _ (List.mem_singleton_self _),rfl⟩,?_,?_⟩
  · intro x hx
    rcases List.mem_append.mp hx with hx | hx
    · exact (h.le x hx).trans (Nat.le_succ n)
    · rw [List.mem_singleton.mp hx]
  · intro x hx hne hold
    rcases List.mem_append.mp hx with hx | hx
    · exact h.synced x hx hold hold
    · rw [List.mem_singleton.mp hx]

theorem Led.headed (h : Led n o l) (ho : ∀ x∈l, x.1=o → x.2.synced=x.2.data) : Headed n l := by
  refine ⟨h.newest,h.le,?_⟩
  intro x hx hne _
  by_cases hold : x.1=o
  · exact ho x hx hold
  · exact h.synced x hx hne hold

theorem Led.effect (h : Led n o (current hist)) {e : Effect ℕ} (he : e.OnNewest n) :
    Led n o (current (e.onHistory hist)) := by
  cases e with
  | write m bytes =>
    obtain rfl : m=n := he
    rw [Effect.onHistory,current_map]
    exact h.touch _
  | truncate m length =>
    obtain rfl : m=n := he
    rw [Effect.onHistory,current_map]
    exact h.touch _
  | sync m =>
    obtain rfl : m=n := he
    rw [Effect.onHistory,current_map]
    exact h.touch _
  | unlink m =>
    have hne : m≠n := he
    rw [Effect.onHistory,current_snoc]
    obtain ⟨y,hy,hyn⟩:=h.newest
    refine ⟨⟨y,List.mem_filter.mpr ⟨hy,?_⟩,hyn⟩,fun x hx => h.le x (List.mem_filter.mp hx).1,
      fun x hx => h.synced x (List.mem_filter.mp hx).1⟩
    rw [hyn]
    simpa using Ne.symm hne
  | syncDir => exact h
  | _ => exact absurd he id

namespace Disk
variable {d d' : Disk ℕ}

theorem perform_fits {e : Effect ℕ} (he : e.OnNewest n) (h : d.perform e=some d') : e.Fits d.history := by
  have hmodify : ∀ {m : ℕ} {f : File → File}, d.modify m f=some d' → ∃ x∈current d.history, x.1=m := by
    intro m f hm
    rw [current_names]
    unfold modify at hm
    cases hl : d.dir.lookup m with
    | none =>
      rw [hl] at hm
      contradiction
    | some i => rfl
  cases e with
  | write m bytes => exact @hmodify m (fun f => {f with data:=f.data++bytes}) h
  | truncate m length => exact @hmodify m (fun f => {f with data:=f.data.take length}) h
  | sync m => exact @hmodify m (fun f => {f with synced:=f.data}) h
  | unlink m =>
    simp only [perform] at h
    split at h
    · exact (current_names d m).mpr ‹_›
    · contradiction
  | syncDir => trivial
  | _ => exact absurd he id

theorem part_onNewest {e p : Effect ℕ} {k : ℕ} (hp : e.part k=some p) (he : e.OnNewest n) : p.OnNewest n := by
  cases e with
  | write m bytes =>
    cases hp
    exact he
  | _ => simp [Effect.part] at hp

variable {effects : List (Effect ℕ)}

theorem stopped_led (hall : ∀ e∈effects, e.OnNewest n) (hd : d.Named) (h : Led n o (current d.history))
    (hrun : Stopped effects d d') : d'.Named ∧ Led n o (current d'.history) := by
  induction effects generalizing d with
  | nil =>
    obtain rfl : d'=d := hrun
    exact ⟨hd,h⟩
  | cons e rest ih =>
    have he:=hall e List.mem_cons_self
    rcases hrun with rfl | ⟨k,p,hp,hperf⟩ | ⟨d1,hperf,hrest⟩
    · exact ⟨hd,h⟩
    · have hpart:=part_onNewest hp he
      obtain ⟨hd',heq⟩:=perform_history hd (perform_fits hpart hperf) hperf
      rw [heq]
      exact ⟨hd',h.effect hpart⟩
    · obtain ⟨hd1,heq⟩:=perform_history hd (perform_fits he hperf) hperf
      refine ih (fun e' he' => hall e' (List.mem_cons_of_mem e he')) hd1 ?_ hrest
      rw [heq]
      exact h.effect he

theorem completed_stopped (h : Completed effects d d') : Stopped effects d d' := by
  induction effects generalizing d with
  | nil => exact (Option.some.inj h).symm
  | cons e rest ih =>
    simp only [Completed,List.foldlM_cons] at h
    obtain ⟨d1,hperf,hrest⟩:=Option.bind_eq_some_iff.mp h
    exact .inr (.inr ⟨d1,hperf,ih hrest⟩)

theorem stopped_split {xs ys : List (Effect ℕ)} (h : Stopped (xs++ys) d d') :
    Stopped xs d d' ∨ ∃ d1, Completed xs d d1 ∧ Stopped ys d1 d' := by
  induction xs generalizing d with
  | nil => exact .inr ⟨d,rfl,h⟩
  | cons e rest ih =>
    rcases h with rfl | ⟨k,p,hp,hperf⟩ | ⟨d1,hperf,hrest⟩
    · exact .inl (.inl rfl)
    · exact .inl (.inr (.inl ⟨k,p,hp,hperf⟩))
    · rcases ih hrest with hstop | ⟨d2,hdone,hstop⟩
      · exact .inl (.inr (.inr ⟨d1,hperf,hstop⟩))
      · refine .inr ⟨d2,?_,hstop⟩
        simp only [Completed,List.foldlM_cons,hperf]
        exact hdone

structure Level (d : Disk ℕ) (n : ℕ) : Prop where
  named : d.Named
  history : ∃ l, d.history=[l]
  headed : Headed n (current d.history)

structure Covered (d : Disk ℕ) : Prop where
  named : d.Named
  history : ∃ l, d.history=[l]
  synced : AllSynced (current d.history)

structure Tidy (d : Disk ℕ) : Prop where
  named : d.Named
  synced : ∀ x∈current d.history, ∀ y∈current d.history, x.1<y.1 → x.2.synced=x.2.data
  empty : current d.history=[] → d.history=[[]]

theorem tidy_of_headed (hd : d.Named) (h : Headed n (current d.history)) : d.Tidy := by
  refine ⟨hd,?_,?_⟩
  · intro x hx y hy hlt
    have hle:=h.le y hy
    exact h.synced x hx (by omega) (by omega)
  · intro hnil
    obtain ⟨x,hx,-⟩:=h.newest
    rw [hnil] at hx
    contradiction

theorem Level.tidy (h : Level d n) : d.Tidy := tidy_of_headed h.named h.headed

theorem Tidy.crash (h : d.Named) (kept : ℕ) (cut : ℕ → ℕ) : (d.crash kept cut).Tidy := by
  obtain ⟨hd,l,-,c,hist⟩:=crash_history h kept cut
  refine ⟨hd,?_,?_⟩
  · intro x hx y hy _
    rw [hist] at hx
    obtain ⟨z,-,rfl⟩:=List.mem_map.mp hx
    rfl
  · intro hnil
    rw [hist] at hnil ⊢
    rw [current_singleton] at hnil
    rw [hnil]

theorem empty_tidy : (empty : Disk ℕ).Tidy := by
  refine ⟨empty_named,?_,fun _ => empty_history⟩
  intro x hx
  rw [empty_history] at hx
  contradiction

theorem Level.sync (h : Level d n) (hrun : d.perform (.sync n)=some d') : Level d' n ∧ d'.Covered := by
  have hon : Effect.OnNewest n (.sync n) := rfl
  obtain ⟨hd',heq⟩:=perform_history h.named (perform_fits hon hrun) hrun
  obtain ⟨l,hl⟩:=h.history
  have hone : d'.history=[touch n (fun f => {f with synced:=f.data}) l] := by
    rw [heq,hl]
    rfl
  have hheaded:=h.headed
  rw [hl,current_singleton] at hheaded
  refine ⟨⟨hd',⟨_,hone⟩,?_⟩,hd',⟨_,hone⟩,?_⟩
  · rw [hone,current_singleton]
    exact hheaded.touch _
  · rw [hone,current_singleton]
    exact hheaded.sync

theorem Level.touches (h : Level d n) (hall : ∀ e∈effects, e.Touches n)
    (hrun : Completed effects d d') : Level d' n := by
  induction effects generalizing d with
  | nil =>
    cases hrun
    exact h
  | cons e rest ih =>
    simp only [Completed,List.foldlM_cons] at hrun
    obtain ⟨d1,hperf,hrest⟩:=Option.bind_eq_some_iff.mp hrun
    have he:=hall e List.mem_cons_self
    obtain ⟨hd1,heq⟩:=perform_history h.named (perform_fits he.onNewest hperf) hperf
    refine ih ⟨hd1,?_,?_⟩ (fun e' he' => hall e' (List.mem_cons_of_mem e he')) hrest
    · obtain ⟨l,hl⟩:=h.history
      rw [heq,hl]
      cases e with
      | write | truncate | sync => exact ⟨_,rfl⟩
      | _ => exact absurd he id
    · rw [heq]
      exact h.headed.effect he.onNewest

theorem headed_level (hall : ∀ e∈effects, e.OnNewest n) (hd : d.Named)
    (h : Headed n (current d.history)) (hrun : Completed (effects++[.syncDir]) d d') : Level d' n := by
  obtain ⟨d1,hdone,hlast⟩:=completed_append.mp hrun
  obtain ⟨hd1,h1⟩:=stopped_led hall hd h (completed_stopped hdone)
  have hperf : d1.perform .syncDir=some d' := by simpa [Completed] using hlast
  obtain ⟨hd',heq⟩:=syncDir_history hd1 hperf
  refine ⟨hd',⟨_,heq⟩,?_⟩
  rw [heq]
  exact h1

theorem Level.create (h : Level d n) (hrun : d.perform (.create (n+1))=some d') : d'.Named ∧
    Led (n+1) n (current d'.history) ∧ (AllSynced (current d.history) → Headed (n+1) (current d'.history)) := by
  obtain ⟨l,hl⟩:=h.history
  have hheaded:=h.headed
  rw [hl,current_singleton] at hheaded
  have hnew : ∀ l'∈d.history, ∀ x∈l', x.1≠n+1 := by
    intro l' hl' x hx heq
    rw [hl,List.mem_singleton] at hl'
    subst hl'
    have:=hheaded.le x hx
    omega
  obtain ⟨hd',heq⟩:=create_history h.named hnew hrun
  rw [heq,current_snoc,hl,current_singleton]
  refine ⟨hd',hheaded.create,?_⟩
  intro hs
  refine hheaded.create.headed ?_
  intro x hx _
  rcases List.mem_append.mp hx with hx | hx
  · exact hs x hx
  · rw [List.mem_singleton.mp hx]

theorem Level.stopped_next (h : Level d n) (hall : ∀ e∈effects, e.OnNewest (n+1))
    (hrun : Stopped (.create (n+1)::effects) d d') : d'=d ∨ d'.Named ∧ Led (n+1) n (current d'.history) ∧
      (AllSynced (current d.history) → Headed (n+1) (current d'.history)) := by
  rcases hrun with rfl | ⟨k,p,hp,-⟩ | ⟨d1,hperf,hrest⟩
  · exact .inl rfl
  · contradiction
  · obtain ⟨hd1,hled,hheaded⟩:=h.create hperf
    obtain ⟨hd',hled'⟩:=stopped_led hall hd1 hled hrest
    exact .inr ⟨hd',hled',fun hs => (stopped_led hall hd1 (hheaded hs) hrest).2⟩

theorem absent_effect {m : ℕ} (h : ∀ x∈current hist, x.1≠m) {e : Effect ℕ} (he : e.OnNewest n) :
    ∀ x∈current (e.onHistory hist), x.1≠m := by
  have htouch : ∀ (k : ℕ) (f : File → File), ∀ x∈touch k f (current hist), x.1≠m := by
    intro k f x hx
    obtain ⟨y,hy,hxy,-⟩:=mem_touch hx
    rw [hxy]
    exact h y hy
  cases e with
  | write k bytes =>
    rw [Effect.onHistory,current_map]
    exact htouch k _
  | truncate k length =>
    rw [Effect.onHistory,current_map]
    exact htouch k _
  | sync k =>
    rw [Effect.onHistory,current_map]
    exact htouch k _
  | unlink k =>
    rw [Effect.onHistory,current_snoc]
    exact fun x hx => h x (List.mem_filter.mp hx).1
  | syncDir => exact h
  | _ => exact absurd he id

theorem removed {m : ℕ} (hall : ∀ e∈effects, e.OnNewest n) (hd : d.Named) (hmem : Effect.unlink m∈effects ∨
    ∀ x∈current d.history, x.1≠m) (hrun : Completed effects d d') : ∀ x∈current d'.history, x.1≠m := by
  induction effects generalizing d with
  | nil =>
    cases hrun
    rcases hmem with hmem | hmem
    · contradiction
    · exact hmem
  | cons e rest ih =>
    simp only [Completed,List.foldlM_cons] at hrun
    obtain ⟨d1,hperf,hrest⟩:=Option.bind_eq_some_iff.mp hrun
    have he:=hall e List.mem_cons_self
    obtain ⟨hd1,heq⟩:=perform_history hd (perform_fits he hperf) hperf
    refine ih (fun e' he' => hall e' (List.mem_cons_of_mem e he')) hd1 ?_ hrest
    rw [heq]
    rcases hmem with hmem | hmem
    · rcases List.mem_cons.mp hmem with rfl | hmem
      · right
        rw [Effect.onHistory,current_snoc]
        intro x hx
        simpa using (List.mem_filter.mp hx).2
      · exact .inl hmem
    · exact .inr (absent_effect hmem he)

theorem Level.completed_next (h : Level d n) (hall : ∀ e∈effects, e.OnNewest (n+1))
    (hold : AllSynced (current d.history) ∨ Effect.unlink n∈effects)
    (hrun : Completed (.create (n+1)::(effects++[.syncDir])) d d') : Level d' (n+1) := by
  simp only [Completed,List.foldlM_cons] at hrun
  obtain ⟨d1,hperf,hrest⟩:=Option.bind_eq_some_iff.mp hrun
  obtain ⟨hd1,hled,hheaded⟩:=h.create hperf
  rcases hold with hs | hmem
  · exact headed_level hall hd1 (hheaded hs) hrest
  · obtain ⟨d2,hdone,hlast⟩:=completed_append.mp hrest
    obtain ⟨hd2,hled2⟩:=stopped_led hall hd1 hled (completed_stopped hdone)
    have hgone:=removed hall hd1 (.inl hmem) hdone
    have hheaded2 : Headed (n+1) (current d2.history) := hled2.headed fun x hx heq => absurd heq (hgone x hx)
    exact @headed_level (n+1) d2 d' [] (fun e he => absurd he List.not_mem_nil) hd2 hheaded2 hlast

theorem Covered.crash_read (h : d.Covered) (kept : ℕ) (cut : ℕ → ℕ) :
    (d.crash kept cut).dir=d.dir ∧ ∀ m, (d.crash kept cut).read m=d.read m := by
  obtain ⟨l,hl⟩:=h.history
  have hlen:=congrArg List.length hl
  have hnil : d.pending=[] := by
    simp only [Disk.history,List.length_map,List.length_range,List.length_singleton] at hlen
    exact List.length_eq_zero_iff.mp (by omega)
  have hdir : (d.crash kept cut).dir=d.dir := by
    simp [crash,dir,view,hnil]
  refine ⟨hdir,?_⟩
  intro m
  unfold read file
  rw [hdir]
  cases hm : d.dir.lookup m with
  | none => rfl
  | some i =>
    have hmem:=mem_of_lookup_some hm
    have hsynced : (d.inodes i).synced=(d.inodes i).data := by
      refine h.synced (m,d.inodes i) ?_
      rw [dir_eq_current]
      exact List.mem_map.mpr ⟨(m,i),hmem,rfl⟩
    have hkeep : (d.inodes i).keep (cut i)=(d.inodes i).data := by
      unfold File.keep
      rw [hsynced,if_pos (le_rfl)]
      exact List.take_of_length_le (Nat.le_max_right _ _)
    simp only [Option.map_some,crash,hkeep]

end Disk
end CrashFs
