import Mathlib.Data.List.Chain

/-! # Depth-first search with three colours

The search keeps its own stack. A node is grey while it is on the stack and black once all
its edges were followed; an edge to a grey node closes a cycle. Edges to nodes outside
`keys` are passed over. Where no cycle is found, the nodes can be ranked so that every edge
leads to a lower rank. -/

namespace Dfs
open Function (update_self update_of_ne update)

inductive Color where
  | white
  | grey
  | black
  deriving DecidableEq

variable {κ : Type} [DecidableEq κ]

/-- A frame is a node and how many of its edges were followed; the top comes first. -/
structure State (κ : Type) where
  color : κ → Color
  stack : List (κ × ℕ)

inductive Outcome (κ : Type) where
  | cycle (path : List κ)
  | done (color : κ → Color)
  | running

/-- The nodes from `target` up to the top, and `target` once more. -/
def cyclePath (stack : List (κ × ℕ)) (target : κ) : List κ :=
  (((stack.map Prod.fst).takeWhile (· ≠ target)++[target]).reverse)++[target]

inductive Turn (κ : Type) where
  | ended
  | cycle (path : List κ)
  | next (s : State κ)

def turn (keys : List κ) (edges : κ → List κ) (s : State κ) : Turn κ :=
  match s.stack with
  | [] => .ended
  | (node,next)::rest =>
    match (edges node)[next]? with
    | none => .next ⟨update s.color node .black,rest⟩
    | some target =>
      let stack:=(node,next+1)::rest
      if target∈keys then
        match s.color target with
        | .grey => .cycle (cyclePath stack target)
        | .white => .next ⟨update s.color target .grey,(target,0)::stack⟩
        | .black => .next ⟨s.color,stack⟩
      else .next ⟨s.color,stack⟩

def search (keys : List κ) (edges : κ → List κ) : ℕ → State κ → Outcome κ
  | 0, _ => .running
  | fuel+1, s =>
    match turn keys edges s with
    | .ended => .done s.color
    | .cycle path => .cycle path
    | .next s => search keys edges fuel s

def turns (edges : κ → List κ) : List κ → ℕ
  | [] => 0
  | k::keys => (edges k).length+1+turns edges keys

/-- One search from every node that is still white, in the order of `roots`. -/
def searchAll (keys : List κ) (edges : κ → List κ) : List κ → (κ → Color) → Outcome κ
  | [], color => .done color
  | root::roots, color =>
    if color root ≠ .white then searchAll keys edges roots color
    else
      match search keys edges (turns edges keys+1) ⟨update color root .grey,[(root,0)]⟩ with
      | .done color => searchAll keys edges roots color
      | outcome => outcome

def findCycle (keys : List κ) (edges : κ → List κ) : Option (List κ) :=
  match searchAll keys edges keys fun _ => .white with
  | .cycle path => some path
  | _ => none

variable {keys : List κ} {edges : κ → List κ} {s : State κ} {color : κ → Color}

def whiteTurns (edges : κ → List κ) (color : κ → Color) : List κ → ℕ
  | [] => 0
  | k::keys => (if color k=.white then (edges k).length+1 else 0)+whiteTurns edges color keys

def stackTurns (edges : κ → List κ) : List (κ × ℕ) → ℕ
  | [] => 0
  | (node,next)::rest => (edges node).length-next+1+stackTurns edges rest

omit [DecidableEq κ] in
theorem whiteTurns_le (edges : κ → List κ) (color : κ → Color) (keys : List κ) :
    whiteTurns edges color keys≤turns edges keys := by
  induction keys with
  | nil => simp [whiteTurns,turns]
  | cons k keys ih =>
    simp only [whiteTurns,turns]
    split <;> omega

theorem whiteTurns_update_le {k : κ} {c : Color} (hc : c ≠ .white) (keys : List κ) :
    whiteTurns edges (update color k c) keys≤whiteTurns edges color keys := by
  induction keys with
  | nil => simp [whiteTurns]
  | cons x keys ih =>
    simp only [whiteTurns]
    by_cases hx : x=k
    · subst hx
      simp only [update_self,hc,if_false]
      omega
    · simp only [update_of_ne hx]
      omega

theorem whiteTurns_update_lt {k : κ} {c : Color} (hc : c ≠ .white) (hk : k∈keys) (hw : color k=.white) :
    whiteTurns edges (update color k c) keys+(edges k).length+1≤whiteTurns edges color keys := by
  induction keys with
  | nil => simp at hk
  | cons x keys ih =>
    simp only [whiteTurns]
    by_cases hx : x=k
    · subst hx
      have : whiteTurns edges (update color x c) keys≤whiteTurns edges color keys := whiteTurns_update_le hc keys
      simp only [update_self,hc,if_false,hw,if_true]
      omega
    · have:=ih (List.mem_of_ne_of_mem (Ne.symm hx) hk)
      simp only [update_of_ne hx]
      omega

theorem turn_next {s' : State κ} (h : turn keys edges s=.next s') : ∃ node next rest, s.stack=(node,next)::rest ∧
    ((edges node)[next]? = none ∧ s'=⟨update s.color node .black,rest⟩ ∨
      ∃ target, (edges node)[next]? = some target ∧ (target∈keys ∧ s.color target=.white ∧
          s'=⟨update s.color target .grey,(target,0)::(node,next+1)::rest⟩ ∨
        (target∈keys → s.color target=.black) ∧ s'=⟨s.color,(node,next+1)::rest⟩)) := by
  unfold turn at h
  cases hs : s.stack with
  | nil => simp [hs] at h
  | cons frame rest =>
    obtain ⟨node,next⟩:=frame
    refine ⟨node,next,rest,rfl,?_⟩
    simp only [hs] at h
    cases hedge : (edges node)[next]? with
    | none =>
      simp only [hedge,Turn.next.injEq] at h
      exact .inl ⟨rfl,h.symm⟩
    | some target =>
      refine .inr ⟨target,rfl,?_⟩
      simp only [hedge] at h
      by_cases htarget : target∈keys
      · simp only [htarget,if_true] at h
        cases hcolor : s.color target with
        | grey => simp [hcolor] at h
        | white =>
          simp only [hcolor,Turn.next.injEq] at h
          exact .inl ⟨htarget,rfl,h.symm⟩
        | black =>
          simp only [hcolor,Turn.next.injEq] at h
          exact .inr ⟨fun _ => rfl,h.symm⟩
      · simp only [htarget,if_false,Turn.next.injEq] at h
        exact .inr ⟨fun hmem => absurd hmem htarget,h.symm⟩

theorem turn_ended (h : turn keys edges s=.ended) : s.stack=[] := by
  unfold turn at h
  cases hs : s.stack with
  | nil => rfl
  | cons frame rest =>
    simp only [hs] at h
    repeat' split at h
    all_goals contradiction

theorem turn_decreases {s' : State κ} (h : turn keys edges s=.next s') :
    whiteTurns edges s'.color keys+stackTurns edges s'.stack<whiteTurns edges s.color keys+stackTurns edges s.stack := by
  obtain ⟨node,next,rest,hs,⟨-,rfl⟩ | ⟨target,hedge,hmove⟩⟩:=turn_next h
  · have hle : whiteTurns edges (update s.color node .black) keys≤whiteTurns edges s.color keys :=
      whiteTurns_update_le (by simp) keys
    rw [hs]
    simp only [stackTurns]
    omega
  · have hlt : next<(edges node).length := (List.getElem?_eq_some_iff.mp hedge).1
    rw [hs]
    rcases hmove with ⟨htarget,hwhite,rfl⟩ | ⟨-,rfl⟩
    · have hle : whiteTurns edges (update s.color target .grey) keys+(edges target).length+1 ≤
          whiteTurns edges s.color keys := whiteTurns_update_lt (by simp) htarget hwhite
      simp only [stackTurns]
      omega
    · simp only [stackTurns]
      omega

theorem search_ends {fuel : ℕ} (h : whiteTurns edges s.color keys+stackTurns edges s.stack<fuel) :
    search keys edges fuel s ≠ .running := by
  induction fuel generalizing s with
  | zero => omega
  | succ fuel ih =>
    simp only [search]
    cases hturn : turn keys edges s with
    | ended => simp
    | cycle path => simp
    | next s' =>
      have:=turn_decreases hturn
      exact ih (by omega)

def Ranked (keys : List κ) (edges : κ → List κ) (color : κ → Color) : Prop :=
  ∃ (rank : κ → ℕ) (bound : ℕ), ∀ b, color b=.black →
    rank b<bound ∧ ∀ d∈edges b, d∈keys → color d=.black ∧ rank d<rank b

/-- The edges followed from a frame below the top lead to black nodes, but for the last one,
which leads to the frame above. -/
def Below (keys : List κ) (edges : κ → List κ) (color : κ → Color) (child : κ) : List (κ × ℕ) → Prop
  | [] => True
  | (node,next)::rest => ∃ i, next=i+1 ∧ (edges node)[i]? = some child ∧
      (∀ d∈(edges node).take i, d∈keys → color d=.black) ∧ Below keys edges color node rest

structure Sound (keys : List κ) (edges : κ → List κ) (s : State κ) : Prop where
  ranked : Ranked keys edges s.color
  top : ∀ node next rest, s.stack=(node,next)::rest →
    (∀ d∈(edges node).take next, d∈keys → s.color d=.black) ∧ Below keys edges s.color node rest
  grey : ∀ k, s.color k=.grey ↔ k∈s.stack.map Prod.fst
  nodup : (s.stack.map Prod.fst).Nodup

omit [DecidableEq κ] in
theorem Below.mono {color' : κ → Color} (hblack : ∀ k, color k=.black → color' k=.black) {child : κ}
    {stack : List (κ × ℕ)} (h : Below keys edges color child stack) : Below keys edges color' child stack := by
  induction stack generalizing child with
  | nil => trivial
  | cons frame rest ih =>
    obtain ⟨i,hi,hchild,hbefore,hrest⟩:=h
    exact ⟨i,hi,hchild,fun d hd hmem => hblack d (hbefore d hd hmem),ih hrest⟩

theorem Ranked.blacken (h : Ranked keys edges color) {node : κ} (hedges : ∀ d∈edges node, d∈keys → color d=.black)
    (hnode : color node ≠ .black) : Ranked keys edges (update color node .black) := by
  obtain ⟨rank,bound,hrank⟩:=h
  refine ⟨update rank node bound,bound+1,?_⟩
  intro b hb
  by_cases heq : b=node
  · subst heq
    simp only [update_self]
    refine ⟨by omega,fun d hd hmem => ?_⟩
    have hblack:=hedges d hd hmem
    have hne : d≠b := fun hdb => hnode (hdb ▸ hblack)
    simp only [update_of_ne hne]
    exact ⟨hblack,(hrank d hblack).1⟩
  · simp only [update_of_ne heq] at hb ⊢
    obtain ⟨hbound,hlower⟩:=hrank b hb
    refine ⟨by omega,fun d hd hmem => ?_⟩
    obtain ⟨hblack,hlt⟩:=hlower d hd hmem
    have hne : d≠node := fun hdn => hnode (hdn ▸ hblack)
    simp only [update_of_ne hne]
    exact ⟨hblack,hlt⟩

theorem Ranked.grey (h : Ranked keys edges color) {node : κ} (hwhite : color node=.white) :
    Ranked keys edges (update color node .grey) := by
  obtain ⟨rank,bound,hrank⟩:=h
  refine ⟨rank,bound,?_⟩
  intro b hb
  have hne : b≠node := by
    intro heq
    rw [heq,update_self] at hb
    contradiction
  rw [update_of_ne hne] at hb
  obtain ⟨hbound,hlower⟩:=hrank b hb
  refine ⟨hbound,fun d hd hmem => ?_⟩
  obtain ⟨hblack,hlt⟩:=hlower d hd hmem
  have hdne : d≠node := by
    intro heq
    rw [heq,hwhite] at hblack
    contradiction
  rw [update_of_ne hdne]
  exact ⟨hblack,hlt⟩

variable {rest : List (κ × ℕ)}

theorem blacken_sound {node : κ} {next : ℕ} (h : Sound keys edges s) (hs : s.stack=(node,next)::rest)
    (hend : (edges node)[next]? = none) : Sound keys edges ⟨update s.color node .black,rest⟩ := by
  obtain ⟨hbefore,hbelow⟩:=h.top node next rest hs
  have hgrey : s.color node=.grey := (h.grey node).mpr (by simp [hs])
  have hnodup:=h.nodup
  rw [hs] at hnodup
  simp only [List.map_cons,List.nodup_cons] at hnodup
  have hblack (k : κ) (hk : s.color k=.black) : update s.color node .black k=.black := by
    by_cases heq : k=node
    · simp [heq]
    · rw [update_of_ne heq,hk]
  refine ⟨h.ranked.blacken ?_ (by simp [hgrey]),?_,?_,hnodup.2⟩
  · intro d hd hmem
    rw [List.take_of_length_le (List.getElem?_eq_none_iff.mp hend)] at hbefore
    exact hbefore d hd hmem
  · intro node' next' rest' hstack
    -- The frame below followed its last edge to the node that has just turned black.
    simp only at hstack
    subst hstack
    obtain ⟨i,rfl,hchild,hbefore',hrest⟩:=hbelow
    refine ⟨?_,hrest.mono hblack⟩
    intro d hd hmem
    rw [List.take_add_one,hchild] at hd
    simp only [Option.toList_some,List.mem_append,List.mem_singleton] at hd
    rcases hd with hd | rfl
    · exact hblack d (hbefore' d hd hmem)
    · exact update_self ..
  · intro k
    simp only
    by_cases heq : k=node
    · subst heq
      simp only [update_self,reduceCtorEq,false_iff]
      exact hnodup.1
    · rw [update_of_ne heq,h.grey k,hs]
      simp [heq]

theorem push_sound {node target : κ} {next : ℕ} (h : Sound keys edges s)
    (hs : s.stack=(node,next)::rest) (hedge : (edges node)[next]? = some target) (hwhite : s.color target=.white) :
    Sound keys edges ⟨update s.color target .grey,(target,0)::(node,next+1)::rest⟩ := by
  obtain ⟨hbefore,hbelow⟩:=h.top node next rest hs
  have hblack (k : κ) (hk : s.color k=.black) : update s.color target .grey k=.black := by
    have hne : k≠target := by
      intro heq
      rw [heq,hwhite] at hk
      contradiction
    rw [update_of_ne hne,hk]
  have hoff : target∉s.stack.map Prod.fst := by
    intro hmem
    have hgrey:=(h.grey target).mpr hmem
    rw [hwhite] at hgrey
    contradiction
  refine ⟨h.ranked.grey hwhite,?_,?_,?_⟩
  · intro node' next' rest' hstack
    simp only [List.cons.injEq,Prod.mk.injEq] at hstack
    obtain ⟨⟨rfl,rfl⟩,rfl⟩:=hstack
    exact ⟨by simp,next,rfl,hedge,fun d hd hmem => hblack d (hbefore d hd hmem),hbelow.mono hblack⟩
  · intro k
    by_cases heq : k=target
    · subst heq
      simp
    · have hk:=h.grey k
      rw [hs] at hk
      simp only [List.map_cons,List.mem_cons,heq,false_or] at hk ⊢
      rw [update_of_ne heq,hk]
  · have hnodup:=h.nodup
    rw [hs] at hnodup hoff
    simp only [List.map_cons] at hnodup hoff ⊢
    exact List.nodup_cons.mpr ⟨hoff,hnodup⟩

omit [DecidableEq κ] in
theorem pass_sound {node target : κ} {next : ℕ} (h : Sound keys edges s)
    (hs : s.stack=(node,next)::rest) (hedge : (edges node)[next]? = some target)
    (hblack : target∈keys → s.color target=.black) : Sound keys edges ⟨s.color,(node,next+1)::rest⟩ := by
  obtain ⟨hbefore,hbelow⟩:=h.top node next rest hs
  have hgrey:=h.grey
  have hnodup:=h.nodup
  rw [hs] at hgrey hnodup
  refine ⟨h.ranked,?_,hgrey,hnodup⟩
  intro node' next' rest' hstack
  simp only [List.cons.injEq,Prod.mk.injEq] at hstack
  obtain ⟨⟨rfl,rfl⟩,rfl⟩:=hstack
  refine ⟨?_,hbelow⟩
  intro d hd hmem
  rw [List.take_add_one,hedge] at hd
  simp only [Option.toList_some,List.mem_append,List.mem_singleton] at hd
  rcases hd with hd | rfl
  · exact hbefore d hd hmem
  · exact hblack hmem

theorem turn_sound {s' : State κ} (h : Sound keys edges s) (hturn : turn keys edges s=.next s') :
    Sound keys edges s' ∧ ∀ k, s.color k ≠ .white → s'.color k ≠ .white := by
  obtain ⟨node,next,rest,hs,⟨hend,rfl⟩ | ⟨target,hedge,⟨-,hwhite,rfl⟩ | ⟨hblack,rfl⟩⟩⟩:=turn_next hturn
  · refine ⟨blacken_sound h hs hend,fun k hk => ?_⟩
    by_cases heq : k=node
    · simp [heq]
    · simpa [update_of_ne heq] using hk
  · refine ⟨push_sound h hs hedge hwhite,fun k hk => ?_⟩
    by_cases heq : k=target
    · simp [heq]
    · simpa [update_of_ne heq] using hk
  · exact ⟨pass_sound h hs hedge hblack,fun k hk => hk⟩

theorem search_sound {fuel : ℕ} (h : Sound keys edges s) (hdone : search keys edges fuel s=.done color) :
    Ranked keys edges color ∧ (∀ k, color k ≠ .grey) ∧ ∀ k, s.color k ≠ .white → color k ≠ .white := by
  induction fuel generalizing s with
  | zero => simp [search] at hdone
  | succ fuel ih =>
    simp only [search] at hdone
    cases hturn : turn keys edges s with
    | ended =>
      simp only [hturn,Outcome.done.injEq] at hdone
      subst hdone
      refine ⟨h.ranked,fun k hk => ?_,fun k hk => hk⟩
      have hmem:=(h.grey k).mp hk
      simp [turn_ended hturn] at hmem
    | cycle path => simp [hturn] at hdone
    | next s' =>
      simp only [hturn] at hdone
      obtain ⟨hsound,hkeep⟩:=turn_sound h hturn
      obtain ⟨hranked,hgrey,hwhite⟩:=ih hsound hdone
      exact ⟨hranked,hgrey,fun k hk => hwhite k (hkeep k hk)⟩

theorem root_sound {root : κ} (hranked : Ranked keys edges color) (hgrey : ∀ k, color k ≠ .grey)
    (hwhite : color root=.white) : Sound keys edges ⟨update color root .grey,[(root,0)]⟩ := by
  refine ⟨hranked.grey hwhite,?_,?_,by simp⟩
  · intro node next rest hstack
    simp only [List.cons.injEq,Prod.mk.injEq] at hstack
    obtain ⟨⟨rfl,rfl⟩,rfl⟩:=hstack
    exact ⟨by simp,trivial⟩
  · intro k
    by_cases heq : k=root
    · simp [heq]
    · simp [heq,hgrey k]

theorem root_ends {root : κ} (hroot : root∈keys) (hwhite : color root=.white) :
    search keys edges (turns edges keys+1) ⟨update color root .grey,[(root,0)]⟩ ≠ .running := by
  have hlt : whiteTurns edges (update color root .grey) keys+(edges root).length+1≤whiteTurns edges color keys :=
    whiteTurns_update_lt (by simp) hroot hwhite
  have hle:=whiteTurns_le edges color keys
  exact search_ends (by
    simp only [stackTurns]
    omega)

theorem searchAll_sound {roots : List κ} (hroots : ∀ k∈roots, k∈keys) (hranked : Ranked keys edges color)
    (hgrey : ∀ k, color k ≠ .grey) : (∃ path, searchAll keys edges roots color=.cycle path) ∨ ∃ color',
    searchAll keys edges roots color=.done color' ∧ Ranked keys edges color' ∧ (∀ k∈roots, color' k=.black) ∧
    (∀ k, color k ≠ .white → color' k ≠ .white) ∧ ∀ k, color' k ≠ .grey := by
  induction roots generalizing color with
  | nil => exact .inr ⟨color,rfl,hranked,by simp,fun k hk => hk,hgrey⟩
  | cons root roots ih =>
    have hroots' : ∀ k∈roots, k∈keys := fun k hk => hroots k (List.mem_cons_of_mem _ hk)
    have hfinish {color₁ : κ → Color} (hr : Ranked keys edges color₁) (hg : ∀ k, color₁ k ≠ .grey)
        (hroot : color₁ root ≠ .white) (hkeep : ∀ k, color k ≠ .white → color₁ k ≠ .white)
        (heq : searchAll keys edges (root::roots) color=searchAll keys edges roots color₁) :
        (∃ path, searchAll keys edges (root::roots) color=.cycle path) ∨
          ∃ color', searchAll keys edges (root::roots) color=.done color' ∧ Ranked keys edges color' ∧
            (∀ k∈root::roots, color' k=.black) ∧ (∀ k, color k ≠ .white → color' k ≠ .white) ∧
            ∀ k, color' k ≠ .grey := by
      rcases ih hroots' hr hg with ⟨path,hpath⟩ | ⟨color',hdone,hr',hall,hkeep',hg'⟩
      · exact .inl ⟨path,heq.trans hpath⟩
      · refine .inr ⟨color',heq.trans hdone,hr',?_,fun k hk => hkeep' k (hkeep k hk),hg'⟩
        intro k hk
        rcases List.mem_cons.mp hk with rfl | hk
        · have hnw:=hkeep' k hroot
          have hng:=hg' k
          cases hc : color' k with
          | white => exact absurd hc hnw
          | grey => exact absurd hc hng
          | black => rfl
        · exact hall k hk
    by_cases hwhite : color root=.white
    · cases hsearch : search keys edges (turns edges keys+1) ⟨update color root .grey,[(root,0)]⟩ with
      | cycle path =>
        refine .inl ⟨path,?_⟩
        simp [searchAll,hwhite,hsearch]
      | running => exact absurd hsearch (root_ends (hroots root (by simp)) hwhite)
      | done color₁ =>
        obtain ⟨hr,hg,hkeep⟩:=search_sound (root_sound hranked hgrey hwhite) hsearch
        refine hfinish hr hg (hkeep root (by simp)) ?_ (by simp [searchAll,hwhite,hsearch])
        intro k hk
        refine hkeep k ?_
        by_cases heq : k=root
        · simp [heq]
        · simpa [update_of_ne heq] using hk
    · exact hfinish hranked hgrey hwhite (fun k hk => hk) (by simp [searchAll,hwhite])

theorem findCycle_none (h : findCycle keys edges=none) :
    ∃ rank : κ → ℕ, ∀ k∈keys, ∀ d∈edges k, d∈keys → rank d<rank k := by
  have hranked : Ranked keys edges fun _ => Color.white := ⟨fun _ => 0,0,fun b hb => by contradiction⟩
  have hroots : ∀ k∈keys, k∈keys := fun k hk => hk
  rcases searchAll_sound hroots hranked (by simp) with
    ⟨path,hpath⟩ | ⟨color,hdone,⟨rank,bound,hrank⟩,hall,-,-⟩
  · simp [findCycle,hpath] at h
  · exact ⟨rank,fun k hk d hd hmem => ((hrank k (hall k hk)).2 d hd hmem).2⟩

variable {path : List κ}

def Closed (edges : κ → List κ) (path : List κ) : Prop :=
  path.IsChain (fun a b => b∈edges a) ∧ ∃ target inner, path=target::inner++[target]

omit [DecidableEq κ] in
theorem Below.chain {child : κ} {stack : List (κ × ℕ)} (h : Below keys edges color child stack) :
    (child::stack.map Prod.fst).IsChain fun a b => a∈edges b := by
  induction stack generalizing child with
  | nil => exact List.isChain_singleton _
  | cons frame rest ih =>
    obtain ⟨i,-,hchild,-,hrest⟩:=h
    exact List.isChain_cons_cons.mpr ⟨List.mem_of_getElem? hchild,ih hrest⟩

theorem takeWhile_initial {target : κ} {l : List κ} (hmem : target∈l) : (l.takeWhile (· ≠ target)++[target])<+:l := by
  induction l with
  | nil => cases hmem
  | cons x l ih =>
    by_cases hx : x=target
    · simp [hx]
    · simpa [hx] using ih (List.mem_of_ne_of_mem (Ne.symm hx) hmem)

theorem closed_of_chain {node target : κ} {rest : List κ} (hchain : (node::rest).IsChain fun a b => a∈edges b)
    (hedge : target∈edges node) (hmem : target∈node::rest) :
    Closed edges ((((node::rest).takeWhile (· ≠ target)++[target]).reverse)++[target]) := by
  refine ⟨?_,target,((node::rest).takeWhile (· ≠ target)).reverse,by simp⟩
  have hall : (target::((node::rest).takeWhile (· ≠ target)++[target])).IsChain fun a b => a∈edges b := by
    refine List.isChain_cons.mpr ⟨fun y hy => ?_, List.IsChain.prefix hchain (takeWhile_initial hmem)⟩
    obtain rfl : node=y := by by_cases hx : node=target <;> simpa [hx] using hy
    exact hedge
  rw [← List.isChain_reverse] at hall
  simpa using hall

theorem turn_cycle (h : Sound keys edges s) (hturn : turn keys edges s=.cycle path) : Closed edges path := by
  unfold turn at hturn
  split at hturn
  · contradiction
  · rename_i node next rest hs
    split at hturn
    · contradiction
    · rename_i target hedge
      dsimp only at hturn
      split at hturn
      · split at hturn
        · rename_i hgrey
          cases hturn
          have hmem:=(h.grey target).mp hgrey
          rw [hs] at hmem
          exact closed_of_chain (h.top node next rest hs).2.chain (List.mem_of_getElem? hedge) hmem
        · contradiction
        · contradiction
      · contradiction

theorem search_cycle {fuel : ℕ} (h : Sound keys edges s) (hcycle : search keys edges fuel s=.cycle path) : Closed edges path := by
  induction fuel generalizing s with
  | zero => simp [search] at hcycle
  | succ fuel ih =>
    simp only [search] at hcycle
    cases hturn : turn keys edges s with
    | ended => simp [hturn] at hcycle
    | cycle path' =>
      simp only [hturn] at hcycle
      cases hcycle
      exact turn_cycle h hturn
    | next s' =>
      simp only [hturn] at hcycle
      exact ih (turn_sound h hturn).1 hcycle

theorem searchAll_cycle {roots : List κ} (hranked : Ranked keys edges color) (hgrey : ∀ k, color k ≠ .grey)
    (hcycle : searchAll keys edges roots color=.cycle path) : Closed edges path := by
  induction roots generalizing color with
  | nil => simp [searchAll] at hcycle
  | cons root roots ih =>
    simp only [searchAll] at hcycle
    split at hcycle
    · exact ih hranked hgrey hcycle
    · rename_i hwhite
      have hsound:=root_sound hranked hgrey (not_not.mp hwhite)
      split at hcycle
      · rename_i color' hsearch
        obtain ⟨hranked',hgrey',-⟩:=search_sound hsound hsearch
        exact ih hranked' hgrey' hcycle
      · exact search_cycle hsound hcycle

omit [DecidableEq κ] in
theorem exists_next {R : κ → κ → Prop} {last : κ} {l : List κ} (h : (l++[last]).IsChain R) : ∀ a∈l, ∃ b, R a b := by
  induction l with
  | nil => simp
  | cons x l ih =>
    intro a ha
    obtain ⟨hhead,htail⟩:=List.isChain_cons.mp h
    rcases List.mem_cons.mp ha with rfl | ha
    · cases l with
      | nil => exact ⟨last,hhead last rfl⟩
      | cons y l => exact ⟨y,hhead y rfl⟩
    · exact ih htail a ha

omit [DecidableEq κ] in
theorem transGen_of_isChain {R : κ → κ → Prop} {first last : κ} {l : List κ} (h : (first::l++[last]).IsChain R) :
    Relation.TransGen R first last := by
  induction l generalizing first with
  | nil => exact .single (List.isChain_cons_cons.mp h).1
  | cons x l ih =>
    obtain ⟨hedge,hrest⟩:=List.isChain_cons_cons.mp h
    exact .head hedge (ih hrest)

theorem findCycle_some (h : findCycle keys edges=some path) : Closed edges path := by
  unfold findCycle at h
  split at h
  · rename_i path' hcycle
    cases h
    exact searchAll_cycle ⟨fun _ => 0,0,fun b hb => by contradiction⟩ (by simp) hcycle
  · contradiction

end Dfs
