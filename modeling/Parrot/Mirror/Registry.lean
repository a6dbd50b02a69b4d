import Mathlib.Data.String.Basic
import Parrot.Lib.OrderedMap
import Parrot.Mirror.Policy

/-! # The registry of mirror policies (`mirror.rs:335-611`)

An entry is known by a number of its own, so that a replaced policy is told from its successor
under the same source. Which jobs an entry has and whether it was asked to stop are left out: no
function below reads them. -/

namespace Parrot.Mirror
open Machine

/-- The policies that were installed together, each with its source and its entry. -/
abbrev Group := List (String × ℕ)

/-- `workers` are the entries that have not retired, `node` is the identity of the attached
remote system. -/
structure Registry where
  opened : Bool
  entries : OrderedMap String ℕ
  workers : List ℕ
  fresh : ℕ
  node : Option String

namespace Registry

def new (node : Option String) : Registry := ⟨true,.empty,[],0,node⟩

def isClosed (r : Registry) (entry : ℕ) : Bool := decide (entry∉r.workers)

def checkTarget (r : Registry) (p : WireMirrorPolicy) : Except WireMirrorError Unit :=
  match remoteShadow p.shadowPath with
  | none => .ok ()
  | some (node,_) =>
    match r.node with
    | none => .error .remoteUnavailable
    | some own => if node=own then .error .remoteUnavailable else .ok ()

def checkPolicies (r : Registry) : List (WireMirrorPolicy × WireMirrorOptions) → List String → Except WireMirrorError Unit
  | [], _ => .ok ()
  | (policy,options)::policies, sources => do
    policy.validate
    r.checkTarget policy
    options.validate
    if policy.sourcePath∈sources then .error .conflict
    else r.checkPolicies policies (policy.sourcePath::sources)

def registered (r : Registry) (handle : String × ℕ) : Bool := r.entries.get handle.1=some handle.2

def spawn (r : Registry) (source : String) : Registry :=
  {r with entries:=r.entries.insert source r.fresh,workers:=r.fresh::r.workers,fresh:=r.fresh+1}

/-- One entry after the other, with the handles in order. -/
def spawnAll (r : Registry) : List String → Registry × Group
  | [] => (r,[])
  | source::sources =>
    let (r',group):=(r.spawn source).spawnAll sources
    (r',(source,r.fresh)::group)

def dropSources (r : Registry) (sources : List String) : Registry :=
  {r with entries:=sources.foldl (fun entries source => entries.remove source) r.entries}

/-- The group of another registry, which `replace_group` refuses, and a missing runtime do
not occur: a store works on one registry, from within its runtime. -/
def replaceGroup (r : Registry) (previous : Option Group) (policies : List (WireMirrorPolicy × WireMirrorOptions)) :
    Except WireMirrorError (Registry × Group) := do
  if policies.length>64 then .error .registryFull
  else
    r.checkPolicies policies []
    let old:=previous.getD []
    let sources:=policies.map fun p => p.1.sourcePath
    if !r.opened then .error .closed
    else if old.any fun handle => r.isClosed handle.2||!r.registered handle then .error .conflict
    else if r.entries.size-old.length+policies.length>64 then .error .registryFull
    else if sources.any fun source => r.entries.contains source&&decide (source∉old.map Prod.fst) then .error .conflict
    else if r.workers.length+policies.length>64 then .error .registryFull
    else return (r.dropSources (old.map Prod.fst)).spawnAll sources

def registerGroup (r : Registry) (policies : List (WireMirrorPolicy × WireMirrorOptions)) :
    Except WireMirrorError (Registry × Group) := r.replaceGroup none policies

def register (r : Registry) (policy : WireMirrorPolicy) (options : WireMirrorOptions) :
    Except WireMirrorError (Registry × ℕ) := do
  policy.validate
  r.checkTarget policy
  options.validate
  if !r.opened then .error .closed
  else if r.entries.size≥64 ∧ r.entries.contains policy.sourcePath=false then .error .registryFull
  else if r.workers.length+1>64 then .error .registryFull
  else return (r.spawn policy.sourcePath,r.fresh)

def remove (r : Registry) (source : String) : Registry := {r with entries:=r.entries.remove source}

/-- `WireMirrorGroup::cancel`: only the group's own entries go. -/
def cancel (r : Registry) (group : Group) : Registry :=
  group.foldl (fun r handle => if r.registered handle then r.remove handle.1 else r) r

def isFinished (r : Registry) (group : Group) : Bool := group.all fun handle => r.isClosed handle.2

def isCurrent (r : Registry) (group : Group) : Bool :=
  r.opened&&group.all fun handle => !r.isClosed handle.2&&r.registered handle

def close (r : Registry) : Registry := {r with opened:=false,entries:=.empty}

/-- The worker and the encoders of an entry are done. -/
def retire (r : Registry) (entry : ℕ) : Registry := {r with workers:=r.workers.erase entry}

end Registry

/-- What other users of a registry and its workers do to it. -/
inductive RegistryEvent where
  | retire (entry : ℕ)
  | register (policy : WireMirrorPolicy) (options : WireMirrorOptions)
  | registerGroup (policies : List (WireMirrorPolicy × WireMirrorOptions))
  | cancel (group : Group)
  | remove (source : String)
  | close

def RegistryEvent.apply (r : Registry) : RegistryEvent → Registry
  | .retire entry => r.retire entry
  | .register policy options => ((r.register policy options).toOption.map Prod.fst).getD r
  | .registerGroup policies => ((r.registerGroup policies).toOption.map Prod.fst).getD r
  | .cancel group => r.cancel group
  | .remove source => r.remove source
  | .close => r.close

namespace Registry
variable {r r' : Registry} {group : Group} {source : String} {entry : ℕ}

@[simp] theorem spawn_fresh : (r.spawn source).fresh=r.fresh+1 := rfl

theorem get_dropSources (sources : List String) :
    (r.dropSources sources).entries.get source=if source∈sources then none else r.entries.get source := by
  unfold dropSources
  simp only
  induction sources generalizing r with
  | nil => simp
  | cons s sources ih =>
    rw [List.foldl_cons]
    have hrest:=ih (r := {r with entries:=r.entries.remove s})
    simp only at hrest
    rw [hrest,OrderedMap.get_remove]
    by_cases hs : source=s
    · simp [hs]
    · simp [hs]

theorem spawnAll_fields (r : Registry) (sources : List String) :
    (r.spawnAll sources).1.fresh=r.fresh+sources.length ∧ (r.spawnAll sources).1.opened=r.opened ∧
      (r.spawnAll sources).1.node=r.node ∧ (∀ w, w∈r.workers → w∈(r.spawnAll sources).1.workers) ∧
      (∀ w, w∈(r.spawnAll sources).1.workers → w∈r.workers ∨ w<(r.spawnAll sources).1.fresh) := by
  induction sources generalizing r with
  | nil => exact ⟨rfl,rfl,rfl,fun w hw => hw,fun w hw => .inl hw⟩
  | cons s sources ih =>
    obtain ⟨hfresh,hopened,hnode,hkeep,hnew⟩:=ih (r.spawn s)
    simp only [spawnAll]
    refine ⟨?_,hopened,hnode,fun w hw => hkeep w (List.mem_cons_of_mem _ hw),?_⟩
    · rw [hfresh,spawn_fresh,List.length_cons]
      omega
    · intro w hw
      rcases hnew w hw with hw | hw
      · rcases List.mem_cons.mp hw with rfl | hw
        · rw [hfresh,spawn_fresh]
          exact .inr (by omega)
        · exact .inl hw
      · exact .inr hw

theorem spawnAll_group (r : Registry) (sources : List String) : (r.spawnAll sources).2.map Prod.fst=sources ∧
    ∀ handle∈(r.spawnAll sources).2, r.fresh≤handle.2 ∧ handle.2 < r.fresh+sources.length := by
  induction sources generalizing r with
  | nil => simp [spawnAll]
  | cons s sources ih =>
    obtain ⟨hsources,hbounds⟩:=ih (r.spawn s)
    simp only [spawnAll,List.map_cons,hsources,true_and]
    intro handle hmem
    rcases List.mem_cons.mp hmem with rfl | hmem
    · simp
    · have:=hbounds handle hmem
      simp only [spawn] at this
      simp only [List.length_cons]
      omega

theorem get_spawnAll (r : Registry) (sources : List String) : (r.spawnAll sources).1.entries.get source=some entry →
    (source∉sources ∧ r.entries.get source=some entry) ∨ (source,entry)∈(r.spawnAll sources).2 := by
  induction sources generalizing r with
  | nil => exact fun h => .inl ⟨by simp,h⟩
  | cons s sources ih =>
    intro h
    simp only [spawnAll] at h ⊢
    rcases ih (r.spawn s) h with ⟨hnot,hget⟩ | hmem
    · simp only [spawn,OrderedMap.get_insert] at hget
      split at hget
      · rename_i hs
        cases hget
        exact .inr (by simp [hs])
      · rename_i hs
        exact .inl ⟨by simp [hs,hnot],hget⟩
    · exact .inr (List.mem_cons_of_mem _ hmem)

theorem get_cancel (group : Group) : (r.cancel group).entries.get source=some entry ↔
    r.entries.get source=some entry ∧ (source,entry)∉group := by
  unfold cancel
  induction group generalizing r with
  | nil => simp
  | cons handle group ih =>
    rw [List.foldl_cons,ih]
    by_cases hreg : r.registered handle
    · simp only [hreg,if_true,remove,OrderedMap.get_remove,List.mem_cons,not_or]
      have hget : r.entries.get handle.1=some handle.2 := of_decide_eq_true hreg
      constructor
      · intro h
        obtain ⟨h,hnot⟩:=h
        obtain ⟨hne,h⟩:=Option.ite_none_left_eq_some.mp h
        exact ⟨h,fun heq => hne (congrArg Prod.fst heq),hnot⟩
      · intro h
        obtain ⟨h,hne,hnot⟩:=h
        refine ⟨?_,hnot⟩
        rw [if_neg]
        · exact h
        · intro hs
          rw [hs,hget] at h
          exact hne (Prod.ext hs (Option.some.inj h).symm)
    · simp only [hreg,List.mem_cons,not_or]
      have hget : r.entries.get handle.1≠some handle.2 := fun h => hreg (decide_eq_true h)
      constructor
      · intro h
        refine ⟨h.1,?_,h.2⟩
        intro heq
        have h1:=h.1
        rw [show source=handle.1 from congrArg Prod.fst heq,show entry=handle.2 from congrArg Prod.snd heq] at h1
        exact hget h1
      · exact fun h => ⟨h.1,h.2.2⟩

theorem cancel_fields (group : Group) : (r.cancel group).fresh=r.fresh ∧ (r.cancel group).opened=r.opened ∧
    (r.cancel group).workers=r.workers ∧ (r.cancel group).node=r.node := by
  unfold cancel
  induction group generalizing r with
  | nil => exact ⟨rfl,rfl,rfl,rfl⟩
  | cons handle group ih =>
    rw [List.foldl_cons]
    split
    · exact ih (r := r.remove handle.1)
    · exact ih

variable {policies : List (WireMirrorPolicy × WireMirrorOptions)}

theorem checkPolicies_ok {seen : List String} (h : r.checkPolicies policies seen=.ok ()) :
    (policies.map fun p => p.1.sourcePath).Nodup ∧ ∀ p∈policies, p.1.sourcePath∉seen := by
  induction policies generalizing seen with
  | nil => simp
  | cons p policies ih =>
    obtain ⟨policy,options⟩:=p
    simp only [checkPolicies] at h
    cases hp : policy.validate with
    | error e => simp [hp,bind,Except.bind] at h
    | ok _ =>
      cases ht : r.checkTarget policy with
      | error e => simp [hp,ht,bind,Except.bind] at h
      | ok _ =>
        cases ho : options.validate with
        | error e => simp [hp,ht,ho,bind,Except.bind] at h
        | ok _ =>
          simp only [hp,ht,ho,bind,Except.bind] at h
          obtain ⟨hnew,h⟩:=Except.of_ite_left h
          obtain ⟨hnodup,hrest⟩:=ih h
          refine ⟨?_,?_⟩
          · rw [List.map_cons,List.nodup_cons]
            refine ⟨?_,hnodup⟩
            intro hmem
            obtain ⟨q,hq,hsource⟩:=List.mem_map.mp hmem
            exact hrest q hq (by simp [hsource])
          · intro q hq
            rcases List.mem_cons.mp hq with rfl | hq
            · exact hnew
            · exact fun hmem => hrest q hq (List.mem_cons_of_mem _ hmem)

structure Replaced (r : Registry) (old : Group) (sources : List String) (r' : Registry) (group : Group) : Prop where
  opened : r.opened=true
  current : ∀ handle∈old, r.entries.get handle.1=some handle.2 ∧ handle.2∈r.workers
  distinct : sources.Nodup
  own : ∀ source∈sources, source∈r.entries.keys → source∈old.map Prod.fst
  result : (r',group)=(r.dropSources (old.map Prod.fst)).spawnAll sources

theorem replaceGroup_fits {previous : Option Group} (h : r.replaceGroup previous policies=.ok (r',group)) : Replaced r
    (previous.getD []) (policies.map fun p => p.1.sourcePath) r' group ∧ r.workers.length+policies.length≤64 := by
  unfold replaceGroup at h
  obtain ⟨-,h⟩:=Except.of_ite_left h
  cases hcheck : r.checkPolicies policies [] with
  | error e => simp [hcheck,bind,Except.bind] at h
  | ok _ =>
    simp only [hcheck,bind,Except.bind,pure,Except.pure] at h
    obtain ⟨hopen,h⟩:=Except.of_ite_left h
    obtain ⟨hcurrent,h⟩:=Except.of_ite_left h
    obtain ⟨-,h⟩:=Except.of_ite_left h
    obtain ⟨hown,h⟩:=Except.of_ite_left h
    obtain ⟨hroom,h⟩:=Except.of_ite_left h
    refine ⟨⟨by simpa using hopen,?_,(checkPolicies_ok hcheck).1,?_,(Except.ok.inj h).symm⟩,Nat.le_of_not_lt hroom⟩
    · intro handle hmem
      simp only [List.any_eq_true,not_exists,not_and,Bool.or_eq_true,not_or] at hcurrent
      obtain ⟨hclosed,hreg⟩:=hcurrent handle hmem
      simp only [isClosed,decide_eq_true_eq,not_not] at hclosed
      simp only [registered,Bool.not_eq_true] at hreg
      exact ⟨by simpa using hreg,hclosed⟩
    · intro s hs hkey
      by_contra hnot
      apply hown
      rw [List.any_eq_true]
      exact ⟨s,hs,by simp [hkey,hnot]⟩

theorem replaceGroup_ok {previous : Option Group}
    (h : r.replaceGroup previous policies=.ok (r',group)) :
    Replaced r (previous.getD []) (policies.map fun p => p.1.sourcePath) r' group := (replaceGroup_fits h).1

theorem register_ok {policy : WireMirrorPolicy} {options : WireMirrorOptions} (h : r.register policy options=.ok (r',entry)) :
    r'=r.spawn policy.sourcePath ∧ r.workers.length+1≤64 := by
  unfold register at h
  cases hp : policy.validate with
  | error e => simp [hp,bind,Except.bind] at h
  | ok _ =>
    cases ht : r.checkTarget policy with
    | error e => simp [hp,ht,bind,Except.bind] at h
    | ok _ =>
      cases ho : options.validate with
      | error e => simp [hp,ht,ho,bind,Except.bind] at h
      | ok _ =>
        simp only [hp,ht,ho,bind,Except.bind,pure,Except.pure] at h
        obtain ⟨-,h⟩:=Except.of_ite_left h
        obtain ⟨-,h⟩:=Except.of_ite_left h
        obtain ⟨hroom,h⟩:=Except.of_ite_left h
        exact ⟨(Prod.mk.inj (Except.ok.inj h)).1.symm,Nat.le_of_not_lt hroom⟩

end Registry
end Parrot.Mirror
