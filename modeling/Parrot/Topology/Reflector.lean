import Parrot.Lib.Newest
import Parrot.Topology.Routes

/-! # Reflecting routes (`roles/route_reflector.rs`)

Clients report routes to a reflector, which sends every improvement on to the other clients. -/

namespace Parrot.Topology
open Parrot.Newest

structure RouteReflector where
  id : String
  clients : List String
  table : Routes

abbrev Gossip := List RouteEntry

namespace RouteReflector

def new (id : String) (clients : List String) : RouteReflector := ⟨id,clients,∅⟩

/-- One turn of `reflect_from`, with the entries accepted so far. -/
def reflectOne (acc : Routes × Gossip) (e : RouteEntry) : Routes × Gossip :=
  if RouteTable.takes (acc.1.lookup e.targetPrefix) e then (acc.1.insert e.targetPrefix e,acc.2++[e]) else acc

def reflectFrom (r : RouteReflector) (client : String) (gossip : Gossip) : RouteReflector × List (String × Gossip) :=
  let (table,accepted):=gossip.foldl reflectOne (r.table,[])
  let r':={r with table}
  if accepted.isEmpty then (r',[])
  else (r',(r.clients.filter (· ≠ client)).map fun c => (c,accepted))

def advertiseLocal (r : RouteReflector) (e : RouteEntry) : RouteReflector × List (String × Gossip) :=
  ({r with table:=r.table.insert e.targetPrefix e},r.clients.map fun c => (c,[e]))

end RouteReflector

/-- `reports` were merged by their client and not reflected yet, `flying` was fanned out
and not merged yet. -/
structure Mesh where
  reflector : RouteReflector
  tables : String → RouteTable
  reports : List (String × Gossip)
  flying : List (String × Gossip)

inductive Action where
  | report (client : String) (gossip : Gossip)
  | reflect (i : ℕ)
  | advertise (e : RouteEntry)
  | deliver (i : ℕ)

namespace Mesh

def start (id : String) (clients : List String) : Mesh := ⟨.new id clients,fun _ => .new,[],[]⟩

def mergeAt (s : Mesh) (client : String) (gossip : Gossip) : Mesh :=
  {s with tables:=Function.update s.tables client ((s.tables client).merge gossip).1}

def step (s : Mesh) : Action → Mesh
  | .report client gossip => {s.mergeAt client gossip with reports:=s.reports++[(client,gossip)]}
  | .reflect i =>
    match s.reports[i]? with
    | none => s
    | some (client,gossip) =>
      let (reflector,sent):=s.reflector.reflectFrom client gossip
      {s with reflector,reports:=s.reports.eraseIdx i,flying:=s.flying++sent}
  | .advertise e =>
    let (reflector,sent):=s.reflector.advertiseLocal e
    {s with reflector,flying:=s.flying++sent}
  | .deliver i =>
    match s.flying[i]? with
    | none => s
    | some (client,gossip) => {s.mergeAt client gossip with flying:=s.flying.eraseIdx i}

def run (s : Mesh) (actions : List Action) : Mesh := actions.foldl step s

/-- A local route is never worse than the one the reflector holds for its prefix. -/
def Fresh (s : Mesh) : Action → Prop
  | .advertise e => ∀ cur, s.reflector.table.lookup e.targetPrefix=some cur → cur.preferredTo e=false
  | _ => True

def AllFresh : Mesh → List Action → Prop
  | _,[] => True
  | s,a::actions => s.Fresh a ∧ (s.step a).AllFresh actions

end Mesh

abbrev Grade := (ℕᵒᵈ ×ₗ ℕ ×ₗ String)ᵒᵈ

def RouteEntry.grade (e : RouteEntry) : Grade := OrderDual.toDual e.rank

theorem preferredTo_iff {e e' : RouteEntry} : e.preferredTo e'=true ↔ e'.grade<e.grade := by
  rw [RouteEntry.preferredTo,decide_eq_true_iff]
  rfl

theorem grade_injective {e e' : RouteEntry} (hkey : e.targetPrefix=e'.targetPrefix) (h : e.grade=e'.grade) : e=e' := by
  cases e
  cases e'
  cases hkey
  cases h
  rfl

def Routes.level (t : Routes) (p : String) : WithBot Grade := Newest.level RouteEntry.grade (t.lookup p)

def Routes.Keyed (t : Routes) : Prop := ∀ p e, t.lookup p=some e → e.targetPrefix=p

def Gossip.Below (gossip : Gossip) (p : String) (v : WithBot Grade) : Prop :=
  ∀ e∈gossip, e.targetPrefix=p → (e.grade : WithBot Grade)≤v

variable {t t' : Routes} {p : String} {e : RouteEntry} {gossip : Gossip}

theorem keyed_empty : Routes.Keyed ∅ := fun p _ h => nomatch (Finmap.lookup_empty p).symm.trans h

theorem Routes.Keyed.insert (h : t.Keyed) (e : RouteEntry) : Routes.Keyed (t.insert e.targetPrefix e) := by
  intro p x hx
  by_cases hp : p=e.targetPrefix
  · subst hp
    rw [Finmap.lookup_insert] at hx
    rw [← Option.some.inj hx]
  · rw [Finmap.lookup_insert_of_ne _ hp] at hx
    exact h p x hx

theorem eq_of_level (h : t.Keyed) (h' : t'.Keyed) (hlevel : ∀ p, t.level p=t'.level p) : t=t' := by
  apply Finmap.ext_lookup
  intro p
  have heq:=hlevel p
  unfold Routes.level Newest.level at heq
  cases hp : t.lookup p with
  | none =>
    rw [hp] at heq
    exact (Option.map_eq_none_iff.mp heq.symm).symm
  | some e =>
    rw [hp] at heq
    obtain ⟨e',he',hgrade⟩:=Option.map_eq_some_iff.mp heq.symm
    rw [he']
    exact congrArg some (grade_injective ((h p e hp).trans (h' p e' he').symm) hgrade.symm)

theorem level_insert (t : Routes) (e : RouteEntry) (p : String) :
    Routes.level (t.insert e.targetPrefix e) p=if p=e.targetPrefix then (e.grade : WithBot Grade) else t.level p := by
  unfold Routes.level
  split
  · rename_i hp
    rw [hp,Finmap.lookup_insert]
    rfl
  · rename_i hp
    rw [Finmap.lookup_insert_of_ne _ hp]

theorem takes_iff : RouteTable.takes (t.lookup e.targetPrefix) e=true ↔
    t.level e.targetPrefix<(e.grade : WithBot Grade) := by
  unfold RouteTable.takes Routes.level
  cases t.lookup e.targetPrefix with
  | none => exact iff_of_true rfl (WithBot.bot_lt_coe _)
  | some cur =>
    rw [preferredTo_iff]
    exact WithBot.coe_lt_coe.symm

theorem level_take_le (t : Routes) (e : RouteEntry) (p : String) (v : WithBot Grade)
    (h : t.level e.targetPrefix≤(e.grade : WithBot Grade)) :
    Routes.level (t.insert e.targetPrefix e) p≤v ↔ t.level p≤v ∧ Gossip.Below [e] p v := by
  rw [level_insert]
  split
  · rename_i hp
    subst hp
    constructor
    · intro hle
      exact ⟨h.trans hle,fun x hx _ => by rwa [List.mem_singleton.mp hx]⟩
    · exact fun hle => hle.2 e (List.mem_singleton_self e) rfl
  · rename_i hp
    refine ⟨fun hle => ⟨hle,fun x hx heq => ?_⟩,And.left⟩
    rw [List.mem_singleton.mp hx] at heq
    exact absurd heq.symm hp

theorem below_append {gossip gossip' : Gossip} {v : WithBot Grade} :
    Gossip.Below (gossip++gossip') p v ↔ gossip.Below p v ∧ gossip'.Below p v := by
  constructor
  · intro h
    exact ⟨fun e he => h e (List.mem_append_left _ he),fun e he => h e (List.mem_append_right _ he)⟩
  · intro h e he
    rcases List.mem_append.mp he with he | he
    · exact h.1 e he
    · exact h.2 e he

structure Offered (t t' : Routes) (gossip : Gossip) : Prop where
  keyed : t.Keyed → t'.Keyed
  level_le : ∀ p v, t'.level p≤v ↔ t.level p≤v ∧ gossip.Below p v
  origin : ∀ p e, t'.lookup p=some e → t.lookup p=some e ∨ e∈gossip

theorem Offered.none (t : Routes) : Offered t t [] :=
  ⟨id,fun _ _ => ⟨fun h => ⟨h,fun _ he => by contradiction⟩,And.left⟩,fun _ _ => .inl⟩

theorem Offered.trans {t'' : Routes} {gossip' : Gossip} (h : Offered t t' gossip) (h' : Offered t' t'' gossip') :
    Offered t t'' (gossip++gossip') := by
  refine ⟨h'.keyed ∘ h.keyed,fun p v => ?_,fun p e he => ?_⟩
  · rw [h'.level_le,h.level_le,below_append,and_assoc]
  · rcases h'.origin p e he with he | he
    · exact (h.origin p e he).imp_right (List.mem_append_left _)
    · exact .inr (List.mem_append_right _ he)

theorem Offered.insert (h : t.level e.targetPrefix≤(e.grade : WithBot Grade)) :
    Offered t (t.insert e.targetPrefix e) [e] := by
  refine ⟨fun hkeyed => hkeyed.insert e,fun p v => level_take_le t e p v h,fun p x hx => ?_⟩
  by_cases hp : p=e.targetPrefix
  · subst hp
    rw [Finmap.lookup_insert] at hx
    exact .inr (List.mem_singleton.mpr (Option.some.inj hx).symm)
  · rw [Finmap.lookup_insert_of_ne _ hp] at hx
    exact .inl hx

theorem Offered.taken (h : RouteTable.takes (t.lookup e.targetPrefix) e=true) :
    Offered t (t.insert e.targetPrefix e) [e] := .insert (takes_iff.mp h).le

theorem Offered.refused (h : ¬ RouteTable.takes (t.lookup e.targetPrefix) e=true) : Offered t t [e] := by
  refine ⟨id,fun p v => ⟨fun hle => ⟨hle,fun x hx heq => ?_⟩,And.left⟩,fun _ _ => .inl⟩
  rw [takes_iff,not_lt] at h
  rw [List.mem_singleton.mp hx] at heq ⊢
  rw [heq] at h
  exact h.trans hle

theorem Offered.grows (h : Offered t t' gossip) (p : String) : t.level p≤t'.level p := ((h.level_le p _).mp le_rfl).1

theorem Offered.reached (h : Offered t t' gossip) (he : e∈gossip) :
    (e.grade : WithBot Grade)≤t'.level e.targetPrefix := ((h.level_le e.targetPrefix _).mp le_rfl).2 e he rfl

theorem merge_offered (t : RouteTable) (gossip : Gossip) : Offered t.entries (t.merge gossip).1.entries gossip := by
  have hfold : ∀ acc : RouteTable × ℕ, Offered acc.1.entries (gossip.foldl RouteTable.mergeOne acc).1.entries gossip := by
    induction gossip with
    | nil => exact fun acc => .none acc.1.entries
    | cons e gossip ih =>
      intro acc
      have hone : Offered acc.1.entries (RouteTable.mergeOne acc e).1.entries [e] := by
        unfold RouteTable.mergeOne
        split
        · rename_i htakes
          exact .taken htakes
        · rename_i hnot
          exact .refused hnot
      exact hone.trans (ih (RouteTable.mergeOne acc e))
  exact hfold (t,0)

theorem reflect_offered (t : Routes) (gossip : Gossip) : Offered t (gossip.foldl RouteReflector.reflectOne (t,[])).1 gossip ∧
    Offered t (gossip.foldl RouteReflector.reflectOne (t,[])).1 (gossip.foldl RouteReflector.reflectOne (t,[])).2 ∧
    (gossip.foldl RouteReflector.reflectOne (t,[])).2⊆gossip := by
  induction gossip using List.reverseRecOn with
  | nil => exact ⟨.none t,.none t,List.Subset.refl _⟩
  | append_singleton gossip e ih =>
    obtain ⟨hall,haccepted,hsub⟩:=ih
    rw [List.foldl_append,List.foldl_cons,List.foldl_nil]
    unfold RouteReflector.reflectOne at hall haccepted hsub ⊢
    split
    · rename_i htakes
      exact ⟨hall.trans (.taken htakes),haccepted.trans (.taken htakes),
        List.append_subset.mpr ⟨List.Subset.trans hsub (List.subset_append_left ..),List.subset_append_right ..⟩⟩
    · rename_i hnot
      exact ⟨hall.trans (.refused hnot),haccepted,List.Subset.trans hsub (List.subset_append_left ..)⟩

namespace Mesh

variable {s : Mesh}

def Quiet (messages : List (String × Gossip)) (c p : String) (v : WithBot Grade) : Prop :=
  ∀ m∈messages, m.1=c → Gossip.Below m.2 p v

structure Inv (s : Mesh) : Prop where
  keyed : s.reflector.table.Keyed
  tables_keyed : ∀ c, (s.tables c).entries.Keyed
  sent : ∀ c∈s.reflector.clients, ∀ p v, (s.tables c).entries.level p≤v → Quiet s.flying c p v →
    s.reflector.table.level p≤v
  known : ∀ c∈s.reflector.clients, ∀ p v, s.reflector.table.level p≤v → Quiet s.reports c p v →
    (s.tables c).entries.level p≤v
  flying : ∀ m∈s.flying, ∀ e∈m.2, (e.grade : WithBot Grade) ≤ s.reflector.table.level e.targetPrefix
  reports : ∀ m∈s.reports, ∀ e∈m.2, (e.grade : WithBot Grade)≤(s.tables m.1).entries.level e.targetPrefix

theorem start_inv (id : String) (clients : List String) : (start id clients).Inv where
  keyed := keyed_empty
  tables_keyed _ := keyed_empty
  sent _ _ _ _ h _ := h
  known _ _ _ _ h _ := h
  flying _ h := by contradiction
  reports _ h := by contradiction

theorem Quiet.of_subset {messages messages' : List (String × Gossip)} {c p : String} {v : WithBot Grade}
    (h : Quiet messages' c p v) (hsub : messages⊆messages') : Quiet messages c p v := fun m hm => h m (hsub hm)

theorem mergeAt_offered (s : Mesh) (c c' : String) (gossip : Gossip) :
    Offered (s.tables c').entries ((s.mergeAt c gossip).tables c').entries (if c'=c then gossip else []) := by
  unfold mergeAt
  split
  · rename_i hc
    subst hc
    dsimp only
    rw [Function.update_self]
    exact merge_offered (s.tables c') gossip
  · rename_i hc
    dsimp only
    rw [Function.update_of_ne hc]
    exact .none _

theorem report_inv (h : s.Inv) (client : String) (gossip : Gossip) : (s.step (.report client gossip)).Inv := by
  have hgrown:=mergeAt_offered s client
  refine ⟨h.keyed,fun c => (hgrown c gossip).keyed (h.tables_keyed c),?_,?_,h.flying,?_⟩
  · intro c hc p v hle hquiet
    exact h.sent c hc p v ((hgrown c gossip).grows p |>.trans hle) hquiet
  · intro c hc p v hle hquiet
    refine ((hgrown c gossip).level_le p v).mpr ⟨?_,?_⟩
    · exact h.known c hc p v hle (hquiet.of_subset (List.subset_append_left ..))
    · split
      · rename_i heq
        exact hquiet (client,gossip) (by simp [step]) heq.symm
      · exact fun _ he => by contradiction
  · intro m hm e he
    rcases List.mem_append.mp hm with hm | hm
    · exact (h.reports m hm e he).trans ((hgrown m.1 gossip).grows _)
    · obtain rfl:=List.mem_singleton.mp hm
      refine (hgrown client gossip).reached ?_
      rw [if_pos rfl]
      exact he

theorem mem_erased {messages : List (String × Gossip)} {i : ℕ} {m m' : String × Gossip} (hi : messages[i]? = some m)
    (h : m'∈messages) : m'=m ∨ m'∈messages.eraseIdx i := by
  obtain ⟨j,hj⟩:=List.mem_iff_getElem?.mp h
  by_cases hij : j=i
  · subst hij
    rw [hi] at hj
    exact .inl (Option.some.inj hj).symm
  · exact .inr (List.mem_eraseIdx_iff_getElem?.mpr ⟨j,hij,hj⟩)

theorem quiet_erased {messages : List (String × Gossip)} {i : ℕ} {m : String × Gossip} {c : String}
    {v : WithBot Grade} (hi : messages[i]? = some m) (hquiet : Quiet (messages.eraseIdx i) c p v)
    (hm : m.1=c → Gossip.Below m.2 p v) : Quiet messages c p v := by
  intro m' hm' hc
  rcases mem_erased hi hm' with rfl | hm'
  · exact hm hc
  · exact hquiet m' hm' hc

section
variable (h : s.Inv)
include h

theorem deliver_inv (i : ℕ) : (s.step (.deliver i)).Inv := by
  simp only [step]
  split
  · exact h
  · rename_i client gossip hi
    have hgrown:=mergeAt_offered s client
    have hmem : (client,gossip)∈s.flying := List.mem_of_getElem? hi
    refine ⟨h.keyed,fun c => (hgrown c gossip).keyed (h.tables_keyed c),?_,?_,?_,?_⟩
    · intro c hc p v hle hquiet
      obtain ⟨hold,hnew⟩:=((hgrown c gossip).level_le p v).mp hle
      refine h.sent c hc p v hold (quiet_erased hi hquiet ?_)
      intro heq
      rwa [if_pos heq.symm] at hnew
    · intro c hc p v hle hquiet
      refine ((hgrown c gossip).level_le p v).mpr ⟨h.known c hc p v hle hquiet,?_⟩
      split
      · intro e he hp
        have hreached:=h.flying _ hmem e he
        rw [hp] at hreached
        exact hreached.trans hle
      · exact fun _ he => by contradiction
    · intro m hm
      exact h.flying m (List.mem_of_mem_eraseIdx hm)
    · intro m hm e he
      exact (h.reports m hm e he).trans ((hgrown m.1 gossip).grows _)

theorem fanned_inv {table : Routes} {accepted : Gossip} {reports sent : List (String × Gossip)}
    (htable : Offered s.reflector.table table accepted)
    (hsent : ∀ m∈sent, m.2=accepted)
    (hheard : ∀ c∈s.reflector.clients, (c,accepted)∈sent ∨
      ∀ e∈accepted, (e.grade : WithBot Grade)≤(s.tables c).entries.level e.targetPrefix)
    (hreports : reports⊆s.reports)
    (hdone : ∀ m∈s.reports, m∈reports ∨ ∀ e∈m.2, (e.grade : WithBot Grade)≤table.level e.targetPrefix) :
    Inv {s with reflector := {s.reflector with table}, reports,flying := s.flying++sent} := by
  refine ⟨htable.keyed h.keyed,h.tables_keyed,?_,?_,?_,fun m hm => h.reports m (hreports hm)⟩
  · intro c hc p v hle hquiet
    refine (htable.level_le p v).mpr
      ⟨h.sent c hc p v hle (hquiet.of_subset (List.subset_append_left ..)),?_⟩
    rcases hheard c hc with hin | hhas
    · exact hquiet _ (List.mem_append_right _ hin) rfl
    · intro e he hp
      have hlevel:=hhas e he
      rw [hp] at hlevel
      exact hlevel.trans hle
  · intro c hc p v hle hquiet
    refine h.known c hc p v ((htable.grows p).trans hle) ?_
    intro m hm heq
    rcases hdone m hm with hin | hhas
    · exact hquiet m hin heq
    · intro e he hp
      have hlevel:=hhas e he
      rw [hp] at hlevel
      exact hlevel.trans hle
  · intro m hm e he
    rcases List.mem_append.mp hm with hm | hm
    · exact (h.flying m hm e he).trans (htable.grows _)
    · rw [hsent m hm] at he
      exact htable.reached he

theorem reflect_inv (i : ℕ) : (s.step (.reflect i)).Inv := by
  simp only [step]
  split
  · exact h
  · rename_i client gossip hi
    have hmem : (client,gossip)∈s.reports := List.mem_of_getElem? hi
    obtain ⟨hall,haccepted,hpart⟩:=reflect_offered s.reflector.table gossip
    have hdone : ∀ m∈s.reports, m∈s.reports.eraseIdx i ∨ ∀ e∈m.2,
        (e.grade : WithBot Grade)≤(gossip.foldl RouteReflector.reflectOne (s.reflector.table,[])).1.level e.targetPrefix := by
      intro m hm
      rcases mem_erased hi hm with rfl | hm
      · exact .inr fun e he => hall.reached he
      · exact .inl hm
    have hsub : s.reports.eraseIdx i⊆s.reports := fun m hm => List.mem_of_mem_eraseIdx hm
    unfold RouteReflector.reflectFrom
    dsimp only
    split
    · rename_i hempty
      have hnil:=List.isEmpty_iff.mp hempty
      refine fanned_inv h haccepted (fun m hm => by contradiction) (fun c _ => .inr ?_) hsub hdone
      intro e he
      rw [hnil] at he
      contradiction
    · refine fanned_inv h haccepted ?_ ?_ hsub hdone
      · intro m hm
        obtain ⟨c,-,rfl⟩:=List.mem_map.mp hm
        rfl
      · intro c hc
        by_cases hsource : c=client
        · -- The source has merged its report, of which the accepted entries are a part.
          subst hsource
          exact .inr fun e he => h.reports _ hmem e (hpart he)
        · exact .inl (List.mem_map.mpr ⟨c,List.mem_filter.mpr ⟨hc,decide_eq_true hsource⟩,rfl⟩)

theorem advertise_inv {e : RouteEntry} (hfresh : s.Fresh (.advertise e)) : (s.step (.advertise e)).Inv := by
  have hlevel : s.reflector.table.level e.targetPrefix≤(e.grade : WithBot Grade) := by
    unfold Routes.level
    cases hcur : s.reflector.table.lookup e.targetPrefix with
    | none => exact bot_le
    | some cur =>
      have hnot : ¬ e.grade<cur.grade := fun hlt => by
        have hpreferred:=preferredTo_iff.mpr hlt
        rw [hfresh cur hcur] at hpreferred
        contradiction
      exact WithBot.coe_le_coe.mpr (not_lt.mp hnot)
  refine fanned_inv h (.insert hlevel) ?_ (fun c hc => .inl (List.mem_map_of_mem hc)) (List.Subset.refl _) fun m hm => .inl hm
  intro m hm
  obtain ⟨c,-,rfl⟩:=List.mem_map.mp hm
  rfl

theorem step_inv {a : Action} (hfresh : s.Fresh a) : (s.step a).Inv := by
  cases a with
  | report client gossip => exact report_inv h client gossip
  | reflect i => exact reflect_inv h i
  | advertise e => exact advertise_inv h hfresh
  | deliver i => exact deliver_inv h i

theorem run_inv {actions : List Action} (hfresh : s.AllFresh actions) : (s.run actions).Inv := by
  induction actions generalizing s with
  | nil => exact h
  | cons a actions ih => exact ih (step_inv h hfresh.1) hfresh.2

end

theorem step_clients (s : Mesh) (a : Action) : (s.step a).reflector.clients=s.reflector.clients := by
  cases a with
  | report | advertise => rfl
  | reflect i =>
    simp only [step]
    split
    · rfl
    · unfold RouteReflector.reflectFrom
      dsimp only
      split
      · rfl
      · rfl
  | deliver i =>
    simp only [step]
    split
    · rfl
    · rfl

theorem run_clients (s : Mesh) (actions : List Action) : (s.run actions).reflector.clients=s.reflector.clients := by
  induction actions generalizing s with
  | nil => rfl
  | cons a actions ih => exact (ih (s.step a)).trans (step_clients s a)

theorem Inv.agrees (h : s.Inv) {c : String} (hc : c∈s.reflector.clients) (hflying : ∀ m∈s.flying, m.1≠c)
    (hreports : ∀ m∈s.reports, m.1≠c) : (s.tables c).entries=s.reflector.table := by
  refine eq_of_level (h.tables_keyed c) h.keyed fun p => le_antisymm ?_ ?_
  · exact h.known c hc p _ le_rfl fun m hm heq => absurd heq (hreports m hm)
  · exact h.sent c hc p _ le_rfl fun m hm heq => absurd heq (hflying m hm)

end Mesh

theorem digest_values {t : Routes} {values values' : List RouteEntry} (h : t.Values values) (h' : t.Values values') :
    routeDigest values=routeDigest values' := by
  have hperm : values.Perm values' := Multiset.coe_eq_coe.mp (h.trans h'.symm)
  apply hperm.foldl_eq'
  intro x _ y _ z
  rw [UInt64.xor_assoc,UInt64.xor_assoc,UInt64.xor_comm x.hash]

theorem merge_preferred (gossip : Gossip) (p : String) (e : RouteEntry) :
    (RouteTable.new.merge gossip).1.entries.lookup p=some e ↔
      e∈gossip ∧ e.targetPrefix=p ∧ ∀ e'∈gossip, e'.targetPrefix=p → e'≠e → e.preferredTo e'=true := by
  have hmerge:=merge_offered RouteTable.new gossip
  have hkeyed:=hmerge.keyed keyed_empty
  have horigin : ∀ x, (RouteTable.new.merge gossip).1.entries.lookup p=some x → x∈gossip := by
    intro x hx
    rcases hmerge.origin p x hx with hx | hx
    · exact nomatch (Finmap.lookup_empty p).symm.trans hx
    · exact hx
  have hbest : ∀ x y, (RouteTable.new.merge gossip).1.entries.lookup p=some x → y∈gossip → y.targetPrefix=p →
      y.grade≤x.grade := by
    intro x y hx hy hp
    have hlevel:=hmerge.reached hy
    rw [hp,Routes.level,hx] at hlevel
    exact WithBot.coe_le_coe.mp hlevel
  constructor
  · intro he
    refine ⟨horigin e he,hkeyed p e he,fun e' he' hp hne => preferredTo_iff.mpr ?_⟩
    refine lt_of_le_of_ne (hbest e e' he he' hp) fun heq => hne ?_
    exact grade_injective (hp.trans (hkeyed p e he).symm) heq
  · intro ⟨he,hp,hpreferred⟩
    cases hx : (RouteTable.new.merge gossip).1.entries.lookup p with
    | none =>
      have hlevel:=hmerge.reached he
      rw [hp,Routes.level,hx] at hlevel
      exact absurd hlevel (not_le.mpr (WithBot.bot_lt_coe _))
    | some x =>
      by_cases heq : x=e
      · rw [heq]
      · have hlt:=preferredTo_iff.mp (hpreferred x (horigin x hx) (hkeyed p x hx) heq)
        exact absurd hlt (not_lt.mpr (hbest x e hx he hp))

theorem reflected_routes_converge (gossip : Gossip) (id : String) (clients : List String) (actions : List Action) :
    (∀ (p : String) (e : RouteEntry), (RouteTable.new.merge gossip).1.entries.lookup p=some e ↔
      e∈gossip ∧ e.targetPrefix=p ∧ ∀ e'∈gossip, e'.targetPrefix=p → e'≠e → e.preferredTo e'=true) ∧
    ((Mesh.start id clients).AllFresh actions → ∀ c∈clients,
      (∀ m∈((Mesh.start id clients).run actions).flying, m.1≠c) →
      (∀ m∈((Mesh.start id clients).run actions).reports, m.1≠c) →
      (((Mesh.start id clients).run actions).tables c).entries =
          ((Mesh.start id clients).run actions).reflector.table ∧
        ∀ values values', (((Mesh.start id clients).run actions).tables c).entries.Values values →
          ((Mesh.start id clients).run actions).reflector.table.Values values' →
          routeDigest values=routeDigest values') := by
  refine ⟨merge_preferred gossip,?_⟩
  intro hfresh c hc hflying hreports
  have hinv:=Mesh.run_inv (Mesh.start_inv id clients) hfresh
  have hclient : c∈((Mesh.start id clients).run actions).reflector.clients := by
    rw [Mesh.run_clients]
    exact hc
  have heq:=hinv.agrees hclient hflying hreports
  refine ⟨heq,fun values values' hvalues hvalues' => ?_⟩
  rw [heq] at hvalues
  exact digest_values hvalues hvalues'

def firstRoute : RouteEntry := ⟨"eu","b1",1,1⟩
def secondRoute : RouteEntry := ⟨"eu","b1",1,2⟩

def renewed : List Action :=
  [.report "b1" [firstRoute],.reflect 0,.advertise secondRoute,.deliver 1,.deliver 1,.deliver 0]

theorem renewed_fresh : (Mesh.start "rr" ["b1","b2"]).AllFresh renewed := by
  refine ⟨trivial,trivial,?_,trivial,trivial,trivial,trivial⟩
  intro cur hcur
  have hheld : (((Mesh.start "rr" ["b1","b2"]).step (.report "b1" [firstRoute])).step (.reflect 0)).reflector.table.lookup "eu" =
      some firstRoute := by decide +kernel
  obtain rfl:=Option.some.inj (hheld.symm.trans hcur)
  decide +kernel

theorem reflected_routes_converge_renewed :
    (Mesh.start "rr" ["b1","b2"]).AllFresh renewed ∧
    (((Mesh.start "rr" ["b1","b2"]).run renewed).tables "b2").entries =
      ((Mesh.start "rr" ["b1","b2"]).run renewed).reflector.table ∧
    ((Mesh.start "rr" ["b1","b2"]).run renewed).reflector.table.lookup "eu" = some secondRoute :=
  ⟨renewed_fresh,((reflected_routes_converge [] "rr" ["b1","b2"] renewed).2 renewed_fresh "b2" (by decide) (by decide +kernel)
    (by decide +kernel)).1,by decide +kernel⟩

/-- A local route replaces a newer one in the reflector's table and in no other. -/
theorem stale_advertisement_diverges : ¬ ∀ (id : String) (clients : List String) (actions : List Action), ∀ c∈clients,
    (∀ m∈((Mesh.start id clients).run actions).flying, m.1≠c) → (∀ m∈((Mesh.start id clients).run actions).reports,
    m.1≠c) → (((Mesh.start id clients).run actions).tables c).entries =
    ((Mesh.start id clients).run actions).reflector.table := by
  intro h
  have heq:=h "rr" ["b1"] [.advertise secondRoute,.advertise firstRoute,.deliver 0,.deliver 0] "b1" (by decide)
    (by decide +kernel) (by decide +kernel)
  have hlookup:=congrArg (Finmap.lookup "eu") heq
  revert hlookup
  decide +kernel

end Parrot.Topology
