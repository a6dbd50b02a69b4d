import Parrot.Directory.Command
import Parrot.Lib.Segments

/-! # Access rules (`acl.rs`)

Grants of principals over keys, and of realms over routes. -/

namespace Parrot.Acl
open Bool (or_eq_true not_eq_true')
open Option (any_eq_true map_some getD_some)
open Text Segments
open Directory (isWhitespace)
open Machine (isControl forM_eq_ok)

def within (target pre : String) : Bool :=
  target==pre||(stripPrefix pre target).any fun rest => startsWith "/" rest

def validSegments (value : String) : Bool :=
  !value.isEmpty &&
    !(value.toList.any fun c => isWhitespace c||isControl c||['%','?','#','*','\\'].contains c) &&
    (split '/' value).all fun s => ! ["",".",".."].contains s

def keyPrefix (value : String) : Option String :=
  let pre:=(stripSuffix "/" value).getD value
  if validSegments pre then some pre else none

def routePrefix (value : String) : Option String := (stripPrefix "parrot://" value).bind keyPrefix

/-- A map from names to lists. Its order is the order in which the map is walked. -/
structure Rules where
  entries : List (String × List String)
  unique : (entries.map Prod.fst).Nodup

def Rules.get (r : Rules) (key : String) : Option (List String) := r.entries.lookup key

inductive AclDecision where
  | allow
  | deny
  deriving DecidableEq

/-- The texts quote the names in their debug form. -/
inductive AclError where
  | principal (role : String)
  | grant (role granted : String)
  | route (pattern : String)
  | routePrincipal (principal : String)

structure AclRules where
  roles : Rules
  defaultDeny : Bool

def AclRules.validateRole (e : String × List String) : Except AclError Unit :=
  if !validSegments e.1 then .error (.principal e.1)
  else e.2.forM fun granted => if (keyPrefix granted).isNone then .error (.grant e.1 granted) else .ok ()

variable (r : AclRules)

def AclRules.validate : Except AclError Unit := r.roles.entries.forM validateRole

def AclRules.check (role key : String) : AclDecision :=
  if !validSegments role||!validSegments key||!r.validate.isOk then .deny
  else if ((r.roles.get role).map fun grants => grants.any fun p => (keyPrefix p).any (within key)).getD false then
    .allow
  else if r.defaultDeny then .deny
  else .allow

structure RouteAcl where
  routes : Rules
  defaultDenyCrossRealm : Bool

def RouteAcl.validateRoute (e : String × List String) : Except AclError Unit :=
  if (routePrefix e.1).isNone then .error (.route e.1)
  else e.2.forM fun principal =>
    if principal != "*" && !validSegments principal then .error (.routePrincipal principal) else .ok ()

def RouteAcl.validate (a : RouteAcl) : Except AclError Unit := a.routes.entries.forM validateRoute

def permits (srcRealm : String) (allowed : List String) : Bool := allowed.any fun r => r==srcRealm||r == "*"

/-- One rule of the walk. The error is the message of the `expect`. -/
def RouteAcl.visit (srcRealm target : String) (best : Option (ℕ × Bool)) (e : String × List String) :
    Except String (Option (ℕ × Bool)) :=
  match routePrefix e.1 with
  | none => .error "validated prefix"
  | some pre =>
    if within target pre then .ok (keepLongest best pre.utf8ByteSize (permits srcRealm e.2)) else .ok best

def RouteAcl.checkRoute (a : RouteAcl) (srcRealm targetPrefix : String) : Except String AclDecision :=
  match routePrefix targetPrefix with
  | none => .ok .deny
  | some target =>
    if !validSegments srcRealm||!a.validate.isOk then .ok .deny
    else do
      let best ← a.routes.entries.foldlM (visit srcRealm target) none
      let allow:=(best.map Prod.snd).getD (within target srcRealm||!a.defaultDenyCrossRealm)
      return if allow then .allow else .deny

def segments (value : String) : List String := split '/' value

structure Named (s : String) : Prop where
  empty : s ≠ ""
  dot : s ≠ "."
  dots : s ≠ ".."
  plain : ∀ c∈s.toList, isWhitespace c=false ∧ isControl c=false ∧ c∉['%','?','#','*','\\']

def WellFormed (value : String) : Prop := ∀ s∈segments value, Named s

/-- `p` is the prefix that `value` writes, perhaps with a slash behind it. -/
def Normal (value p : String) : Prop := WellFormed p ∧ (value=p ∨ value=p++"/")

/-- `p` is the prefix that the address `value` writes. -/
def NormalRoute (value p : String) : Prop := ∃ rest, value = "parrot://"++rest ∧ Normal rest p

def AclRules.WellFormed : Prop :=
  ∀ e∈r.roles.entries, Acl.WellFormed e.1 ∧ ∀ granted∈e.2, ∃ p, Normal granted p

def RouteAcl.WellFormed (a : RouteAcl) : Prop :=
  ∀ e∈a.routes.entries, (∃ p, NormalRoute e.1 p) ∧ ∀ principal∈e.2, principal="*" ∨ Acl.WellFormed principal

/-- Some grant of the principal is a prefix of the key. -/
def AclRules.Granted (role key : String) : Prop :=
  ∃ grants, (role,grants)∈r.roles.entries ∧ ∃ granted∈grants, ∃ p, Normal granted p ∧ segments p<+:segments key

/-- The rule `e` writes the prefix `p` of the target. -/
def RouteAcl.Matches (a : RouteAcl) (target : String) (e : String × List String) (p : String) : Prop :=
  e∈a.routes.entries ∧ NormalRoute e.1 p ∧ segments p<+:segments target

/-- The longest matching rules all grant the realm; without one, the defaults decide. -/
def RouteAcl.Permitted (a : RouteAcl) (srcRealm target : String) : Prop :=
  ((∃ e p, a.Matches target e p) → ∀ e p, a.Matches target e p →
    (∀ e' p', a.Matches target e' p' → (segments p').length≤(segments p).length) → srcRealm∈e.2 ∨ "*" ∈ e.2) ∧
  ((¬ ∃ e p, a.Matches target e p) → segments srcRealm<+:segments target ∨ a.defaultDenyCrossRealm=false)

section prefixes
variable {value p target pre : String}

theorem within_iff : within target pre=true ↔ segments pre<+:segments target := by
  have hslash (rest : String) : startsWith "/" rest=true ↔ ∃ t, rest = "/"++t := startsWith_iff
  unfold within segments
  rw [split_prefix_iff,or_eq_true,beq_iff_eq,any_eq_true]
  refine or_congr_right ?_
  constructor
  · intro h
    obtain ⟨rest,hrest,hstart⟩:=h
    obtain ⟨t,rfl⟩:=(hslash rest).mp hstart
    exact ⟨t,by rw [stripPrefix_eq_some.mp hrest,String.append_assoc]; rfl⟩
  · intro h
    obtain ⟨t,ht⟩:=h
    exact ⟨"/"++t,stripPrefix_eq_some.mpr (by rw [ht,String.append_assoc]; rfl),(hslash _).mpr ⟨t,rfl⟩⟩

theorem mem_segments {c : Char} : (∃ s∈segments value, c∈s.toList) ↔ c∈value.toList ∧ c ≠ '/' := by
  rw [← mem_splitOn]
  simp [segments,split]

theorem validSegments_iff : validSegments value=true ↔ WellFormed value := by
  have hplain : (∀ c∈value.toList, isWhitespace c=false ∧ isControl c=false ∧ c∉['%','?','#','*','\\']) ↔
      ∀ s∈segments value, ∀ c∈s.toList,isWhitespace c=false ∧ isControl c=false ∧ c∉['%','?','#','*','\\'] := by
    constructor
    · intro h s hs c hc
      exact h c (mem_segments.mp ⟨s,hs,hc⟩).1
    · intro h c hc
      by_cases hslash : c = '/'
      · subst hslash
        decide
      · obtain ⟨s,hs,hcs⟩:=mem_segments.mpr ⟨hc,hslash⟩
        exact h s hs c hcs
  have hempty : value = "" → ¬ ∀ s∈segments value, s ≠ "" := by
    rintro rfl h
    exact h "" (by decide) rfl
  simp only [validSegments,Bool.and_eq_true,not_eq_true',List.any_eq_false,or_eq_true,not_or,
    Bool.not_eq_true,List.all_eq_true,String.isEmpty_eq_false_iff]
  constructor
  · intro h
    obtain ⟨⟨-,hchars⟩,hsegments⟩:=h
    intro s hs
    have hname:=hsegments s hs
    simp only [List.contains_eq_mem,List.mem_cons,List.not_mem_nil,or_false,decide_eq_false_iff_not,not_or] at hname
    refine ⟨hname.1,hname.2.1,hname.2.2,hplain.mp ?_ s hs⟩
    intro c hc
    have hchar:=hchars c hc
    exact ⟨hchar.1.1,hchar.1.2,by simpa using hchar.2⟩
  · intro h
    refine ⟨⟨?_,?_⟩,?_⟩
    · intro hvalue
      exact hempty hvalue fun s hs => (h s hs).empty
    · intro c hc
      have hchar:=hplain.mpr (fun s hs => (h s hs).plain) c hc
      exact ⟨⟨hchar.1,hchar.2.1⟩,by simpa using hchar.2.2⟩
    · intro s hs
      have hname:=h s hs
      simp [hname.empty,hname.dot,hname.dots]

theorem WellFormed.noSlash (h : WellFormed p) : stripSuffix "/" p=none := by
  by_contra hsome
  obtain ⟨t,ht⟩:=Option.ne_none_iff_exists'.mp hsome
  have hp:=stripSuffix_eq_some.mp ht
  have hlast : "" ∈ segments p := by
    rw [hp]
    unfold segments split
    rw [String.toList_append,show "/".toList=['/'] from rfl,List.splitOn_append_cons_self]
    simp
  exact (h "" hlast).empty rfl

theorem keyPrefix_eq_some : keyPrefix value=some p ↔ Normal value p := by
  unfold keyPrefix Normal
  simp only [Option.ite_none_right_eq_some,Option.some.injEq,validSegments_iff]
  constructor
  · intro h
    obtain ⟨hvalid,rfl⟩:=h
    refine ⟨hvalid,?_⟩
    cases hstrip : stripSuffix "/" value with
    | none => simp
    | some t => exact .inr (stripSuffix_eq_some.mp hstrip)
  · intro h
    obtain ⟨hvalid,rfl | rfl⟩:=h
    · rw [hvalid.noSlash]
      exact ⟨hvalid,rfl⟩
    · rw [stripSuffix_eq_some.mpr rfl]
      exact ⟨hvalid,rfl⟩

theorem routePrefix_eq_some : routePrefix value=some p ↔ NormalRoute value p := by
  unfold routePrefix NormalRoute
  simp only [Option.bind_eq_some_iff,stripPrefix_eq_some,keyPrefix_eq_some]

end prefixes

theorem Rules.get_eq_some {r : Rules} {key : String} {value : List String} :
    r.get key=some value ↔ (key,value)∈r.entries := by
  have hmem {v : List String} (h : r.entries.lookup key=some v) : (key,v)∈r.entries := by
    obtain ⟨before,after,heq,-⟩:=List.lookup_eq_some_iff.mp h
    rw [heq]
    simp
  constructor
  · exact hmem
  · intro h
    have hsome : (r.entries.lookup key).isSome=true := List.lookup_isSome_iff.mpr ⟨(key,value),h,beq_self_eq_true key⟩
    obtain ⟨v,hv⟩:=Option.isSome_iff_exists.mp hsome
    have hpair:=List.inj_on_of_nodup_map r.unique (hmem hv) h rfl
    rw [Rules.get,hv,(Prod.mk.inj hpair).2]

theorem isOk_iff {ε : Type} {x : Except ε Unit} : x.isOk=true ↔ x=.ok () := by
  cases x with
  | error | ok => simp [Except.isOk,Except.toBool]

theorem AclRules.validate_iff {r : AclRules} : r.validate.isOk=true ↔ r.WellFormed := by
  have hrole (e : String × List String) : AclRules.validateRole e=.ok () ↔
      Acl.WellFormed e.1 ∧ ∀ granted∈e.2, ∃ p, Normal granted p := by
    unfold AclRules.validateRole
    by_cases hvalid : validSegments e.1=true
    · simp only [hvalid,Bool.not_true,Bool.false_eq_true,if_false,forM_eq_ok,validSegments_iff.mp hvalid,true_and]
      refine forall₂_congr fun granted _ => ?_
      cases hkey : keyPrefix granted with
      | none =>
        have hnone : ¬ ∃ p, Normal granted p := by
          rintro ⟨p,hp⟩
          rw [keyPrefix_eq_some.mpr hp] at hkey
          contradiction
        simp [hnone]
      | some p => simp [Exists.intro p (keyPrefix_eq_some.mp hkey)]
    · have hnot : ¬ Acl.WellFormed e.1 := fun h => hvalid (validSegments_iff.mpr h)
      simp [hvalid,hnot]
  rw [isOk_iff,AclRules.validate,forM_eq_ok]
  exact forall₂_congr fun e _ => hrole e

theorem AclRules.granted_iff {r : AclRules} {role key : String} :
    ((r.roles.get role).map fun grants => grants.any fun p => (keyPrefix p).any (within key)).getD false=true ↔
      r.Granted role key := by
  unfold AclRules.Granted
  constructor
  · intro h
    cases hget : r.roles.get role with
    | none => simp [hget] at h
    | some grants =>
      rw [hget,map_some,getD_some,List.any_eq_true] at h
      obtain ⟨granted,hmem,hany⟩:=h
      obtain ⟨p,hp,hwithin⟩:=(any_eq_true ..).mp hany
      exact ⟨grants,Rules.get_eq_some.mp hget,granted,hmem,p,keyPrefix_eq_some.mp hp,within_iff.mp hwithin⟩
  · intro h
    obtain ⟨grants,hgrants,granted,hmem,p,hp,hsegments⟩:=h
    rw [Rules.get_eq_some.mpr hgrants,map_some,getD_some,List.any_eq_true]
    exact ⟨granted,hmem,(any_eq_true ..).mpr ⟨p,keyPrefix_eq_some.mpr hp,within_iff.mpr hsegments⟩⟩

theorem AclRules.check_iff (role key : String) : r.check role key=.allow ↔ Acl.WellFormed role ∧ Acl.WellFormed key ∧
    r.WellFormed ∧ (r.Granted role key ∨ r.defaultDeny=false) := by
  unfold AclRules.check
  by_cases hform : Acl.WellFormed role ∧ Acl.WellFormed key ∧ r.WellFormed
  · have hguard : (!validSegments role||!validSegments key||!r.validate.isOk)=false := by
      simp [validSegments_iff.mpr hform.1,validSegments_iff.mpr hform.2.1,AclRules.validate_iff.mpr hform.2.2]
    rw [if_neg (by simp [hguard])]
    by_cases hgranted : r.Granted role key
    · rw [if_pos (AclRules.granted_iff.mpr hgranted)]
      simp [hform,hgranted]
    · rw [if_neg fun h => hgranted (AclRules.granted_iff.mp h)]
      cases hdeny : r.defaultDeny <;> simp [hform,hgranted]
  · have hguard : (!validSegments role||!validSegments key||!r.validate.isOk)=true := by
      by_contra hfalse
      simp only [or_eq_true,not_eq_true',not_or,Bool.not_eq_false,validSegments_iff,
        AclRules.validate_iff] at hfalse
      exact hform ⟨hfalse.1.1,hfalse.1.2,hfalse.2⟩
    rw [if_pos hguard]
    constructor
    · intro h
      contradiction
    · intro h
      exact absurd ⟨h.1,h.2.1,h.2.2.1⟩ hform

theorem RouteAcl.validate_iff {a : RouteAcl} : a.validate.isOk=true ↔ a.WellFormed := by
  have hroute (e : String × List String) : RouteAcl.validateRoute e=.ok () ↔
      (∃ p, NormalRoute e.1 p) ∧ ∀ principal∈e.2, principal="*" ∨ Acl.WellFormed principal := by
    unfold RouteAcl.validateRoute
    cases hpre : routePrefix e.1 with
    | none =>
      have hnone : ¬ ∃ p, NormalRoute e.1 p := by
        rintro ⟨p,hp⟩
        rw [routePrefix_eq_some.mpr hp] at hpre
        contradiction
      simp [hnone]
    | some p =>
      have hsome : ∃ p, NormalRoute e.1 p := ⟨p,routePrefix_eq_some.mp hpre⟩
      simp only [Option.isNone_some,Bool.false_eq_true,if_false,forM_eq_ok,hsome,true_and]
      refine forall₂_congr fun principal _ => ?_
      rw [← validSegments_iff]
      by_cases hstar : principal="*"
      · simp [hstar]
      · cases hvalid : validSegments principal <;> simp [hstar]
  rw [isOk_iff,RouteAcl.validate,forM_eq_ok]
  exact forall₂_congr fun e _ => hroute e

section walk
variable {a : RouteAcl} {srcRealm target : String} {e : String × List String}

def size (e : String × List String) : ℕ := ((routePrefix e.1).map String.utf8ByteSize).getD 0

def covers (target : String) (e : String × List String) : Bool := (routePrefix e.1).any (within target)

theorem walk_best {rules done : List (String × List String)} {best : Option (ℕ × Bool)}
    (hvalid : ∀ e∈rules, ∃ p, NormalRoute e.1 p) (h : Best size (fun e => permits srcRealm e.2) done best) : ∃ best',
    rules.foldlM (RouteAcl.visit srcRealm target) best=.ok best' ∧
    Best size (fun e => permits srcRealm e.2) (done++rules.filter (covers target)) best' := by
  induction rules generalizing done best with
  | nil => exact ⟨best,rfl,by simpa using h⟩
  | cons e rules ih =>
    obtain ⟨p,hp⟩:=hvalid e (List.mem_cons_self ..)
    have hpre:=routePrefix_eq_some.mpr hp
    have hrest : ∀ e∈rules, ∃ p, NormalRoute e.1 p := fun e he => hvalid e (List.mem_cons_of_mem _ he)
    have hsize : size e=p.utf8ByteSize := by simp [size,hpre]
    have hcovers : covers target e=within target p := by simp [covers,hpre]
    rw [List.foldlM_cons,List.filter_cons,hcovers]
    cases hwithin : within target p with
    | false =>
      have hvisit : RouteAcl.visit srcRealm target best e=.ok best := by simp [RouteAcl.visit,hpre,hwithin]
      obtain ⟨best',hrun,hbest⟩:=ih hrest h
      refine ⟨best',?_,by simpa using hbest⟩
      rw [hvisit]
      exact hrun
    | true =>
      have hvisit : RouteAcl.visit srcRealm target best e =
          .ok (keepLongest best (size e) (permits srcRealm e.2)) := by
        simp [RouteAcl.visit,hpre,hwithin,hsize]
      obtain ⟨best',hrun,hbest⟩:=ih hrest (keepLongest_best (r := e) h)
      refine ⟨best',?_,by simpa using hbest⟩
      rw [hvisit]
      exact hrun

theorem matches_iff {p : String} : a.Matches target e p ↔
    e∈a.routes.entries.filter (covers target) ∧ routePrefix e.1=some p := by
  unfold RouteAcl.Matches covers
  rw [List.mem_filter,← routePrefix_eq_some,← within_iff]
  constructor
  · intro h
    exact ⟨⟨h.1,by rw [h.2.1]; exact h.2.2⟩,h.2.1⟩
  · intro h
    obtain ⟨⟨hmem,hcovers⟩,hpre⟩:=h
    rw [hpre] at hcovers
    exact ⟨hmem,hpre,hcovers⟩

theorem matches_le {e e' : String × List String} {p p' : String} (h : a.Matches target e p)
    (h' : a.Matches target e' p') : (segments p').length≤(segments p).length ↔ size e' ≤ size e := by
  have hlt:=split_length_lt h.2.2 h'.2.2
  simp only [size,routePrefix_eq_some.mpr h.2.1,routePrefix_eq_some.mpr h'.2.1,map_some,getD_some]
  unfold segments
  omega

theorem permits_iff {allowed : List String} : permits srcRealm allowed=true ↔ srcRealm∈allowed ∨ "*" ∈ allowed := by
  simp only [permits,List.any_eq_true,or_eq_true,beq_iff_eq]
  constructor
  · intro h
    obtain ⟨r,hr,rfl | rfl⟩:=h
    · exact .inl hr
    · exact .inr hr
  · intro h
    rcases h with h | h
    · exact ⟨srcRealm,h,.inl rfl⟩
    · exact ⟨"*",h,.inr rfl⟩

theorem permitted_iff {best : Option (ℕ × Bool)}
    (h : Best size (fun e => permits srcRealm e.2) (a.routes.entries.filter (covers target)) best) :
    (best.map Prod.snd).getD (within target srcRealm||!a.defaultDenyCrossRealm)=true ↔ a.Permitted srcRealm target := by
  have hcovered (e : String × List String) (he : e∈a.routes.entries.filter (covers target)) :
      ∃ p, a.Matches target e p := by
    obtain ⟨p,hp,-⟩:=(any_eq_true ..).mp (List.mem_filter.mp he).2
    exact ⟨p,matches_iff.mpr ⟨he,hp⟩⟩
  unfold RouteAcl.Permitted
  cases best with
  | none =>
    have hempty : a.routes.entries.filter (covers target)=[] := h
    have hnone : ¬ ∃ e p, a.Matches target e p := by
      rintro ⟨e,p,he⟩
      have hmem:=(matches_iff.mp he).1
      rw [hempty] at hmem
      exact List.not_mem_nil hmem
    simp only [Option.map_none,Option.getD_none,or_eq_true,within_iff,not_eq_true',hnone,false_implies,
      true_and,not_false_eq_true,true_implies]
  | some b =>
    obtain ⟨longest,allow⟩:=b
    obtain ⟨⟨r,hr,hlen⟩,hle,hallow⟩:=h
    obtain ⟨q,hq⟩:=hcovered r hr
    have hsome : ∃ e p, a.Matches target e p := ⟨r,q,hq⟩
    simp only [map_some,getD_some,hallow,hsome,true_implies,not_true_eq_false,false_implies,and_true]
    constructor
    · intro hgrants e p he hlongest
      have hmem:=(matches_iff.mp he).1
      have hsize : size e=longest := by
        have hfirst:=hle e hmem
        have hsecond:=(matches_le he hq).mp (hlongest r q hq)
        omega
      exact permits_iff.mp (hgrants e hmem hsize)
    · intro hgrants e he hsize
      obtain ⟨p,hp⟩:=hcovered e he
      refine permits_iff.mpr (hgrants e p hp fun e' p' hp' => (matches_le hp hp').mpr ?_)
      rw [hsize]
      exact hle e' (matches_iff.mp hp').1

end walk

theorem RouteAcl.checkRoute_iff (a : RouteAcl) (srcRealm targetPrefix : String) : ∃ d,
    a.checkRoute srcRealm targetPrefix=.ok d ∧ (d=.allow ↔ ∃ target, NormalRoute targetPrefix target ∧
    Acl.WellFormed srcRealm ∧ a.WellFormed ∧ a.Permitted srcRealm target) := by
  unfold RouteAcl.checkRoute
  cases htarget : routePrefix targetPrefix with
  | none =>
    refine ⟨.deny,rfl,?_⟩
    constructor
    · intro h
      contradiction
    · rintro ⟨target,hnormal,-⟩
      rw [routePrefix_eq_some.mpr hnormal] at htarget
      contradiction
  | some target =>
    have honly (t : String) (ht : NormalRoute targetPrefix t) : t=target := by
      rw [routePrefix_eq_some.mpr ht] at htarget
      exact Option.some.inj htarget
    simp only
    by_cases hform : Acl.WellFormed srcRealm ∧ a.WellFormed
    · have hguard : (!validSegments srcRealm||!a.validate.isOk)=false := by
        simp [validSegments_iff.mpr hform.1,RouteAcl.validate_iff.mpr hform.2]
      have hstart : Best size (fun e => permits srcRealm e.2) [] none := rfl
      have hroutes : ∀ e∈a.routes.entries, ∃ p, NormalRoute e.1 p := fun e he => (hform.2 e he).1
      obtain ⟨best,hrun,hbest⟩ : ∃ best, a.routes.entries.foldlM (RouteAcl.visit srcRealm target) none=.ok best ∧ _ :=
        walk_best hroutes hstart
      rw [List.nil_append] at hbest
      have hallow:=permitted_iff hbest
      rw [if_neg (by simp [hguard]),hrun]
      refine ⟨_,rfl,?_⟩
      rw [ite_eq_left_iff]
      constructor
      · intro h
        refine ⟨target,routePrefix_eq_some.mp htarget,hform.1,hform.2,hallow.mp ?_⟩
        by_contra hnot
        exact absurd (h hnot) (by simp)
      · rintro ⟨t,ht,-,-,hpermitted⟩ hnot
        rw [honly t ht] at hpermitted
        exact absurd (hallow.mpr hpermitted) hnot
    · have hguard : (!validSegments srcRealm||!a.validate.isOk)=true := by
        by_contra hfalse
        simp only [or_eq_true,not_eq_true',not_or,Bool.not_eq_false,validSegments_iff,
          RouteAcl.validate_iff] at hfalse
        exact hform hfalse
      rw [if_pos hguard]
      refine ⟨.deny,rfl,?_⟩
      constructor
      · intro h
        contradiction
      · rintro ⟨t,-,hrealm,hrules,-⟩
        exact absurd ⟨hrealm,hrules⟩ hform

/-- A check of a key asks for well-formed names and rules and for a grant that is a prefix of the
key, and a check of a route asks the longest rules that are prefixes of the target, in whatever
order the rules are walked. What is not well formed is denied by both. -/
theorem acl_decisions : (∀ (r : AclRules) (role key : String), r.check role key=.allow ↔ WellFormed role ∧
    WellFormed key ∧ r.WellFormed ∧ (r.Granted role key ∨ r.defaultDeny=false)) ∧
    ∀ (a : RouteAcl) (srcRealm targetPrefix : String), ∃ d, a.checkRoute srcRealm targetPrefix=.ok d ∧ (d=.allow ↔
    ∃ target, NormalRoute targetPrefix target ∧ WellFormed srcRealm ∧ a.WellFormed ∧ a.Permitted srcRealm target) ∧
    ∀ b : RouteAcl, b.routes.entries.Perm a.routes.entries → b.defaultDenyCrossRealm=a.defaultDenyCrossRealm →
    b.checkRoute srcRealm targetPrefix=.ok d := by
  refine ⟨AclRules.check_iff,fun a srcRealm targetPrefix => ?_⟩
  obtain ⟨d,hrun,hallow⟩:=a.checkRoute_iff srcRealm targetPrefix
  refine ⟨d,hrun,hallow,fun b hperm hdefault => ?_⟩
  obtain ⟨d',hrun',hallow'⟩:=b.checkRoute_iff srcRealm targetPrefix
  have hform : b.WellFormed ↔ a.WellFormed := by
    unfold RouteAcl.WellFormed
    simp only [hperm.mem_iff]
  have hpermitted (target : String) : b.Permitted srcRealm target ↔ a.Permitted srcRealm target := by
    unfold RouteAcl.Permitted RouteAcl.Matches
    simp only [hperm.mem_iff,hdefault]
  have hsame : d'=.allow ↔ d=.allow := by
    rw [hallow,hallow']
    simp only [hform,hpermitted]
  rw [hrun']
  cases d <;> cases d' <;> simp_all

/-- Without any rule and with cross-realm calls let through, a realm without a name is denied
all the same. -/
theorem nameless_denied : ¬ ∀ (a : RouteAcl) (srcRealm targetPrefix target : String), NormalRoute targetPrefix
    target → (a.checkRoute srcRealm targetPrefix=.ok .allow ↔ a.Permitted srcRealm target) := by
  intro h
  have htarget : NormalRoute "parrot://n/x" "n/x" := routePrefix_eq_some.mp (by decide)
  have hpermitted : RouteAcl.Permitted ⟨⟨[],List.nodup_nil⟩,false⟩ "" "n/x" := by
    refine ⟨?_,fun _ => .inr rfl⟩
    rintro ⟨e,p,he⟩
    exact absurd he.1 List.not_mem_nil
  have hallow:=(h ⟨⟨[],List.nodup_nil⟩,false⟩ "" "parrot://n/x" "n/x" htarget).mpr hpermitted
  exact absurd hallow (by decide)

end Parrot.Acl
