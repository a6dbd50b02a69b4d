import Parrot.Directory.Command
import Parrot.Lib.Segments

/-! # Robots policies (`robots.rs:174-352`)

The rules of a `robots.txt` that name the product, and what they say of a path. Texts are their
UTF-8 octets once they are normalized; the weight of a policy and its fetching are left out. -/

namespace Parrot.Robots
open List (foldl_cons mem_cons map_cons foldl_append Forall₂)
open Parrot.Directory Segments

def product : List Char := "ParrotWebSearch".toList

def maxRobotsBytes : ℕ := 500*1024

structure Rule where
  pattern : List UInt8
  allow : Bool
  specificity : ℕ

inductive Policy where
  | allow
  | deny
  | rules (list : List Rule)

def hex (b : UInt8) : Option UInt8 :=
  if 48≤b ∧ b≤57 then some (b-48)
  else if 97≤b ∧ b≤102 then some (b-87)
  else if 65≤b ∧ b≤70 then some (b-55)
  else none

def hexDigit (n : UInt8) : UInt8 := if n<10 then n+48 else n+55

def unreserved (b : UInt8) : Bool :=
  (48≤b&&b≤57)||(97≤b&&b≤122)||(65≤b&&b≤90)||b==45||b==46||b==95||b==126

def isGraphic (b : UInt8) : Bool := 33≤b&&b≤126

/-- The octet of an escape, where a percent sign begins one. -/
def escaped (b : UInt8) : List UInt8 → Option UInt8
  | high::low::_ =>
    if b=37 then
      match hex high, hex low with
      | some high, some low => some (high*16+low)
      | _, _ => none
    else none
  | _ => none

def percent (b : UInt8) : List UInt8 := [37,hexDigit (b>>>4),hexDigit (b&&&15)]

def renderEscaped (b : UInt8) : List UInt8 := if unreserved b then [b] else percent b

/-- `last` is so where nothing follows: there a dollar sign of a pattern is an anchor. -/
def renderRaw (pattern last : Bool) (b : UInt8) : List UInt8 :=
  if isGraphic b&&b != 37&&(!(b==42||b==36)||(pattern&&(b==42||(b==36&&last)))) then [b] else percent b

/-- The number counts what is left of an escape that was read. -/
def normalizeFrom (pattern : Bool) : ℕ → List UInt8 → List UInt8
  | _, [] => []
  | n+1, _::rest => normalizeFrom pattern n rest
  | 0, b::rest =>
    match escaped b rest with
    | some octet => renderEscaped octet++normalizeFrom pattern 2 rest
    | none => renderRaw pattern rest.isEmpty b++normalizeFrom pattern 0 rest

def octets (text : List Char) : List UInt8 := text.flatMap String.utf8EncodeChar

def normalize (text : List Char) (pattern : Bool) : List UInt8 := normalizeFrom pattern 0 (octets text)

def anchored (pattern : List UInt8) : Bool := pattern.getLast? == some 36

/-- The literals between the stars, without the anchor. -/
def literals (pattern : List UInt8) : List (List UInt8) :=
  (if anchored pattern then pattern.dropLast else pattern).splitOn 42

def matches' (pattern path : List UInt8) : Bool :=
  match literals pattern with
  | [] => false
  | first::segments =>
    if first.isPrefixOf path then
      if segments=[] then !anchored pattern||(path.drop first.length).isEmpty
      else greedy (anchored pattern) segments (path.drop first.length)
    else false

/-- Of two rules `max_by_key` keeps the later unless the earlier weighs more. -/
def heavier (b r : Rule) : Rule :=
  if b.specificity<r.specificity||(b.specificity==r.specificity&&(r.allow||!b.allow)) then r else b

def heaviest : List Rule → Option Rule
  | [] => none
  | r::rules => some (rules.foldl heavier r)

def target (path : List Char) (query : Option (List Char)) : List Char := path++(query.map ('?'::·)).getD []

def Policy.allows (policy : Policy) (path : List Char) (query : Option (List Char)) : Bool :=
  match policy with
  | .allow => true
  | .deny => false
  | .rules list =>
    ((heaviest (list.filter fun r => matches' r.pattern (normalize (target path query) false))).map Rule.allow).getD true

def trim (text : List Char) : List Char := ((text.dropWhile isWhitespace).reverse.dropWhile isWhitespace).reverse

/-- `lines`, each without the carriage return before its end. -/
def lines (text : List Char) : List (List Char) :=
  let parts:=text.splitOn '\n'
  parts.dropLast.map (fun line => if line.getLast? == some '\r' then line.dropLast else line)++parts.getLast?.toList.filter (· ≠ [])

def record (raw : List Char) : Option (List Char × List Char) :=
  let line:=trim (raw.takeWhile (· ≠ '#'))
  if ':'∈line then some (trim (line.takeWhile (· ≠ ':')),trim ((line.dropWhile (· ≠ ':')).drop 1)) else none

def records (body : List Char) : List (List Char × List Char) :=
  (lines (body.dropWhile (· == '\uFEFF'))).filterMap record

def ignoresCase (a b : List Char) : Bool := a.map Char.toLower==b.map Char.toLower

structure Group where
  specific : Bool
  star : Bool
  hasAgent : Bool
  hasRule : Bool
  rules : List Rule

def Group.default : Group := ⟨false,false,false,false,[]⟩

structure Parsing where
  group : Group
  specific : List Rule
  wildcard : List Rule
  matched : Bool

def Parsing.finish (s : Parsing) : Parsing where
  group := .default
  specific := if s.group.specific then s.specific++s.group.rules else s.specific
  wildcard := if s.group.specific then s.wildcard else if s.group.star then s.wildcard++s.group.rules else s.wildcard
  matched := s.matched||s.group.specific

def Rule.of (allow : Bool) (value : List Char) : Rule where
  pattern := normalize value true
  allow := allow
  specificity := (normalize value true).countP fun b => !(b==42||b==36)

def Parsing.agent (s : Parsing) (value : List Char) : Parsing :=
  let s:=if s.group.hasRule then s.finish else s
  {s with group := {s.group with
    hasAgent := true
    star := s.group.star||value==['*']
    specific := s.group.specific||ignoresCase value product}}

def Parsing.step (s : Parsing) (line : List Char × List Char) : Parsing :=
  if ignoresCase line.1 "user-agent".toList then s.agent line.2
  else if s.group.hasAgent&&(ignoresCase line.1 "allow".toList||ignoresCase line.1 "disallow".toList) then
    {s with group := {s.group with
      hasRule := true
      rules := if line.2.head? == some '/' then s.group.rules++[.of (ignoresCase line.1 "allow".toList) line.2] else s.group.rules}}
  else s

def parse (body : String) : Except String Policy :=
  if body.utf8ByteSize>maxRobotsBytes then .error "robots body exceeds parsing limit"
  else
    let s:=((records body.toList).foldl Parsing.step ⟨.default,[],[],false⟩).finish
    .ok (.rules (if s.matched then s.specific else s.wildcard))

/-! ## What the rules say -/

inductive Directive where
  | agent (name : List Char)
  | rule (allow : Bool) (value : List Char)
  deriving DecidableEq

def isRule (key : List Char) : Bool := ignoresCase key "allow".toList||ignoresCase key "disallow".toList

def directive (line : List Char × List Char) : Option Directive :=
  if ignoresCase line.1 "user-agent".toList then some (.agent line.2)
  else if isRule line.1 then some (.rule (ignoresCase line.1 "allow".toList) line.2)
  else none

structure AgentGroup where
  agents : List (List Char)
  rules : List (Bool × List Char)

namespace AgentGroup
variable (g : AgentGroup)

def directives : List Directive := g.agents.map .agent++g.rules.map fun r => .rule r.1 r.2

def specific : Bool := g.agents.any (ignoresCase · product)

def star : Bool := g.agents.any (· == ['*'])

end AgentGroup

/-- User-agent lines and the rules behind them; rules in front of them all are in no group. -/
structure Split (ds : List Directive) (lead : List (Bool × List Char)) (groups : List AgentGroup) : Prop where
  lines : ds=lead.map (fun r => .rule r.1 r.2)++groups.flatMap AgentGroup.directives
  agents : ∀ g∈groups, g.agents≠[]
  rules : ∀ g∈groups.dropLast, g.rules≠[]

def rulesOf (groups : List AgentGroup) : List (Bool × List Char) :=
  if groups.any AgentGroup.specific then (groups.filter AgentGroup.specific).flatMap AgentGroup.rules
  else (groups.filter AgentGroup.star).flatMap AgentGroup.rules

/-- The literals stand in the path in order, the first in front; the last ends it where the pattern is anchored. -/
def Covers (pattern path : List UInt8) : Prop :=
  ∃ first segments, literals pattern=first::segments ∧ ∃ rest, path=first++rest ∧ Fits (anchored pattern) segments rest

def Applies (path : List UInt8) (rule : Bool × List Char) : Prop :=
  rule.2.head?=some '/' ∧ Covers (normalize rule.2 true) path

def weight (rule : Bool × List Char) : ℕ := (Rule.of rule.1 rule.2).specificity

def Allowed (rules : List (Bool × List Char)) (path : List UInt8) : Prop :=
  (∀ r∈rules, ¬Applies path r) ∨
    ∃ r∈rules, Applies path r ∧ r.1=true ∧ ∀ other∈rules, Applies path other → weight other≤weight r

variable {pattern path : List UInt8} {rules l : List Rule} {s : Parsing} {ds : List Directive}

theorem covers_iff {first : List UInt8} {segments : List (List UInt8)} (h : literals pattern=first::segments) :
    Covers pattern path ↔ ∃ rest, path=first++rest ∧ Fits (anchored pattern) segments rest := by
  unfold Covers
  rw [h]
  constructor
  · rintro ⟨_,_,⟨⟩,hrest⟩
    exact hrest
  · intro hrest
    exact ⟨first,segments,rfl,hrest⟩

theorem matches'_iff : matches' pattern path=true ↔ Covers pattern path := by
  unfold matches'
  split
  · rename_i hnone
    simp [Covers,hnone]
  · rename_i first segments hlits
    rw [covers_iff hlits]
    split
    · rename_i hpre
      obtain ⟨tail,rfl⟩:=List.isPrefixOf_iff_prefix.mp hpre
      have hfirst : (∃ rest, first++tail=first++rest ∧ Fits (anchored pattern) segments rest) ↔
          Fits (anchored pattern) segments tail := by simp
      rw [List.drop_left,hfirst]
      split
      · rename_i hlast
        subst hlast
        cases anchored pattern <;> simp [Fits]
      · rename_i hmore
        exact greedy_iff hmore
    · rename_i hpre
      constructor
      · intro h
        contradiction
      · rintro ⟨rest,rfl,-⟩
        exact absurd (List.isPrefixOf_iff_prefix.mpr ⟨rest,rfl⟩) hpre

def Rule.Below (b r : Rule) : Prop := b.specificity<r.specificity ∨ b.specificity=r.specificity ∧ (b.allow=true → r.allow=true)

theorem Rule.Below.trans {a b c : Rule} (hab : a.Below b) (hbc : b.Below c) : a.Below c := by
  unfold Below at hab hbc ⊢
  rcases hab with hab | ⟨hab,hallow⟩
  · exact .inl (by omega)
  · rcases hbc with hbc | ⟨hbc,hallow'⟩
    · exact .inl (by omega)
    · exact .inr ⟨by omega,fun h => hallow' (hallow h)⟩

theorem heavier_below (b r : Rule) : b.Below (heavier b r) ∧ r.Below (heavier b r) := by
  unfold heavier Rule.Below
  split
  · rename_i h
    cases hb : b.allow <;> cases hr : r.allow <;> simp [hb,hr] at h ⊢ <;> omega
  · rename_i h
    cases hb : b.allow <;> cases hr : r.allow <;> simp [hb,hr] at h ⊢ <;> omega

theorem foldl_heavier (r : Rule) : l.foldl heavier r∈r::l ∧ ∀ b∈r::l, b.Below (l.foldl heavier r) := by
  induction l generalizing r with
  | nil => simp [Rule.Below]
  | cons x l ih =>
    obtain ⟨hmem,hbelow⟩:=ih (heavier r x)
    have hheavy : heavier r x=r ∨ heavier r x=x := by
      unfold heavier
      split
      · exact .inr rfl
      · exact .inl rfl
    obtain ⟨hr,hx⟩:=heavier_below r x
    have hlast:=hbelow _ (List.mem_cons_self ..)
    rw [foldl_cons]
    constructor
    · rcases List.mem_cons.mp hmem with hmem | hmem
      · rw [hmem]
        rcases hheavy with h | h <;> rw [h] <;> simp
      · simp [hmem]
    · intro b hb
      simp only [mem_cons] at hb
      rcases hb with rfl | rfl | hb
      · exact hr.trans hlast
      · exact hx.trans hlast
      · exact hbelow b (List.mem_cons_of_mem _ hb)

theorem heaviest_allows : ((heaviest l).map Rule.allow).getD true=true ↔
    l=[] ∨ ∃ r∈l, r.allow=true ∧ ∀ b∈l, b.specificity≤r.specificity := by
  cases l with
  | nil => simp [heaviest]
  | cons r l =>
    obtain ⟨hmem,hbelow⟩:=foldl_heavier (l := l) r
    simp only [heaviest,Option.map_some,Option.getD_some,reduceCtorEq,false_or]
    constructor
    · intro hallow
      exact ⟨_,hmem,hallow,fun b hb => (hbelow b hb).elim Nat.le_of_lt fun h => h.1.le⟩
    · rintro ⟨x,hx,hallow,hmax⟩
      rcases hbelow x hx with hlt | ⟨-,hallows⟩
      · exact absurd (hmax _ hmem) (by omega)
      · exact hallows hallow

/-! ## Groups -/

def rulesIn (list : List (Bool × List Char)) : List Rule :=
  (list.filter fun r => r.2.head? == some '/').map fun r => .of r.1 r.2

def Parsing.take (s : Parsing) : Directive → Parsing
  | .agent name => s.agent name
  | .rule allow value =>
    if s.group.hasAgent then
      {s with group := {s.group with hasRule:=true,rules:=s.group.rules++rulesIn [(allow,value)]}}
    else s

theorem step_eq (line : List Char × List Char) : s.step line=((directive line).map s.take).getD s := by
  unfold Parsing.step directive
  split
  · rfl
  · change (if (s.group.hasAgent&&isRule line.1)=true then _ else _)=_
    cases isRule line.1 <;> cases hagent : s.group.hasAgent <;> simp [Parsing.take,rulesIn,hagent]
    split <;> simp_all

theorem take_rules (hagent : s.group.hasAgent=true) (list : List (Bool × List Char)) :
    (list.map fun r => Directive.rule r.1 r.2).foldl Parsing.take s=
      {s with group := {s.group with hasRule:=s.group.hasRule||!list.isEmpty,rules:=s.group.rules++rulesIn list}} := by
  induction list generalizing s with
  | nil => simp [rulesIn]
  | cons r list ih =>
    rw [map_cons,foldl_cons,Parsing.take,if_pos hagent,ih]
    · simp only [rulesIn,List.append_assoc,← List.map_append,← List.filter_append]
      simp
    · exact hagent

theorem take_lead (hagent : s.group.hasAgent=false) (list : List (Bool × List Char)) :
    (list.map fun r => Directive.rule r.1 r.2).foldl Parsing.take s=s := by
  induction list with
  | nil => rfl
  | cons r list ih => rw [map_cons,foldl_cons,Parsing.take,hagent,if_neg Bool.false_ne_true,ih]

theorem take_agents (hrule : s.group.hasRule=false) (names : List (List Char)) :
    (names.map Directive.agent).foldl Parsing.take s={s with group := {s.group with
        hasAgent := s.group.hasAgent||!names.isEmpty
        star := s.group.star||names.any (· == ['*'])
        specific := s.group.specific||names.any (ignoresCase · product)}} := by
  induction names generalizing s with
  | nil => simp
  | cons name names ih =>
    rw [map_cons,foldl_cons,Parsing.take,Parsing.agent,hrule,if_neg Bool.false_ne_true,ih]
    · simp [Bool.or_assoc]
    · exact hrule

def Parsing.Fresh (s : Parsing) : Prop := s.group.hasRule=true ∨ s.group=.default

theorem Parsing.Fresh.agent (h : s.Fresh) (name : List Char) : s.agent name=s.finish.agent name := by
  unfold Parsing.agent
  rcases h with h | h
  · rw [if_pos h]
    rfl
  · simp [finish,h,Group.default]

theorem take_group (h : s.Fresh) {g : AgentGroup} (hagents : g.agents≠[]) :
    g.directives.foldl Parsing.take s=
      {s.finish with group:=⟨g.specific,g.star,true,!g.rules.isEmpty,rulesIn g.rules⟩} := by
  have hfinish : (g.agents.map Directive.agent).foldl Parsing.take s=(g.agents.map Directive.agent).foldl Parsing.take s.finish := by
    cases hnames : g.agents with
    | nil => contradiction
    | cons name names => rw [map_cons,foldl_cons,foldl_cons,Parsing.take,Parsing.take,h.agent]
  rw [AgentGroup.directives,foldl_append,hfinish,take_agents rfl,take_rules (by simp [hagents])]
  simp [Parsing.finish,Group.default,AgentGroup.specific,AgentGroup.star,hagents]

theorem take_groups {groups : List AgentGroup} (h : s.Fresh ∨ groups=[]) (hagents : ∀ g∈groups, g.agents≠[])
    (hrules : ∀ g∈groups.dropLast, g.rules≠[]) :
    ((groups.flatMap AgentGroup.directives).foldl Parsing.take s).finish={s.finish with
      specific := s.finish.specific++(groups.filter AgentGroup.specific).flatMap fun g => rulesIn g.rules
      wildcard := s.finish.wildcard++(groups.filter fun g => !g.specific&&g.star).flatMap fun g => rulesIn g.rules
      matched := s.finish.matched||groups.any AgentGroup.specific} := by
  induction groups generalizing s with
  | nil => simp
  | cons g groups ih =>
    rw [List.flatMap_cons,foldl_append,take_group (h.resolve_right (by simp)) (hagents g (List.mem_cons_self ..)),ih]
    · cases hspecific : g.specific <;> cases hstar : g.star <;> simp [Parsing.finish,hspecific,hstar]
    · cases groups with
      | nil => exact .inr rfl
      | cons next groups =>
        have hrules:=hrules g (by simp)
        exact .inl (.inl (by simpa using hrules))
    · exact fun g hg => hagents g (List.mem_cons_of_mem _ hg)
    · intro x hx
      cases groups with
      | nil => simp at hx
      | cons next groups => exact hrules x (by simp [hx])

theorem split_exists (ds : List Directive) : ∃ lead groups, Split ds lead groups := by
  induction ds with
  | nil => exact ⟨[],[],rfl,by simp,by simp⟩
  | cons d ds ih =>
    obtain ⟨lead,groups,rfl,hagents,hrules⟩:=ih
    cases d with
    | rule allow value => exact ⟨(allow,value)::lead,groups,rfl,hagents,hrules⟩
    | agent name =>
      cases lead with
      | cons r lead =>
        refine ⟨[],⟨[name],r::lead⟩::groups,by simp [AgentGroup.directives],by simpa using hagents,fun g hg => ?_⟩
        cases groups with
        | nil => simp at hg
        | cons next groups =>
          rw [List.dropLast_cons_cons,mem_cons] at hg
          rcases hg with rfl | hg
          · simp
          · exact hrules g hg
      | nil =>
        cases groups with
        | nil => exact ⟨[],[⟨[name],[]⟩],rfl,by simp,by simp⟩
        | cons next groups =>
          refine ⟨[],⟨name::next.agents,next.rules⟩::groups,rfl,?_,fun g hg => ?_⟩
          · intro g hg
            rcases List.mem_cons.mp hg with rfl | hg
            · simp
            · exact hagents g (List.mem_cons_of_mem _ hg)
          · cases groups with
            | nil => simp at hg
            | cons last groups =>
              rw [List.dropLast_cons_cons,mem_cons] at hg
              rcases hg with rfl | hg
              · exact hrules next (by simp)
              · exact hrules g (by simp [hg])

theorem parse_groups {body : String} (hbody : body.utf8ByteSize ≤ maxRobotsBytes) {lead : List (Bool × List Char)}
    {groups : List AgentGroup} (h : Split ((records body.toList).filterMap directive) lead groups) :
    parse body=.ok (.rules (rulesIn (rulesOf groups))) := by
  have hsteps : ∀ (l : List (List Char × List Char)) (s : Parsing),
      l.foldl Parsing.step s=(l.filterMap directive).foldl Parsing.take s := by
    intro l
    induction l with
    | nil => exact fun s => rfl
    | cons line l ih =>
      intro s
      rw [foldl_cons,ih,step_eq]
      cases hline : directive line <;> simp [hline]
  have hgroups:=take_groups (s := ⟨.default,[],[],false⟩) (.inl (.inr rfl)) h.agents h.rules
  unfold parse
  rw [if_neg (by omega),hsteps,h.lines,foldl_append,take_lead rfl,hgroups]
  simp only [Parsing.finish,Group.default,rulesOf,Bool.false_or,Bool.false_eq_true,if_false,List.nil_append]
  split
  · simp [rulesIn,List.filter_flatMap,List.map_flatMap]
  · rename_i hnone
    have hstar : groups.filter (fun g => !g.specific&&g.star)=groups.filter AgentGroup.star := by
      refine List.filter_congr fun g hg => ?_
      have hg : g.specific=false := by simpa using fun h => hnone (List.any_eq_true.mpr ⟨g,hg,h⟩)
      simp [hg]
    rw [hstar]
    simp [rulesIn,List.filter_flatMap,List.map_flatMap]

theorem allows_iff {list : List (Bool × List Char)} {path : List Char} {query : Option (List Char)} :
    (Policy.rules (rulesIn list)).allows path query=true ↔ Allowed list (normalize (target path query) false) := by
  have hmem : ∀ r, r∈(rulesIn list).filter (fun r => matches' r.pattern (normalize (target path query) false)) ↔
      ∃ x∈list, Applies (normalize (target path query) false) x ∧ r=.of x.1 x.2 := by
    intro r
    simp only [rulesIn,List.mem_filter,List.mem_map,beq_iff_eq,matches'_iff]
    constructor
    · rintro ⟨⟨x,⟨hx,hslash⟩,rfl⟩,hcovers⟩
      exact ⟨x,hx,⟨hslash,hcovers⟩,rfl⟩
    · rintro ⟨x,hx,⟨hslash,hcovers⟩,rfl⟩
      exact ⟨⟨x,⟨hx,hslash⟩,rfl⟩,hcovers⟩
  unfold Policy.allows Allowed
  rw [heaviest_allows,List.eq_nil_iff_forall_not_mem]
  simp only [hmem]
  refine or_congr ⟨fun h x hx happlies => h _ ⟨x,hx,happlies,rfl⟩,?_⟩ ⟨?_,?_⟩
  · rintro h r ⟨x,hx,happlies,-⟩
    exact h x hx happlies
  · rintro ⟨_,⟨x,hx,happlies,rfl⟩,hallow,hmax⟩
    exact ⟨x,hx,happlies,hallow,fun y hy hother => hmax _ ⟨y,hy,hother,rfl⟩⟩
  · rintro ⟨x,hx,happlies,hallow,hmax⟩
    refine ⟨_,⟨x,hx,happlies,rfl⟩,hallow,?_⟩
    rintro _ ⟨y,hy,hother,rfl⟩
    exact hmax y hy hother

/-! ## Spellings -/

inductive Piece where
  | raw (b : UInt8)
  | escape (high low : UInt8)

namespace Piece

def text : Piece → List UInt8
  | raw b => [b]
  | escape high low => [37,high,low]

/-- In the case of the digits, in encoding an unreserved octet or in encoding one of non-ASCII text. -/
inductive Alike : Piece → Piece → Prop
  | same (p : Piece) : Alike p p
  | digits {high low high' low' : UInt8} (hhigh : hex high=hex high') (hlow : hex low=hex low') :
    Alike (escape high low) (escape high' low')
  | encode {b high low : UInt8} (hoctet : escaped 37 [high,low]=some b) (hfree : unreserved b=true ∨ 128≤b) :
    Alike (raw b) (escape high low)
  | decode {b high low : UInt8} (hoctet : escaped 37 [high,low]=some b) (hfree : unreserved b=true ∨ 128≤b) :
    Alike (escape high low) (raw b)

/-- Each escape has its digits, and no percent sign that stands for itself begins one. -/
def Clean : List Piece → Prop
  | [] => True
  | raw b::ps => escaped b (ps.flatMap text)=none ∧ Clean ps
  | escape high low::ps => (escaped 37 [high,low]).isSome=true ∧ Clean ps

def render (pattern : Bool) : List Piece → List UInt8
  | [] => []
  | raw b::ps => renderRaw pattern ps.isEmpty b++render pattern ps
  | escape high low::ps => ((escaped 37 [high,low]).map renderEscaped).getD []++render pattern ps

end Piece

open Piece

def Respelled (a b : List UInt8) : Prop :=
  ∃ ps qs, a=ps.flatMap Piece.text ∧ b=qs.flatMap Piece.text ∧ Clean ps ∧ Clean qs ∧ Forall₂ Alike ps qs

theorem normalizeFrom_text {ps : List Piece} (h : Clean ps) (mode : Bool) :
    normalizeFrom mode 0 (ps.flatMap Piece.text)=render mode ps := by
  induction ps with
  | nil => rfl
  | cons p ps ih =>
    cases p with
    | raw b =>
      have hempty : (ps.flatMap Piece.text).isEmpty=ps.isEmpty := by
        cases ps with
        | nil => rfl
        | cons q qs => cases q <;> rfl
      change normalizeFrom mode 0 (b::ps.flatMap Piece.text)=_
      rw [normalizeFrom,h.1,render,ih h.2,hempty]
    | escape high low =>
      obtain ⟨b,hb⟩:=Option.isSome_iff_exists.mp h.1
      have hescaped : escaped 37 (high::low::ps.flatMap Piece.text)=some b := hb
      change normalizeFrom mode 0 (37::high::low::ps.flatMap Piece.text)=_
      rw [normalizeFrom,hescaped,render,hb,normalizeFrom,normalizeFrom,ih h.2]
      rfl

theorem free_graphic {b : UInt8} (h : unreserved b=true) : isGraphic b=true ∧ b≠37 ∧ b≠42 ∧ b≠36 := by
  simp only [unreserved,isGraphic,Bool.or_eq_true,Bool.and_eq_true,decide_eq_true_eq,beq_iff_eq,ne_eq,UInt8.le_iff_toNat_le,← UInt8.toNat_inj,UInt8.reduceToNat] at h ⊢
  omega

theorem not_graphic {b : UInt8} (h : 128≤b) : isGraphic b=false ∧ unreserved b=false := by
  simp only [unreserved,isGraphic,Bool.or_eq_false_iff,Bool.and_eq_false_iff,decide_eq_false_iff_not,beq_eq_false_iff_ne,ne_eq,UInt8.le_iff_toNat_le,← UInt8.toNat_inj,UInt8.reduceToNat] at h ⊢
  omega

theorem render_free {b : UInt8} (h : unreserved b=true ∨ 128≤b) (mode last : Bool) :
    renderRaw mode last b=renderEscaped b := by
  unfold renderRaw renderEscaped
  rcases h with h | h
  · obtain ⟨hgraphic,hpercent,hstar,hdollar⟩:=free_graphic h
    simp [h,hgraphic,hpercent,hstar,hdollar]
  · obtain ⟨hgraphic,hreserved⟩:=not_graphic h
    simp [hgraphic,hreserved]

theorem render_alike {ps qs : List Piece} (h : Forall₂ Alike ps qs) (mode : Bool) : render mode ps=render mode qs := by
  induction h with
  | nil => rfl
  | @cons p q ps qs hpq hrest ih =>
    have hempty : ps.isEmpty=qs.isEmpty := by cases hrest <;> rfl
    cases hpq with
    | same =>
      cases p <;> rw [render,render,ih]
      rw [hempty]
    | digits hhigh hlow => simp only [render,escaped,hhigh,hlow,ih]
    | encode hoctet hfree =>
      rw [render,render,hoctet,ih,render_free hfree]
      rfl
    | decode hoctet hfree =>
      rw [render,render,hoctet,ih,render_free hfree]
      rfl

theorem Respelled.normalize {a b : List Char} (h : Respelled (octets a) (octets b)) (mode : Bool) :
    normalize a mode=Robots.normalize b mode := by
  obtain ⟨ps,qs,hps,hqs,hleft,hright,halike⟩:=h
  rw [Robots.normalize,Robots.normalize,hps,hqs,normalizeFrom_text hleft,normalizeFrom_text hright,render_alike halike]

theorem head_octets (text : List Char) : (octets text).head?=some 47 ↔ text.head?=some '/' := by
  cases text with
  | nil => simp [octets]
  | cons c text =>
    have hfirst : (String.utf8EncodeChar c++octets text).head?=some 47 ↔ c.val.toNat=47 := by
      unfold String.utf8EncodeChar
      simp only
      generalize c.val.toNat=n
      split
      · simp [← UInt8.toNat_inj]
        omega
      · split
        · simp [← UInt8.toNat_inj]
          omega
        · split
          · simp [← UInt8.toNat_inj]
            omega
          · simp [← UInt8.toNat_inj]
            omega
    rw [List.head?_cons,Option.some.injEq]
    refine hfirst.trans ⟨fun h => Char.ext (UInt32.toNat_inj.mp h),fun h => by rw [h]; rfl⟩

theorem Respelled.head {a b : List UInt8} (h : Respelled a b) : a.head?=some 47 ↔ b.head?=some 47 := by
  obtain ⟨ps,qs,rfl,rfl,-,-,halike⟩:=h
  have hslash : ∀ b : UInt8, unreserved b=true ∨ 128≤b → b≠47 := by
    rintro b hfree rfl
    exact absurd hfree (by decide)
  cases halike with
  | nil => rfl
  | cons hpq hrest =>
    cases hpq with
    | same =>
      rename_i p _ _
      cases p <;> simp [Piece.text]
    | digits => simp [Piece.text]
    | encode hoctet hfree => simp [Piece.text,hslash _ hfree]
    | decode hoctet hfree => simp [Piece.text,hslash _ hfree]

/-- The same record, but for the spelling of a rule. -/
def SameRecord (a b : List Char × List Char) : Prop :=
  a.1=b.1 ∧ (a.2=b.2 ∨ ignoresCase a.1 "user-agent".toList=false ∧ isRule a.1=true ∧ Respelled (octets a.2) (octets b.2))

theorem SameRecord.step {a b : List Char × List Char} (h : SameRecord a b) (s : Parsing) : s.step a=s.step b := by
  obtain ⟨key,v⟩:=a
  obtain ⟨key',w⟩:=b
  obtain ⟨rfl,rfl | ⟨hagent,hrule,hspelled⟩⟩:=h
  · rfl
  · have hhead : v.head?=some '/' ↔ w.head?=some '/' := by
      rw [← head_octets,← head_octets,hspelled.head]
    rw [step_eq,step_eq]
    simp only [directive,hagent,hrule,Bool.false_eq_true,if_false,if_true,Option.map_some,Option.getD_some,Parsing.take,
      rulesIn,List.filter_cons,beq_iff_eq,hhead,List.filter_nil]
    split
    · split
      · simp only [map_cons,List.map_nil,Rule.of,hspelled.normalize true]
      · rfl
    · rfl

theorem parse_alike {a b : String} (ha : a.utf8ByteSize ≤ maxRobotsBytes) (hb : b.utf8ByteSize ≤ maxRobotsBytes)
    (h : Forall₂ SameRecord (records a.toList) (records b.toList)) : parse a=parse b := by
  have hsteps : ∀ {l k : List (List Char × List Char)}, Forall₂ SameRecord l k →
      ∀ s : Parsing, l.foldl Parsing.step s=k.foldl Parsing.step s := by
    intro l k h
    induction h with
    | nil => exact fun s => rfl
    | cons hab hrest ih => exact fun s => by rw [foldl_cons,foldl_cons,hab.step,ih]
  unfold parse
  rw [if_neg (by omega),if_neg (by omega),hsteps h]

/-- A body within the limit decides by its groups, and a spelling of its rules or of the path that
stands for the same octets decides the same. -/
theorem robots_decide (body : String) (hbody : body.utf8ByteSize ≤ maxRobotsBytes) : ∃ policy, parse body=.ok policy ∧
    (∃ lead groups, Split ((records body.toList).filterMap directive) lead groups) ∧
    (∀ lead groups, Split ((records body.toList).filterMap directive) lead groups → ∀ path query,
    (policy.allows path query=true ↔ Allowed (rulesOf groups) (normalize (target path query) false))) ∧
    ∀ body' policy', body'.utf8ByteSize ≤ maxRobotsBytes → parse body'=.ok policy' → Forall₂ SameRecord
    (records body.toList) (records body'.toList) → ∀ path query path' query', Respelled (octets (target path query))
    (octets (target path' query')) → policy.allows path query=policy'.allows path' query' := by
  obtain ⟨lead,groups,hsplit⟩:=split_exists ((records body.toList).filterMap directive)
  refine ⟨_,parse_groups hbody hsplit,⟨lead,groups,hsplit⟩,fun lead' groups' hsplit' path query => ?_,?_⟩
  · have hsame:=(parse_groups hbody hsplit).symm.trans (parse_groups hbody hsplit')
    rw [Except.ok.inj hsame]
    exact allows_iff
  · intro body' policy' hbody' hparse hrecords path query path' query' hspelled
    have hsame:=(parse_groups hbody hsplit).symm.trans ((parse_alike hbody hbody' hrecords).trans hparse)
    rw [← Except.ok.inj hsame]
    simp only [Policy.allows,hspelled.normalize]

theorem robots_decide_open : ∃ policy, parse "User-agent: *\nDisallow: /a\n"=.ok policy ∧
    (policy.allows "/b".toList none=true ↔ Allowed [(false,"/a".toList)] (normalize "/b".toList false)) ∧
    policy.allows "/a".toList none=policy.allows "/%61".toList none := by
  obtain ⟨policy,hparse,-,hallows,hspelled⟩:=robots_decide "User-agent: *\nDisallow: /a\n" (by decide +kernel)
  have hsplit : Split ((records "User-agent: *\nDisallow: /a\n".toList).filterMap directive) []
      [⟨["*".toList],[(false,"/a".toList)]⟩] := ⟨by decide +kernel,by simp,by simp⟩
  refine ⟨policy,hparse,hallows _ _ hsplit "/b".toList none,hspelled _ policy (by decide +kernel) hparse ?_ _ none _ none ?_⟩
  · exact List.forall₂_same.mpr fun r _ => ⟨rfl,.inl rfl⟩
  · refine ⟨[.raw 47,.raw 97],[.raw 47,.escape 54 49],by decide +kernel,by decide +kernel,?_,?_,?_⟩
    · exact ⟨by decide,by decide,trivial⟩
    · exact ⟨by decide,by decide,trivial⟩
    · exact .cons (.same _) (.cons (.encode (by decide) (by decide)) .nil)

/-- A pattern that does not begin with a slash is not read, an escape is read before what stands behind
it, and white space around a rule is not its own. -/
theorem robots_spelled : (matches' (normalize "*.pdf".toList true) (normalize "/x.pdf".toList false)=true ∧
      (parse "User-agent: *\nDisallow: *.pdf\n").toOption.map (fun p => p.allows "/x.pdf".toList none)=some true) ∧
    (parse "User-agent: *\nDisallow: /%2A\n").toOption.map (fun p =>
      (p.allows "/%2A".toList none,p.allows "/%2%41".toList none))=some (false,true) ∧
    (parse "User-agent: *\nDisallow: /a\u3000\n").toOption.map (fun p => p.allows "/a".toList none)=some false ∧
    (parse "User-agent: *\nDisallow: /a%E3%80%80\n").toOption.map (fun p => p.allows "/a".toList none)=some true := by
  decide +kernel

end Parrot.Robots
