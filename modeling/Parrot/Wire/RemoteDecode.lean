import Mathlib.Data.List.Forall2
import Parrot.Lib.Limited

/-! # Decoding untrusted payloads (`remote_decode.rs`)

Resource accounting around the bincode deserializer of a remote payload. -/

namespace Parrot.Remote
open Bincode
open List (replicate)

/-- What a derived `Deserialize` asks of the deserializer. `ι` names the types, which
may be recursive; a `seq` whose entries have a value besides is a map, a `tuple` is also an
array or a struct, and a variant of an enumeration is a `unit`, a `tuple` or, for a newtype
variant, the type it holds. -/
inductive Shape (ι σ : Type) where
  | scalar (s : σ)
  | unit
  | option (t : ι)
  | newtype (t : ι)
  | seq (t : ι) (v : Option ι)
  | tuple (ts : List ι)
  | enum (ts : List ι)

/- A `seq` has `n` entries, one after another, each of a map a key and its value. -/
inductive Value {σ : Type} (γ : σ → Type) where
  | scalar (s : σ) (a : γ s)
  | unit
  | none
  | some (v : Value γ)
  | newtype (v : Value γ)
  | seq (n : ℕ) (vs : List (Value γ))
  | tuple (vs : List (Value γ))
  | variant (k : ℕ) (v : Value γ)

variable {ι σ : Type} {γ : σ → Type} (scalar : ∀ s, Codec (γ s)) (types : ι → Shape ι σ)

mutual
def Value.encode : Value γ → Bytes
  | .scalar s a => (scalar s).encode a
  | .unit => []
  | .none => [0]
  | .some v => 1::v.encode
  | .newtype v => v.encode
  | .seq n vs => u64.encode n++encodeAll vs
  | .tuple vs => encodeAll vs
  | .variant k v => u32.encode k++v.encode
def encodeAll : List (Value γ) → Bytes
  | [] => []
  | v::vs => v.encode++encodeAll vs
end

mutual
/-- The value and seed visits a decoder makes: an enumeration visits its own value, the
number of the variant and the variant. -/
def Value.visits : Value γ → ℕ
  | .scalar _ _ => 1
  | .unit => 1
  | .none => 1
  | .some v => 1+v.visits
  | .newtype v => 1+v.visits
  | .seq _ vs => 1+visitsAll vs
  | .tuple vs => 1+visitsAll vs
  | .variant _ v => 2+v.visits
def visitsAll : List (Value γ) → ℕ
  | [] => 0
  | v::vs => v.visits+visitsAll vs
end

mutual
/-- How far the deepest visit lies below the first. -/
def Value.depth : Value γ → ℕ
  | .scalar _ _ => 0
  | .unit => 0
  | .none => 0
  | .some v => v.depth+1
  | .newtype v => v.depth+1
  | .seq _ vs => depthAll vs
  | .tuple vs => depthAll vs
  | .variant _ v => v.depth+1
def depthAll : List (Value γ) → ℕ
  | [] => 0
  | v::vs => max (v.depth+1) (depthAll vs)
end

/-- The values of a type. Lengths fit their `usize`. -/
inductive HasType : ι → Value γ → Prop where
  | scalar {t s a} : types t=.scalar s → (scalar s).fits a=true → HasType t (.scalar s a)
  | unit {t} : types t=.unit → HasType t .unit
  | none {t u} : types t=.option u → HasType t .none
  | some {t u v} : types t=.option u → HasType u v → HasType t (.some v)
  | newtype {t u v} : types t=.newtype u → HasType u v → HasType t (.newtype v)
  | seq {t u w n vs} : types t=.seq u w → n<256^8 →
      List.Forall₂ HasType (replicate n (u::w.toList)).flatten vs → HasType t (.seq n vs)
  | tuple {t ts vs} : types t=.tuple ts → List.Forall₂ HasType ts vs → HasType t (.tuple vs)
  | variant {t ts k u v} : types t=.enum ts → k<256^4 → ts[k]?=some u → HasType u v →
      HasType t (.variant k v)

variable (γ) in
/-- What a reader returns: the value, the visits left and the bytes left. -/
abbrev Read := Option (Value γ × ℕ × Bytes)

variable (child : ι → ℕ → Bytes → Read γ)

def readAll : List ι → ℕ → Bytes → Option (List (Value γ) × ℕ × Bytes)
  | [],r,b => some ([],r,b)
  | t::ts,r,b =>
    match child t r b with
    | none => none
    | some (v,r,b) => (readAll ts r b).map fun p => (v::p.1,p.2)

/- `container`: the declared entries against the visits left. -/
def readItems (count per : ℕ) (ts : List ι) (wrap : List (Value γ) → Value γ) (r : ℕ) (b : Bytes) : Read γ :=
  if count>r/per then none else (readAll child ts r b).map fun p => (wrap p.1,p.2)

/- One value whose visit is charged: `child` reads the values one level below. -/
def readShape (levels : ℕ) : Shape ι σ → ℕ → Bytes → Read γ
  | .scalar s,r,b => ((scalar s).decode b).map fun p => (.scalar s p.1,r,p.2)
  | .unit,r,b => some (.unit,r,b)
  | .option _,_,[] => none
  | .option t,r,c::b =>
    if c=0 then some (.none,r,b)
    else if c=1 then (child t r b).map fun p => (.some p.1,p.2)
    else none
  | .newtype t,r,b => (child t r b).map fun p => (.newtype p.1,p.2)
  | .seq t v,r,b =>
    match u64.decode b with
    | none => none
    | some (n,b) => readItems child n (t::v.toList).length (replicate n (t::v.toList)).flatten (.seq n) r b
  | .tuple ts,r,b => readItems child ts.length 1 ts .tuple r b
  | .enum ts,r,b =>
    match u32.decode b with
    | none => none
    | some (k,b) =>
      -- the number of the variant is a value one level below
      if levels=0 ∨ r=0 then none
      else
        match ts[k]? with
        | none => none
        | some t => (child t (r-1) b).map fun p => (.variant k p.1,p.2)

/-- `LimitedSeed`: one value at a depth that leaves `levels` of the `max_depth` levels. -/
def visit : ℕ → ι → ℕ → Bytes → Read γ
  | 0,_,_,_ => none
  | levels+1,t,r,b =>
    if r=0 then none else readShape scalar (visit levels) levels (types t) (r-1) b

/- The codec's own text of a failure is left out. -/
def deserialize (t : ι) (bytes : Bytes) (limits : Limits) : Except String (Value γ) :=
  if bytes.length>limits.maxPayloadBytes then .error "bincode decode: payload byte limit exceeded"
  else if limits.maxDepth>128 then .error "bincode decode: max_depth must not exceed 128"
  else
    match visit scalar types limits.maxDepth t limits.maxValues bytes with
    | none => .error "bincode decode: "
    | some (v,_,rest) =>
      if rest.length≠0 then .error ("bincode decode: "++toString rest.length++" trailing bytes")
      else .ok v

variable {scalar types}

section
variable {child : ι → ℕ → Bytes → Read γ} {n r r' : ℕ} {b rest : Bytes} {v : Value γ} {vs : List (Value γ)}
  {ts : List ι} {t : ι}

/-- A reader that pays for every visit and goes no deeper than it may. -/
def Counts (n : ℕ) (child : ι → ℕ → Bytes → Read γ) : Prop :=
  ∀ t r b v r' rest, child t r b=some (v,r',rest) → r'+v.visits=r ∧ v.depth<n

theorem readAll_counts (hc : Counts n child) (h : readAll child ts r b=some (vs,r',rest)) :
    r'+visitsAll vs=r ∧ depthAll vs≤n := by
  induction ts generalizing r b vs with
  | nil =>
    cases h
    exact ⟨rfl,Nat.zero_le n⟩
  | cons t ts ih =>
    unfold readAll at h
    split at h
    · contradiction
    · rename_i v r1 b1 hv
      obtain ⟨⟨ws,r2,rest2⟩,hrest,heq⟩:=Option.map_eq_some_iff.mp h
      cases heq
      have hone:=hc _ _ _ _ _ _ hv
      have hall:=ih hrest
      simp only [visitsAll,depthAll]
      omega

variable {wrap : List (Value γ) → Value γ} {count per : ℕ}

theorem readItems_counts (hc : Counts n child)
    (hvisits : ∀ vs, (wrap vs).visits=1+visitsAll vs) (hdepth : ∀ vs, (wrap vs).depth=depthAll vs)
    (h : readItems child count per ts wrap r b=some (v,r',rest)) : r'+v.visits=r+1 ∧ v.depth≤n := by
  unfold readItems at h
  split at h
  · contradiction
  · obtain ⟨⟨vs,r1,rest1⟩,hall,heq⟩:=Option.map_eq_some_iff.mp h
    cases heq
    have hread:=readAll_counts hc hall
    dsimp only at hread ⊢
    rw [hvisits,hdepth]
    omega

theorem readShape_counts {s : Shape ι σ} (hc : Counts n child)
    (h : readShape scalar child n s r b=some (v,r',rest)) : r'+v.visits=r+1 ∧ v.depth≤n := by
  cases s with
  | scalar s =>
    obtain ⟨p,-,heq⟩:=Option.map_eq_some_iff.mp h
    cases heq
    exact ⟨rfl,Nat.zero_le n⟩
  | unit =>
    cases h
    exact ⟨rfl,Nat.zero_le n⟩
  | option t =>
    cases b with
    | nil => contradiction
    | cons c b =>
      simp only [readShape] at h
      split at h
      · cases h
        exact ⟨rfl,Nat.zero_le n⟩
      · split at h
        · obtain ⟨⟨w,r1,rest1⟩,hp,heq⟩:=Option.map_eq_some_iff.mp h
          cases heq
          have:=hc _ _ _ _ _ _ hp
          simp only [Value.visits,Value.depth]
          omega
        · contradiction
  | newtype t =>
    obtain ⟨⟨w,r1,rest1⟩,hp,heq⟩:=Option.map_eq_some_iff.mp h
    cases heq
    have:=hc _ _ _ _ _ _ hp
    simp only [Value.visits,Value.depth]
    omega
  | seq t v =>
    simp only [readShape] at h
    split at h
    · contradiction
    · exact readItems_counts hc (fun _ => rfl) (fun _ => rfl) h
  | tuple ts => exact readItems_counts hc (fun _ => rfl) (fun _ => rfl) h
  | enum ts =>
    simp only [readShape] at h
    split at h
    · contradiction
    · split at h
      · contradiction
      · split at h
        · contradiction
        · obtain ⟨⟨w,r1,rest1⟩,hp,heq⟩:=Option.map_eq_some_iff.mp h
          cases heq
          have:=hc _ _ _ _ _ _ hp
          simp only [Value.visits,Value.depth]
          omega

theorem visit_counts : Counts n (visit scalar types n) := by
  induction n with
  | zero =>
    intro t r b v r' rest h
    contradiction
  | succ n ih =>
    intro t r b v r' rest h
    unfold visit at h
    split at h
    · contradiction
    · have:=readShape_counts ih h
      omega

/-- A reader that returns every value whose visits and levels it may make. -/
def Reads (scalar : ∀ s, Codec (γ s)) (types : ι → Shape ι σ) (n : ℕ) (child : ι → ℕ → Bytes → Read γ) : Prop :=
  ∀ t v r rest, HasType scalar types t v → v.visits≤r → v.depth<n →
    child t r (v.encode scalar++rest)=some (v,r-v.visits,rest)

theorem visits_pos (v : Value γ) : 0<v.visits := by
  cases v <;> simp only [Value.visits] <;> omega

theorem length_le_visitsAll (vs : List (Value γ)) : vs.length≤visitsAll vs := by
  induction vs with
  | nil => exact Nat.le_refl 0
  | cons v vs ih =>
    have:=visits_pos v
    simp only [visitsAll,List.length_cons]
    omega

theorem readAll_reads (hc : Reads scalar types n child) (hts : List.Forall₂ (HasType scalar types) ts vs)
    (hvisits : visitsAll vs≤r) (hdepth : depthAll vs≤n) :
    readAll child ts r (encodeAll scalar vs++rest)=some (vs,r-visitsAll vs,rest) := by
  induction hts generalizing r with
  | nil => rfl
  | @cons t v ts vs hv hvs ih =>
    simp only [visitsAll,depthAll] at hvisits hdepth
    rw [encodeAll,List.append_assoc,readAll,hc t v r _ hv (by omega) (by omega)]
    dsimp only
    rw [ih (by omega) (by omega),Option.map_some,visitsAll,Nat.sub_sub]

theorem readItems_reads (hper : 0<per)
    (hc : Reads scalar types n child) (hts : List.Forall₂ (HasType scalar types) ts vs) (hcount : ts.length=count*per)
    (hvisits : visitsAll vs≤r) (hdepth : depthAll vs≤n) :
    readItems child count per ts wrap r (encodeAll scalar vs++rest)=some (wrap vs,r-visitsAll vs,rest) := by
  have hlen:=length_le_visitsAll vs
  have hfit : count ≤ r/per := by
    rw [Nat.le_div_iff_mul_le hper,← hcount,hts.length_eq]
    omega
  rw [readItems,if_neg (Nat.not_lt.mpr hfit),readAll_reads hc hts hvisits hdepth]
  rfl

theorem readShape_reads (hc : Reads scalar types n child) (ht : HasType scalar types t v) (hvisits : v.visits≤r+1)
    (hdepth : v.depth≤n) :
    readShape scalar child n (types t) r (v.encode scalar++rest)=some (v,r+1-v.visits,rest) := by
  cases ht with
  | scalar hs hfits =>
    rw [hs,Value.encode,readShape,(scalar _).decode_encode,if_pos hfits]
    rfl
  | unit hs =>
    rw [hs]
    rfl
  | none hs =>
    rw [hs]
    rfl
  | some hs hv =>
    simp only [Value.visits,Value.depth] at hvisits hdepth
    rw [hs,Value.encode,List.cons_append,readShape,if_neg (by decide),if_pos rfl,hc _ _ _ _ hv (by omega) hdepth]
    simp only [Option.map_some,Value.visits,Nat.add_comm r 1,Nat.add_sub_add_left]
  | newtype hs hv =>
    simp only [Value.visits,Value.depth] at hvisits hdepth
    rw [hs,Value.encode,readShape,hc _ _ _ _ hv (by omega) hdepth]
    simp only [Option.map_some,Value.visits,Nat.add_comm r 1,Nat.add_sub_add_left]
  | @seq _ u w count vs hs hcount hvs =>
    simp only [Value.visits,Value.depth] at hvisits hdepth
    rw [hs,Value.encode,List.append_assoc,readShape,u64.decode_encode,if_pos (u64_fits hcount)]
    dsimp only
    rw [readItems_reads (List.length_pos_of_ne_nil (List.cons_ne_nil u _)) hc hvs (by simp) (by omega) hdepth,Value.visits,Nat.add_comm r 1,
      Nat.add_sub_add_left]
  | tuple hs hvs =>
    simp only [Value.visits,Value.depth] at hvisits hdepth
    rw [hs,Value.encode,readShape,readItems_reads Nat.one_pos hc hvs (Nat.mul_one _).symm (by omega) hdepth,Value.visits,
      Nat.add_comm r 1,Nat.add_sub_add_left]
  | @variant _ ts k u v hs hk hu hv =>
    have hpos:=visits_pos v
    simp only [Value.visits,Value.depth] at hvisits hdepth
    rw [hs,Value.encode,List.append_assoc,readShape,u32.decode_encode,if_pos (show u32.fits k=true from decide_eq_true hk)]
    dsimp only
    rw [if_neg (by omega),hu]
    dsimp only
    rw [hc _ _ _ _ hv (by omega) hdepth,Option.map_some,Value.visits,show r-1-v.visits=r+1-(2+v.visits) by omega]

theorem visit_reads : Reads scalar types n (visit scalar types n) := by
  induction n with
  | zero =>
    intro t v r rest ht hvisits hdepth
    contradiction
  | succ n ih =>
    intro t v r rest ht hvisits hdepth
    have hpos:=visits_pos v
    rw [visit,if_neg (by omega),readShape_reads ih ht (by omega) (by omega),Nat.sub_add_cancel (by omega)]

end

variable (scalar types)

theorem deserialize_limits (t : ι) (limits : Limits) :
    (∀ b v, deserialize scalar types t b limits=.ok v →
      ∃ left, visit scalar types limits.maxDepth t limits.maxValues b=some (v,left,[]) ∧
        left+v.visits=limits.maxValues ∧ v.depth<limits.maxDepth) ∧
    (limits.maxDepth≤128 → ∀ v, HasType scalar types t v → (v.encode scalar).length≤limits.maxPayloadBytes →
      v.visits≤limits.maxValues → v.depth<limits.maxDepth →
      deserialize scalar types t (v.encode scalar) limits=.ok v) := by
  refine ⟨fun b v h => ?_,fun hmax v ht hbytes hvisits hdepth => ?_⟩
  · unfold deserialize at h
    split at h
    · contradiction
    · split at h
      · contradiction
      · split at h
        · contradiction
        · rename_i w left rest hw
          split at h
          · contradiction
          · rename_i hrest
            cases h
            have hnil : rest=[] := List.length_eq_zero_iff.mp (not_not.mp hrest)
            rw [hnil] at hw
            exact ⟨left,hw,visit_counts _ _ _ _ _ _ hw⟩
  · have hv:=visit_reads t v limits.maxValues [] ht hvisits hdepth
    rw [List.append_nil] at hv
    rw [deserialize,if_neg (Nat.not_lt.mpr hbytes),if_neg (Nat.not_lt.mpr hmax),hv]
    rfl

/- The limit itself is refused. -/
theorem deserialize_deep : ∃ v : Value fun _ : Unit => UInt8,
    HasType (fun _ => u8) (fun _ : Unit => .scalar ()) () v ∧ (v.encode fun _ => u8).length≤16 ∧ v.visits≤16 ∧
      v.depth<129 ∧ deserialize (fun _ => u8) (fun _ : Unit => .scalar ()) () (v.encode fun _ => u8) ⟨16,16,129⟩≠.ok v :=
  ⟨.scalar () 7,.scalar rfl rfl,by decide,by decide,by decide,fun h => by contradiction⟩

end Parrot.Remote
