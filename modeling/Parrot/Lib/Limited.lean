import Parrot.Lib.Bincode

/-! # Decoding under a budget

A decoder that charges one unit for every value it visits, refuses values nested
too deep, and compares a declared number of elements with what is left before it
reads them. What it reads is what the plain decoder reads, and it reads every value
whose visits and levels the limits cover. -/

namespace Bincode
open List (append_assoc map_cons sum_cons length_cons all_cons)
open Option (map_some)

variable {α β : Type} {x : Codec α} {y : Codec β}

/-- A value whose own visit has been charged: `cost` counts the visits below it and
`height` the levels. -/
structure Limited (x : Codec α) where
  read : ℕ → ℕ → ℕ → Bytes → Option (α × ℕ × Bytes)
  cost : α → ℕ
  height : ℕ
  sound : ∀ {m d r b a r' rest}, read m d r b=some (a,r',rest) → x.decode b=some (a,rest)
  complete : ∀ {m d r a} (rest : Bytes), x.fits a=true → cost a ≤ r → d+height < m →
    read m d r (x.encode a++rest)=some (a,r-cost a,rest)

/-- Charge one value at depth `d`. -/
def enter (m d r : ℕ) : Option ℕ := if d≥m ∨ r=0 then none else some (r-1)

variable {m d r : ℕ}

theorem enter_some (hd : d < m) (hr : 0 < r) : enter m d r=some (r-1) := by
  rw [enter,if_neg (by omega)]

def Limited.visit (l : Limited x) (m d r : ℕ) (b : Bytes) : Option (α × ℕ × Bytes) :=
  match enter m d r with
  | none => none
  | some r => l.read m d r b

variable {b rest : Bytes}

theorem Limited.visit_sound {l : Limited x} {m d r r' : ℕ} {a : α}
    (h : l.visit m d r b=some (a,r',rest)) : x.decode b=some (a,rest) := by
  unfold Limited.visit at h
  split at h
  · contradiction
  · exact l.sound h

theorem Limited.visit_complete (l : Limited x) {a : α} (rest : Bytes) (hfits : x.fits a=true) (hr : 1+l.cost a ≤ r)
    (hd : d+l.height < m) : l.visit m d r (x.encode a++rest)=some (a,r-(1+l.cost a),rest) := by
  rw [Limited.visit,enter_some (by omega) (by omega)]
  dsimp only
  rw [l.complete rest hfits (by omega) hd,Nat.sub_sub]

def scalar (x : Codec α) : Limited x where
  read _ _ r b := (x.decode b).map fun p => (p.1,r,p.2)
  cost _ := 0
  height := 0
  sound := by
    intro m d r b a r' rest h
    obtain ⟨p,hp,heq⟩:=Option.map_eq_some_iff.mp h
    obtain ⟨rfl,-,rfl⟩:=heq
    exact hp
  complete := by
    intro m d r a rest hfits _ _
    rw [x.decode_encode,if_pos hfits]
    rfl

/-- Values visited one after another at one depth. -/
structure Fields (x : Codec α) where
  count : ℕ
  read : ℕ → ℕ → ℕ → Bytes → Option (α × ℕ × Bytes)
  cost : α → ℕ
  height : ℕ
  count_le : ∀ a, count≤cost a
  sound : ∀ {m d r b a r' rest}, read m d r b=some (a,r',rest) → x.decode b=some (a,rest)
  complete : ∀ {m d r a} (rest : Bytes), x.fits a=true → cost a ≤ r → d+height < m →
    read m d r (x.encode a++rest)=some (a,r-cost a,rest)

def Fields.one (l : Limited x) : Fields x where
  count := 1
  read := l.visit
  cost a := 1+l.cost a
  height := l.height
  count_le _ := Nat.le_add_right 1 _
  sound := Limited.visit_sound
  complete := l.visit_complete

def Fields.cons (l : Limited x) (fs : Fields y) : Fields (x.pair y) where
  count := 1+fs.count
  read m d r b := match l.visit m d r b with
    | none => none
    | some (a,r,b) => (fs.read m d r b).map fun p => ((a,p.1),p.2)
  cost p := (1+l.cost p.1)+fs.cost p.2
  height := max l.height fs.height
  count_le p := by
    have:=fs.count_le p.2
    omega
  sound := by
    rintro m d r b ⟨a,c⟩ r' rest h
    cases hv : l.visit m d r b with
    | none =>
      rw [hv] at h
      contradiction
    | some p =>
      rw [hv] at h
      obtain ⟨⟨c',r1,rest'⟩,hq,heq⟩:=Option.map_eq_some_iff.mp h
      obtain ⟨hac,hrest⟩:=Prod.mk.inj heq
      cases hac
      obtain ⟨-,rfl⟩:=Prod.mk.inj hrest
      simp only [Codec.pair,Limited.visit_sound hv,fs.sound hq]
  complete := by
    rintro m d r ⟨a,c⟩ rest hfits hr hd
    simp only [Codec.pair,Bool.and_eq_true] at hfits
    dsimp only at hr
    have ha:=l.visit_complete (r := r) (d := d) (m := m) (y.encode c++rest) hfits.1 (by omega) (by omega)
    simp only [Codec.pair,append_assoc]
    rw [ha]
    dsimp only
    rw [fs.complete rest hfits.2 (by omega) (by omega),map_some,Nat.sub_sub]

/-- A structure or a tuple: the number of its fields is compared with the budget. -/
def Limited.struct (fs : Fields x) : Limited x where
  read m d r b := if fs.count>r then none else fs.read m (d+1) r b
  cost := fs.cost
  height := 1+fs.height
  sound := by
    intro m d r b a r' rest h
    split at h
    · contradiction
    · exact fs.sound h
  complete := by
    intro m d r a rest hfits hr hd
    have:=fs.count_le a
    rw [if_neg (by omega)]
    exact fs.complete rest hfits hr (by omega)

def Fields.never : Fields Bincode.never where
  count := 0
  read _ _ _ _ := none
  cost _ := 0
  height := 0
  count_le _ := Nat.le_refl 0
  sound := by
    intro m d r b a
    cases a
  complete := by
    intro m d r a
    cases a

/-- An enumeration: one visit for the number of the variant, one for the variant. -/
def Limited.variant {γ : ℕ → Type} {x : ∀ k, Codec (γ k)} (fs : ∀ k, Fields (x k)) (height : ℕ)
    (hheight : ∀ k, (fs k).height≤height) : Limited (Codec.variant x) where
  read m d r b := match enter m (d+1) r with
    | none => none
    | some r =>
      match u32.decode b with
      | none => none
      | some (k,b) =>
        match enter m (d+1) r with
        | none => none
        | some r =>
          if (fs k).count>r then none
          else ((fs k).read m (d+2) r b).map fun p => (⟨k,p.1⟩,p.2)
  cost p := 2+(fs p.1).cost p.2
  height := 2+height
  sound := by
    rintro m d r b ⟨k,a⟩ r' rest h
    split at h
    · contradiction
    · split at h
      · contradiction
      · rename_i k' b' hk
        split at h
        · contradiction
        · split at h
          · contradiction
          · obtain ⟨⟨a',r1,rest'⟩,hq,heq⟩:=Option.map_eq_some_iff.mp h
            obtain ⟨hka,hrest⟩:=Prod.mk.inj heq
            obtain ⟨-,rfl⟩:=Prod.mk.inj hrest
            obtain ⟨rfl,hka⟩:=Sigma.mk.inj hka
            obtain rfl:=eq_of_heq hka
            simp only [Codec.variant,hk,(fs k').sound hq]
  complete := by
    rintro m d r ⟨k,a⟩ rest hfits hr hd
    simp only [Codec.variant,Bool.and_eq_true] at hfits
    have hcount:=(fs k).count_le a
    have hh:=hheight k
    dsimp only at hr
    simp only [Codec.variant,append_assoc]
    rw [enter_some (by omega) (by omega)]
    dsimp only
    rw [u32.decode_encode,if_pos hfits.1]
    dsimp only
    rw [enter_some (by omega) (by omega)]
    dsimp only
    rw [if_neg (by omega),(fs k).complete rest hfits.2 (by omega) (by omega),map_some,
      show r-1-1-(fs k).cost a=r-(2+(fs k).cost a) by omega]

def Limited.readMany (l : Limited x) (m d : ℕ) : ℕ → ℕ → Bytes → Option (List α × ℕ × Bytes)
  | 0,r,b => some ([],r,b)
  | k+1,r,b =>
    match l.visit m d r b with
    | none => none
    | some (a,r,b) => (l.readMany m d k r b).map fun p => (a::p.1,p.2)

variable {as : List α}

theorem Limited.readMany_sound {l : Limited x} {m d k r r' : ℕ}
    (h : l.readMany m d k r b=some (as,r',rest)) : x.readMany k b=some (as,rest) := by
  induction k generalizing r r' b as with
  | zero =>
    obtain ⟨rfl,hrest⟩:=Prod.mk.inj (Option.some.inj h)
    obtain ⟨-,rfl⟩:=Prod.mk.inj hrest
    rfl
  | succ k ih =>
    unfold Limited.readMany at h
    split at h
    · contradiction
    · rename_i a r1 b1 hv
      obtain ⟨⟨as',r2,rest'⟩,hq,heq⟩:=Option.map_eq_some_iff.mp h
      obtain ⟨rfl,hrest⟩:=Prod.mk.inj heq
      obtain ⟨-,rfl⟩:=Prod.mk.inj hrest
      simp only [Codec.readMany,Limited.visit_sound hv,ih hq,map_some]

def Limited.costs (l : Limited x) (as : List α) : ℕ := (as.map fun a => 1+l.cost a).sum

theorem costs_scalar (x : Codec α) (as : List α) : (scalar x).costs as=as.length := by
  induction as with
  | nil => rfl
  | cons a as ih =>
    simp only [Limited.costs,map_cons,sum_cons,length_cons] at ih ⊢
    rw [ih]
    exact Nat.add_comm ..

theorem Limited.readMany_complete (l : Limited x) (rest : Bytes) (hfits : as.all x.fits=true) (hr : l.costs as ≤ r)
    (hd : d+l.height < m) : l.readMany m d as.length r (as.flatMap x.encode++rest)=some (as,r-l.costs as,rest) := by
  induction as generalizing r with
  | nil => rfl
  | cons a as ih =>
    rw [all_cons,Bool.and_eq_true] at hfits
    simp only [Limited.costs,map_cons,sum_cons] at hr ⊢
    have hrest:=ih (r := r-(1+l.cost a)) hfits.2 (by unfold Limited.costs; omega)
    rw [length_cons,List.flatMap_cons,append_assoc,Limited.readMany,l.visit_complete _ hfits.1 (by omega) hd]
    dsimp only
    rw [hrest,map_some,Limited.costs,Nat.sub_sub]

theorem Limited.length_le_costs (l : Limited x) (as : List α) : as.length≤l.costs as := by
  induction as with
  | nil => exact Nat.zero_le _
  | cons a as ih =>
    simp only [Limited.costs,map_cons,sum_cons,length_cons] at ih ⊢
    omega

/- The declared length is compared with the budget. -/
def Limited.readList (l : Limited x) (m d r : ℕ) (b : Bytes) : Option (List α × ℕ × Bytes) :=
  match u64.decode b with
  | none => none
  | some (k,b) => if k>r then none else l.readMany m (d+1) k r b

theorem Limited.readList_sound {l : Limited x} {m d r r' : ℕ}
    (h : l.readList m d r b=some (as,r',rest)) : x.list.decode b=some (as,rest) := by
  unfold Limited.readList at h
  split at h
  · contradiction
  · rename_i k b' hk
    split at h
    · contradiction
    · simp only [Codec.list,hk,Limited.readMany_sound h]

theorem Limited.readList_complete (l : Limited x) (rest : Bytes) (hfits : x.list.fits as=true) (hr : l.costs as ≤ r)
    (hd : d+(1+l.height) < m) : l.readList m d r (x.list.encode as++rest)=some (as,r-l.costs as,rest) := by
  simp only [Codec.list,Bool.and_eq_true] at hfits
  have hlen:=l.length_le_costs as
  simp only [Limited.readList,Codec.list,append_assoc]
  rw [u64.decode_encode,if_pos hfits.1]
  dsimp only
  rw [if_neg (by omega)]
  exact l.readMany_complete rest hfits.2 hr (by omega)

def Limited.list (l : Limited x) : Limited x.list where
  read := l.readList
  cost := l.costs
  height := 1+l.height
  sound := Limited.readList_sound
  complete := l.readList_complete

def Fields.costs (fs : Fields x) (as : List α) : ℕ := (as.map fs.cost).sum

def Fields.readMany (fs : Fields x) (m d : ℕ) : ℕ → ℕ → Bytes → Option (List α × ℕ × Bytes)
  | 0,r,b => some ([],r,b)
  | k+1,r,b =>
    match fs.read m d r b with
    | none => none
    | some (a,r,b) => (fs.readMany m d k r b).map fun p => (a::p.1,p.2)

theorem Fields.readMany_sound {fs : Fields x} {m d k r r' : ℕ}
    (h : fs.readMany m d k r b=some (as,r',rest)) : x.readMany k b=some (as,rest) := by
  induction k generalizing r r' b as with
  | zero =>
    obtain ⟨rfl,hrest⟩:=Prod.mk.inj (Option.some.inj h)
    obtain ⟨-,rfl⟩:=Prod.mk.inj hrest
    rfl
  | succ k ih =>
    unfold Fields.readMany at h
    split at h
    · contradiction
    · rename_i a r1 b1 hv
      obtain ⟨⟨as',r2,rest'⟩,hq,heq⟩:=Option.map_eq_some_iff.mp h
      obtain ⟨rfl,hrest⟩:=Prod.mk.inj heq
      obtain ⟨-,rfl⟩:=Prod.mk.inj hrest
      simp only [Codec.readMany,fs.sound hv,ih hq,map_some]

theorem Fields.readMany_complete (fs : Fields x) (rest : Bytes)
    (hfits : as.all x.fits=true) (hr : fs.costs as ≤ r) (hd : d+fs.height < m) :
    fs.readMany m d as.length r (as.flatMap x.encode++rest)=some (as,r-fs.costs as,rest) := by
  induction as generalizing r with
  | nil => rfl
  | cons a as ih =>
    rw [all_cons,Bool.and_eq_true] at hfits
    simp only [Fields.costs,map_cons,sum_cons] at hr ⊢
    have hrest:=ih (r := r-fs.cost a) hfits.2 (by unfold Fields.costs; omega)
    rw [length_cons,List.flatMap_cons,append_assoc,Fields.readMany,fs.complete _ hfits.1 (by omega) hd]
    dsimp only
    rw [hrest,map_some,Fields.costs,Nat.sub_sub]

theorem Fields.count_mul_le (fs : Fields x) (as : List α) : as.length*fs.count≤fs.costs as := by
  induction as with
  | nil => simp
  | cons a as ih =>
    have hcount:=fs.count_le a
    simp only [Fields.costs,map_cons,sum_cons,length_cons,Nat.succ_mul] at ih ⊢
    omega

/- The declared number of entries is compared with what the budget allows them. -/
def Fields.readMap (fs : Fields x) (m d r : ℕ) (b : Bytes) : Option (List α × ℕ × Bytes) :=
  match u64.decode b with
  | none => none
  | some (k,b) => if k>r/fs.count then none else fs.readMany m (d+1) k r b

theorem Fields.readMap_sound {fs : Fields x} {m d r r' : ℕ}
    (h : fs.readMap m d r b=some (as,r',rest)) : x.list.decode b=some (as,rest) := by
  unfold Fields.readMap at h
  split at h
  · contradiction
  · rename_i k b' hk
    split at h
    · contradiction
    · simp only [Codec.list,hk,Fields.readMany_sound h]

theorem Fields.readMap_complete (fs : Fields x) (hcount : 0<fs.count) (rest : Bytes)
    (hfits : x.list.fits as=true) (hr : fs.costs as ≤ r) (hd : d+(1+fs.height) < m) :
    fs.readMap m d r (x.list.encode as++rest)=some (as,r-fs.costs as,rest) := by
  simp only [Codec.list,Bool.and_eq_true] at hfits
  have hlen : as.length ≤ r/fs.count := (Nat.le_div_iff_mul_le hcount).mpr ((fs.count_mul_le as).trans hr)
  simp only [Fields.readMap,Codec.list,append_assoc]
  rw [u64.decode_encode,if_pos hfits.1]
  dsimp only
  rw [if_neg (Nat.not_lt.mpr hlen)]
  exact fs.readMany_complete rest hfits.2 hr (by omega)

/-- A map, whose entries are a key and a value each. -/
def Limited.map (fs : Fields x) (hcount : 0<fs.count) : Limited x.list where
  read := fs.readMap
  cost := fs.costs
  height := 1+fs.height
  sound := Fields.readMap_sound
  complete := fs.readMap_complete hcount

def Limited.option (l : Limited x) : Limited x.option where
  read m d r
    | [] => none
    | t::b =>
      if t=0 then some (none,r,b)
      else if t=1 then (l.visit m (d+1) r b).map fun p => (some p.1,p.2)
      else none
  cost
    | none => 0
    | some a => 1+l.cost a
  height := 1+l.height
  sound := by
    intro m d r b o r' rest h
    cases b with
    | nil => contradiction
    | cons t b =>
      dsimp only at h
      simp only [Codec.option]
      split at h
      · rename_i ht
        obtain ⟨rfl,hrest⟩:=Prod.mk.inj (Option.some.inj h)
        obtain ⟨-,rfl⟩:=Prod.mk.inj hrest
        rw [if_pos ht]
      · rename_i ht
        split at h
        · rename_i ht1
          obtain ⟨⟨a,r1,rest'⟩,hq,heq⟩:=Option.map_eq_some_iff.mp h
          obtain ⟨rfl,hrest⟩:=Prod.mk.inj heq
          obtain ⟨-,rfl⟩:=Prod.mk.inj hrest
          rw [if_neg ht,if_pos ht1,Limited.visit_sound hq]
        · contradiction
  complete := by
    intro m d r o rest hfits hr hd
    cases o with
    | none => rfl
    | some a =>
      have ha:=l.visit_complete (r := r) (d := d+1) (m := m) rest
        (by simpa only [Codec.option,Option.all_some] using hfits) hr (by omega)
      simp only [Codec.option,List.cons_append]
      rw [if_neg (by decide),if_pos trivial,ha]
      rfl

def Limited.via (l : Limited x) {into : β → α} {back : α → Option β} {h : ∀ b, back (into b)=some b} :
    Limited (x.via into back h) where
  read m d r b := match l.read m d r b with
    | none => none
    | some (a,r,b) => (back a).map fun c => (c,r,b)
  cost c := l.cost (into c)
  height := l.height
  sound := by
    intro m d r b c r' rest hread
    split at hread
    · contradiction
    · rename_i a r1 b1 ha
      obtain ⟨q,hq,heq⟩:=Option.map_eq_some_iff.mp hread
      obtain ⟨rfl,hrest⟩:=Prod.mk.inj heq
      obtain ⟨-,rfl⟩:=Prod.mk.inj hrest
      simp only [Codec.via,l.sound ha,hq,map_some]
  complete := by
    intro m d r c rest hfits hr hd
    have ha:=l.complete (m := m) (d := d) (r := r) (a := into c) rest hfits hr hd
    simp only [Codec.via]
    rw [ha]
    simp only [h,map_some]

structure Limits where
  maxPayloadBytes : ℕ
  maxValues : ℕ
  maxDepth : ℕ

/- The codec's own text of a failure is left out. -/
def Limited.decode (l : Limited x) (limits : Limits) (b : Bytes) : Except String α :=
  if b.length>limits.maxPayloadBytes then .error "bincode decode: payload byte limit exceeded"
  else if limits.maxDepth>128 then .error "bincode decode: max_depth must not exceed 128"
  else
    match l.visit limits.maxDepth 0 limits.maxValues b with
    | none => .error "bincode decode: "
    | some (a,_,rest) =>
      if rest.length≠0 then .error ("bincode decode: "++toString rest.length++" trailing bytes")
      else .ok a

theorem Limited.decode_sound {l : Limited x} {limits : Limits} {b : Bytes} {a : α}
    (h : l.decode limits b=.ok a) : b.length≤limits.maxPayloadBytes ∧ x.decode b=some (a,[]) := by
  unfold Limited.decode at h
  split at h
  · contradiction
  · split at h
    · contradiction
    · split at h
      · contradiction
      · rename_i a' r rest hv
        split at h
        · contradiction
        · rename_i hrest
          cases h
          have hnil : rest=[] := List.length_eq_zero_iff.mp (not_not.mp hrest)
          rw [hnil] at hv
          exact ⟨by omega,Limited.visit_sound hv⟩

theorem Limited.decode_encode (l : Limited x) {limits : Limits} {a : α} (hfits : x.fits a=true)
    (hbytes : (x.encode a).length≤limits.maxPayloadBytes) (hcost : 1+l.cost a≤limits.maxValues)
    (hdepth : l.height<limits.maxDepth) (hmax : limits.maxDepth≤128) : l.decode limits (x.encode a)=.ok a := by
  have hv:=l.visit_complete (m := limits.maxDepth) (d := 0) (r := limits.maxValues) [] hfits hcost (by omega)
  rw [List.append_nil] at hv
  unfold Limited.decode
  rw [if_neg (by omega),if_neg (by omega),hv]
  rfl

end Bincode
