import Mathlib.Data.List.Basic
import Mathlib.Tactic.Ring

/-! # Length-prefixed binary codecs

The `bincode` standard configuration: little-endian, variable-length unsigned
integers, sequences and strings behind their length, options behind a tag. A
codec says for which values it exists at all (`fits`), reads back exactly those,
and consumes nothing beyond its own bytes. -/

namespace Bincode
open List (length_cons cons_append nil_append append_assoc)
open String (fromUTF8?)

abbrev Bytes := List UInt8

structure Codec (α : Type) where
  encode : α → Bytes
  decode : Bytes → Option (α × Bytes)
  fits : α → Bool
  decode_encode : ∀ a rest,decode (encode a++rest)=if fits a then some (a,rest) else none

def leBytes : ℕ → ℕ → Bytes
  | 0,_ => []
  | k+1,n => UInt8.ofNat n::leBytes k (n/256)

def ofLeBytes : Bytes → ℕ
  | [] => 0
  | b::bs => b.toNat+256*ofLeBytes bs

@[simp] theorem leBytes_length (k n : ℕ) : (leBytes k n).length=k := by
  induction k generalizing n with
  | zero => rfl
  | succ k ih => simp [leBytes,ih]

theorem ofLeBytes_leBytes {k n : ℕ} (h : n<256^k) : ofLeBytes (leBytes k n)=n := by
  induction k generalizing n with
  | zero =>
    have : n=0 := by simpa using h
    rw [this]
    rfl
  | succ k ih =>
    have hdiv : n/256<256^k := by
      rw [Nat.div_lt_iff_lt_mul (by decide)]
      rwa [pow_succ] at h
    simp only [leBytes,ofLeBytes,ih hdiv,UInt8.toNat_ofNat']
    have:=Nat.mod_add_div n 256
    simpa using this

theorem leBytes_ofLeBytes (b : Bytes) : leBytes b.length (ofLeBytes b)=b := by
  induction b with
  | nil => rfl
  | cons x b ih =>
    have hlow : UInt8.ofNat (x.toNat+256*ofLeBytes b)=x := by
      rw [← UInt8.toNat_inj,UInt8.toNat_ofNat']
      have:=x.toNat_lt
      omega
    have hhigh : (x.toNat+256*ofLeBytes b)/256=ofLeBytes b := by
      have:=x.toNat_lt
      omega
    simp only [length_cons,leBytes,ofLeBytes,hlow,hhigh,ih]

theorem ofLeBytes_lt (b : Bytes) : ofLeBytes b<256^b.length := by
  induction b with
  | nil => exact Nat.one_pos
  | cons x b ih =>
    have:=x.toNat_lt
    simp only [ofLeBytes,length_cons,pow_succ]
    omega

/-- A `k`-byte integer, without its marker. -/
def readLe (k : ℕ) (bytes : Bytes) : Option (ℕ × Bytes) :=
  if bytes.length<k then none else some (ofLeBytes (bytes.take k),bytes.drop k)

theorem readLe_leBytes {k n : ℕ} (h : n<256^k) (rest : Bytes) : readLe k (leBytes k n++rest)=some (n,rest) := by
  have hlen : ¬ (leBytes k n++rest).length<k := by simp
  rw [readLe,if_neg hlen,List.take_left' (leBytes_length k n),List.drop_left' (leBytes_length k n),
    ofLeBytes_leBytes h]

/- 255 opens no integer: a value beyond 64 bits has no encoding. -/
def u64 : Codec ℕ where
  encode n := if n<251 then [UInt8.ofNat n]
    else if n<256^2 then 251::leBytes 2 n
    else if n<256^4 then 252::leBytes 4 n
    else if n<256^8 then 253::leBytes 8 n
    else [255]
  decode
    | [] => none
    | b::rest =>
      if b<251 then some (b.toNat,rest)
      else if b=251 then readLe 2 rest
      else if b=252 then readLe 4 rest
      else if b=253 then readLe 8 rest
      else none
  fits n := decide (n<256^8)
  decode_encode := by
    intro n rest
    by_cases h1 : n<251
    · have hlt : UInt8.ofNat n<251 := by
        rw [UInt8.lt_iff_toNat_lt,UInt8.toNat_ofNat']
        simp only [UInt8.reduceToNat]
        omega
      have hto : (UInt8.ofNat n).toNat=n := by
        rw [UInt8.toNat_ofNat']
        omega
      have hfit : n<256^8 := by omega
      simp only [h1,if_true,cons_append,nil_append,hlt,hto,hfit,decide_true]
    · by_cases h2 : n<256^2
      · have hfit : n<256^8 := by omega
        simp only [h1,if_false,h2,if_true,cons_append,hfit,decide_true]
        exact readLe_leBytes h2 rest
      · by_cases h4 : n<256^4
        · have hfit : n<256^8 := by omega
          simp only [h1,if_false,h2,h4,if_true,cons_append,hfit,decide_true]
          exact readLe_leBytes h4 rest
        · by_cases h8 : n<256^8
          · simp only [h1,if_false,h2,h4,h8,if_true,cons_append,decide_true]
            exact readLe_leBytes h8 rest
          · simp only [h1,if_false,h2,h4,h8,cons_append,nil_append,decide_false]
            rfl

/- A narrower integer has no marker for the widest. -/
def u32 : Codec ℕ where
  encode n := if n<251 then [UInt8.ofNat n]
    else if n<256^2 then 251::leBytes 2 n
    else if n<256^4 then 252::leBytes 4 n
    else [255]
  decode
    | [] => none
    | b::rest =>
      if b<251 then some (b.toNat,rest)
      else if b=251 then readLe 2 rest
      else if b=252 then readLe 4 rest
      else none
  fits n := decide (n<256^4)
  decode_encode := by
    intro n rest
    by_cases h1 : n<251
    · have hlt : UInt8.ofNat n<251 := by
        rw [UInt8.lt_iff_toNat_lt,UInt8.toNat_ofNat']
        simp only [UInt8.reduceToNat]
        omega
      have hto : (UInt8.ofNat n).toNat=n := by
        rw [UInt8.toNat_ofNat']
        omega
      have hfit : n<256^4 := by omega
      simp only [h1,if_true,cons_append,nil_append,hlt,hto,hfit,decide_true]
    · by_cases h2 : n<256^2
      · have hfit : n<256^4 := by omega
        simp only [h1,if_false,h2,if_true,cons_append,hfit,decide_true]
        exact readLe_leBytes h2 rest
      · by_cases h4 : n<256^4
        · simp only [h1,if_false,h2,h4,if_true,cons_append,decide_true]
          exact readLe_leBytes h4 rest
        · simp only [h1,if_false,h2,h4,cons_append,nil_append,decide_false]
          rfl

def bool : Codec Bool where
  encode b := [if b then 1 else 0]
  decode
    | [] => none
    | b::rest => if b=0 then some (false,rest) else if b=1 then some (true,rest) else none
  fits _ := true
  decode_encode := by
    intro b rest
    cases b <;> rfl

def u8 : Codec UInt8 where
  encode b := [b]
  decode
    | [] => none
    | b::rest => some (b,rest)
  fits _ := true
  decode_encode := fun _ _ => rfl

section compose
variable {α β : Type}

def Codec.pair (x : Codec α) (y : Codec β) : Codec (α × β) where
  encode p := x.encode p.1++y.encode p.2
  decode bytes := match x.decode bytes with
    | none => none
    | some (a,rest) =>
      match y.decode rest with
      | none => none
      | some (b,rest) => some ((a,b),rest)
  fits p := x.fits p.1&&y.fits p.2
  decode_encode := by
    rintro ⟨a,b⟩ rest
    rw [append_assoc,x.decode_encode]
    by_cases ha : x.fits a=true
    · simp only [ha,if_true,y.decode_encode,Bool.true_and]
      by_cases hb : y.fits b=true <;> simp [hb]
    · simp [ha]

/-- An enumeration: the variant's number, then its fields. -/
def Codec.variant {γ : ℕ → Type} (x : ∀ k, Codec (γ k)) : Codec (Σ k, γ k) where
  encode p := u32.encode p.1++(x p.1).encode p.2
  decode bytes := match u32.decode bytes with
    | none => none
    | some (k,rest) =>
      match (x k).decode rest with
      | none => none
      | some (b,rest) => some (⟨k,b⟩,rest)
  fits p := u32.fits p.1&&(x p.1).fits p.2
  decode_encode := by
    rintro ⟨k,b⟩ rest
    rw [append_assoc,u32.decode_encode]
    by_cases hk : u32.fits k=true
    · simp only [hk,if_true,(x k).decode_encode,Bool.true_and]
      by_cases hb : (x k).fits b=true <;> simp [hb]
    · simp [hk]

def never : Codec Empty where
  encode := nofun
  decode _ := none
  fits := nofun
  decode_encode := nofun

/-- A value stored as another one; `back` undoes `into` wherever it exists. -/
def Codec.via (x : Codec α) (into : β → α) (back : α → Option β) (h : ∀ b, back (into b)=some b) :
    Codec β where
  encode b := x.encode (into b)
  decode bytes := match x.decode bytes with
    | none => none
    | some (a,rest) => (back a).map fun b => (b,rest)
  fits b := x.fits (into b)
  decode_encode := by
    intro b rest
    rw [x.decode_encode]
    by_cases hb : x.fits (into b)=true <;> simp [hb,h]

theorem Codec.decode_exact {x : Codec α} {a : α} (h : x.fits a=true) : x.decode (x.encode a)=some (a,[]) := by
  have hdec:=x.decode_encode a []
  rwa [List.append_nil,if_pos h] at hdec

def Codec.readMany (x : Codec α) : ℕ → Bytes → Option (List α × Bytes)
  | 0,bytes => some ([],bytes)
  | k+1,bytes =>
    match x.decode bytes with
    | none => none
    | some (a,rest) => (x.readMany k rest).map fun p => (a::p.1,p.2)

theorem Codec.readMany_encode (x : Codec α) (l : List α) (rest : Bytes) :
    x.readMany l.length (l.flatMap x.encode++rest) = if l.all x.fits then some (l,rest) else none := by
  induction l with
  | nil => rfl
  | cons a l ih =>
    simp only [length_cons,Codec.readMany,List.flatMap_cons,append_assoc,x.decode_encode,List.all_cons]
    by_cases ha : x.fits a=true
    · simp only [ha,if_true,ih,Bool.true_and]
      by_cases hl : l.all x.fits=true <;> simp [hl]
    · simp [ha]

def Codec.list (x : Codec α) : Codec (List α) where
  encode l := u64.encode l.length++l.flatMap x.encode
  decode bytes := match u64.decode bytes with
    | none => none
    | some (k,rest) => x.readMany k rest
  fits l := u64.fits l.length&&l.all x.fits
  decode_encode := by
    intro l rest
    rw [append_assoc,u64.decode_encode]
    by_cases hl : u64.fits l.length=true
    · simp only [hl,if_true,x.readMany_encode,Bool.true_and]
    · simp [hl]

def Codec.option (x : Codec α) : Codec (Option α) where
  encode
    | none => [0]
    | some a => 1::x.encode a
  decode
    | [] => none
    | b::rest =>
      if b=0 then some (none,rest)
      else if b=1 then
        match x.decode rest with
        | none => none
        | some (a,rest) => some (some a,rest)
      else none
  fits o := o.all x.fits
  decode_encode := by
    intro o rest
    cases o with
    | none => rfl
    | some a =>
      simp only [cons_append,x.decode_encode,Option.all_some]
      by_cases ha : x.fits a=true <;> simp [ha]

end compose

def bytes : Codec Bytes := u8.list

def utf8 (s : String) : Bytes := s.toUTF8.data.toList

theorem utf8_length (s : String) : (utf8 s).length=s.utf8ByteSize := by
  simp [utf8]

theorem fromUTF8_utf8 (s : String) : fromUTF8? ⟨(utf8 s).toArray⟩=some s := by
  have hb : (⟨(utf8 s).toArray⟩ : ByteArray)=s.toUTF8 := by simp [utf8]
  rw [hb]
  unfold fromUTF8?
  have hvalid : s.toUTF8.IsValidUTF8 := s.isValidUTF8
  rw [dif_pos hvalid]
  rfl

theorem utf8_fromUTF8 {b : Bytes} {s : String} (h : fromUTF8? ⟨b.toArray⟩=some s) : utf8 s=b := by
  unfold fromUTF8? at h
  split at h
  · cases h
    rfl
  · contradiction

theorem utf8_inj {s s' : String} (h : utf8 s=utf8 s') : s=s' := by
  have hs:=fromUTF8_utf8 s
  rw [h,fromUTF8_utf8] at hs
  exact (Option.some.inj hs).symm

def string : Codec String :=
  bytes.via utf8 (fun b => fromUTF8? ⟨b.toArray⟩) fromUTF8_utf8

theorem u64_pos (n : ℕ) : 0<(u64.encode n).length := by
  simp only [u64]
  split_ifs <;> simp

theorem u64_le_nine (n : ℕ) : (u64.encode n).length≤9 := by
  simp only [u64]
  split_ifs <;> simp

theorem u64_le_three {n : ℕ} (h : n<256^2) : (u64.encode n).length≤3 := by
  simp only [u64]
  split_ifs <;> simp

theorem u64_mono {n m : ℕ} (h : n ≤ m) (hm : m<256^8) : (u64.encode n).length≤(u64.encode m).length := by
  simp only [u64]
  split_ifs <;> first | omega | simp

theorem u64_fits {n : ℕ} (h : n<256^8) : u64.fits n=true := decide_eq_true h

theorem bytes_length (b : Bytes) : (bytes.encode b).length=(u64.encode b.length).length+b.length := by
  simp [bytes,Codec.list,u8]

theorem bytes_fits {b : Bytes} (h : b.length<256^8) : bytes.fits b=true := by
  simp [bytes,Codec.list,u8,u64_fits h]

theorem string_length (s : String) : (string.encode s).length=(u64.encode s.utf8ByteSize).length+s.utf8ByteSize := by
  have h:=bytes_length (utf8 s)
  rwa [utf8_length] at h

theorem string_fits {s : String} (h : s.utf8ByteSize<256^8) : string.fits s=true :=
  bytes_fits (by rwa [utf8_length])

end Bincode
