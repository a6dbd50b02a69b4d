import Mathlib.Data.List.Perm.Basic
import Parrot.Lib.Bincode

/-! # Tagged records

A sequence of records, each a tag byte, a length of two bytes and that many bytes. The
fields a reader collects do not depend on the order of records with different tags. -/

namespace Parrot.Tlv
open Bincode (Bytes leBytes ofLeBytes)

abbrev Record := UInt8 × Bytes

/-- The tag, the length it declared and what was left. -/
structure Truncated where
  tag : UInt8
  declared : ℕ
  left : ℕ

def Record.bytes (r : Record) : Bytes := r.1::(leBytes 2 r.2.length++r.2)

variable (records : List Record)

def encode : Bytes := records.flatMap Record.bytes

/-- `fuel` is the number of bytes: a record takes three at least. -/
def scan {σ : Type*} (f : σ → Record → σ) : ℕ → σ → Bytes → Except Truncated σ
  | 0,s,_ => .ok s
  | _+1,s,[] => .ok s
  | fuel+1,s,tag::b =>
    if b.length<2 then .error ⟨tag,0,b.length+1⟩
    else
      let len:=ofLeBytes (b.take 2)
      let rest:=b.drop 2
      if len>rest.length then .error ⟨tag,len,rest.length⟩
      else scan f fuel (f s (tag,rest.take len)) (rest.drop len)

section Scan

variable {σ : Type*} (f : σ → Record → σ)

theorem scan_bytes {r : Record} (h : r.2.length<256^2) (fuel : ℕ) (s : σ) (rest : Bytes) :
    scan f (fuel+1) s (r.bytes++rest)=scan f fuel (f s r) rest := by
  obtain ⟨tag,v⟩:=r
  have hlen : (leBytes 2 v.length++v++rest).length=2+v.length+rest.length := by
    simp only [List.length_append,Bincode.leBytes_length]
  have htake : (leBytes 2 v.length++v++rest).take 2=leBytes 2 v.length := by
    rw [List.append_assoc]
    exact List.take_left' (Bincode.leBytes_length ..)
  have hdrop : (leBytes 2 v.length++v++rest).drop 2=v++rest := by
    rw [List.append_assoc]
    exact List.drop_left' (Bincode.leBytes_length ..)
  rw [Record.bytes,List.cons_append,scan]
  dsimp only
  rw [if_neg (by omega),htake,hdrop,Bincode.ofLeBytes_leBytes h,if_neg (by simp),List.take_left,List.drop_left]

theorem scan_encode {records : List Record} (h : ∀ r∈records, r.2.length<256^2) :
    ∀ {fuel : ℕ}, records.length≤fuel → ∀ s, scan f fuel s (encode records)=.ok (records.foldl f s) := by
  induction records with
  | nil =>
    intro fuel _ s
    cases fuel with
    | zero => rfl
    | succ fuel => rfl
  | cons r records ih =>
    intro fuel hfuel s
    cases fuel with
    | zero => simp at hfuel
    | succ fuel =>
      have hstep : encode (r::records)=r.bytes++encode records := rfl
      rw [hstep,scan_bytes f (h r (List.mem_cons_self ..)),
        ih (fun x hx => h x (List.mem_cons_of_mem _ hx)) (by simpa using hfuel)]
      rfl

end Scan

theorem length_le_encode : records.length≤(encode records).length := by
  induction records with
  | nil => exact le_rfl
  | cons r records ih =>
    have hstep : encode (r::records)=r.bytes++encode records := rfl
    rw [hstep,List.length_append,Record.bytes,List.length_cons,List.length_cons]
    omega

/-- The first value of a tag, and whether there was another. -/
structure Field where
  value : Option Bytes
  duplicate : Bool

def Field.empty : Field := ⟨none,false⟩

def Field.add (field : Field) (v : Bytes) : Field :=
  match field.value with
  | some _ => {field with duplicate:=true}
  | none => {field with value:=some v}

/-- Records of other tags than the known ones are skipped. -/
def collect (known : UInt8 → Bool) (out : UInt8 → Field) (r : Record) : UInt8 → Field :=
  if known r.1 then Function.update out r.1 ((out r.1).add r.2) else out

def values (tag : UInt8) : List Bytes := (records.filter fun r => r.1=tag).map Prod.snd

theorem collect_foldl {known : UInt8 → Bool} {tag : UInt8} (h : known tag=true) (records : List Record)
    (out : UInt8 → Field) : (records.foldl (collect known) out) tag=(values records tag).foldl Field.add (out tag) := by
  induction records generalizing out with
  | nil => rfl
  | cons r records ih =>
    rw [List.foldl_cons,ih]
    by_cases hr : r.1=tag
    · have hv : values (r::records) tag=r.2::values records tag := by simp [values,hr]
      rw [hv,List.foldl_cons,collect,if_pos (hr ▸ h),← hr,Function.update_self]
    · have hv : values (r::records) tag=values records tag := by simp [values,hr]
      rw [hv,collect]
      split
      · rw [Function.update_of_ne (Ne.symm hr)]
      · rfl

theorem values_perm {a b : List Record} {tag : UInt8} (hp : a.Perm b) (h : (values b tag).length≤1) :
    values a tag=values b tag := by
  have hv : (values a tag).Perm (values b tag) := (hp.filter _).map _
  cases hb : values b tag with
  | nil => rw [hb] at hv; exact hv.eq_nil
  | cons v rest =>
    rw [hb] at h hv
    have hnil : rest=[] := List.eq_nil_of_length_eq_zero (by simpa using h)
    rw [hnil] at hv ⊢
    exact List.perm_singleton.mp hv

end Parrot.Tlv
