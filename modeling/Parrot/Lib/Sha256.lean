import Mathlib.Algebra.Group.Nat.Defs
import Mathlib.Data.List.Basic

/-! # SHA-256

The hash as FIPS 180-4 defines it, over byte lists. -/

namespace Sha256

abbrev Bytes := List UInt8

def constants : List UInt32 :=
  [0x428a2f98,0x71374491,0xb5c0fbcf,0xe9b5dba5,0x3956c25b,0x59f111f1,0x923f82a4,0xab1c5ed5,
   0xd807aa98,0x12835b01,0x243185be,0x550c7dc3,0x72be5d74,0x80deb1fe,0x9bdc06a7,0xc19bf174,
   0xe49b69c1,0xefbe4786,0x0fc19dc6,0x240ca1cc,0x2de92c6f,0x4a7484aa,0x5cb0a9dc,0x76f988da,
   0x983e5152,0xa831c66d,0xb00327c8,0xbf597fc7,0xc6e00bf3,0xd5a79147,0x06ca6351,0x14292967,
   0x27b70a85,0x2e1b2138,0x4d2c6dfc,0x53380d13,0x650a7354,0x766a0abb,0x81c2c92e,0x92722c85,
   0xa2bfe8a1,0xa81a664b,0xc24b8b70,0xc76c51a3,0xd192e819,0xd6990624,0xf40e3585,0x106aa070,
   0x19a4c116,0x1e376c08,0x2748774c,0x34b0bcb5,0x391c0cb3,0x4ed8aa4a,0x5b9cca4f,0x682e6ff3,
   0x748f82ee,0x78a5636f,0x84c87814,0x8cc70208,0x90befffa,0xa4506ceb,0xbef9a3f7,0xc67178f2]

structure State where
  a : UInt32
  b : UInt32
  c : UInt32
  d : UInt32
  e : UInt32
  f : UInt32
  g : UInt32
  h : UInt32

def initial : State :=
  ⟨0x6a09e667,0xbb67ae85,0x3c6ef372,0xa54ff53a,0x510e527f,0x9b05688c,0x1f83d9ab,0x5be0cd19⟩

def rotr (x : UInt32) (n : UInt32) : UInt32 := x >>> n ||| x <<< (32-n)

def beWord : Bytes → UInt32
  | [a,b,c,d] => a.toUInt32 <<< 24 ||| b.toUInt32 <<< 16 ||| c.toUInt32 <<< 8 ||| d.toUInt32
  | _ => 0

def wordBytes (w : UInt32) : Bytes :=
  [(w >>> 24).toUInt8,(w >>> 16).toUInt8,(w >>> 8).toUInt8,w.toUInt8]

/-- Consecutive groups of `k` elements; `fuel` bounds their number. -/
def groups (k : ℕ) : ℕ → Bytes → List Bytes
  | 0,_ => []
  | fuel+1,bytes => if bytes.isEmpty then [] else bytes.take k::groups k fuel (bytes.drop k)

def pad (bytes : Bytes) : Bytes :=
  let bits:=8*bytes.length
  bytes++[0x80]++List.replicate ((119-bytes.length%64)%64) 0++
    ((List.range 8).map fun k => UInt8.ofNat (bits/256^(7-k)))

def extend : ℕ → List UInt32 → List UInt32
  | 0,w => w
  | k+1,w =>
    let x:=w.getD 14 0
    let y:=w.getD 1 0
    let s0:=rotr x 7 ^^^ rotr x 18 ^^^ x >>> 3
    let s1:=rotr y 17 ^^^ rotr y 19 ^^^ y >>> 10
    extend k ((w.getD 15 0+s0+w.getD 6 0+s1)::w)

def schedule (block : Bytes) : List UInt32 :=
  (extend 48 ((groups 4 16 block).map beWord).reverse).reverse

def round (s : State) (kw : UInt32 × UInt32) : State :=
  let s1:=rotr s.e 6 ^^^ rotr s.e 11 ^^^ rotr s.e 25
  let ch:=(s.e &&& s.f) ^^^ (~~~s.e &&& s.g)
  let t1:=s.h+s1+ch+kw.1+kw.2
  let s0:=rotr s.a 2 ^^^ rotr s.a 13 ^^^ rotr s.a 22
  let maj:=(s.a &&& s.b) ^^^ (s.a &&& s.c) ^^^ (s.b &&& s.c)
  ⟨t1+(s0+maj),s.a,s.b,s.c,s.d+t1,s.e,s.f,s.g⟩

def compress (s : State) (block : Bytes) : State :=
  let r:=(constants.zip (schedule block)).foldl round s
  ⟨s.a+r.a,s.b+r.b,s.c+r.c,s.d+r.d,s.e+r.e,s.f+r.f,s.g+r.g,s.h+r.h⟩

def digest (bytes : Bytes) : Bytes :=
  let padded:=pad bytes
  let s:=(groups 64 padded.length padded).foldl compress initial
  [s.a,s.b,s.c,s.d,s.e,s.f,s.g,s.h].flatMap wordBytes

theorem digest_length (bytes : Bytes) : (digest bytes).length=32 := rfl

end Sha256
