import Parrot.Directory.Command

/-! # Resolve payloads (`resolve.rs`)

The bounded payloads of lookups, their responses and invalidations. -/

namespace Parrot.Resolve
open List (append_assoc take_left' drop_left' append_nil drop_drop length_take take_append_drop)
open Bincode (Bytes leBytes ofLeBytes utf8)
open Directory (DirEntry)
open Machine (bind_eq_ok)

def version : UInt8 := 1
def maxKey : ℕ := 4096
def maxEndpoints : ℕ := 64
def maxEndpoint : ℕ := 2048
def maxPayload : ℕ := 128*1024
def maxTtlS : ℕ := 31536000
def responseKey : String := "parrot:resolve#v1"

structure Query where
  key : String
  minVersion : ℕ

structure Response where
  key : String
  entry : Option DirEntry

structure Invalidate where
  key : String
  version : ℕ
  deriving DecidableEq

inductive Error where
  | tooLarge (len : ℕ)
  | truncated
  | version (got : UInt8)
  | utf8
  | length (what : String)
  | trailing

def Error.text : Error → String
  | .tooLarge len => "resolve payload exceeds "++toString len++" bytes"
  | .truncated => "resolve payload is truncated"
  | .version got => "resolve payload has unsupported version "++toString got.toNat
  | .utf8 => "resolve payload has invalid UTF-8"
  | .length what => "resolve payload has invalid "++what++" length"
  | .trailing => "resolve payload has trailing bytes"

def checkLen (len : ℕ) : Except Error Unit := if len>maxPayload then .error (.tooLarge len) else .ok ()

def putString (value what : String) : Except Error Bytes :=
  if value.utf8ByteSize>maxKey ∧ what="key" then .error (.length what)
  else if value.utf8ByteSize>maxEndpoint ∧ what="endpoint" then .error (.length what)
  else if value.utf8ByteSize≥2^16 then .error (.length what)
  else .ok (leBytes 2 value.utf8ByteSize++utf8 value)

/-- The string at the front of the input and what is behind it. -/
def readString (what : String) (max : ℕ) (input : Bytes) : Except Error (String × Bytes) :=
  if input.length<2 then .error .truncated
  else if ofLeBytes (input.take 2)>max then .error (.length what)
  else if (input.drop 2).length<ofLeBytes (input.take 2) then .error .truncated
  else
    match String.fromUTF8? ⟨((input.drop 2).take (ofLeBytes (input.take 2))).toArray⟩ with
    | some value => .ok (value,(input.drop 2).drop (ofLeBytes (input.take 2)))
    | none => .error .utf8

def putStrings (what : String) : List String → Except Error Bytes
  | [] => .ok []
  | value::values => do
    let first ← putString value what
    let rest ← putStrings what values
    return first++rest

def readStrings (what : String) (max : ℕ) : ℕ → Bytes → Except Error (List String × Bytes)
  | 0,input => .ok ([],input)
  | count+1,input => do
    let (value,input) ← readString what max input
    let (values,input) ← readStrings what max count input
    return (value::values,input)

def encodeQuery (query : Query) : Except Error Bytes := do
  let key ← putString query.key "key"
  let out:=version::0::(key++leBytes 8 query.minVersion)
  checkLen out.length
  return out

variable (input : Bytes)

def readVersion : Except Error ℕ :=
  if input.length<8 then .error .truncated
  else if input.length≠8 then .error .trailing
  else .ok (ofLeBytes input)

def decodeQuery : Except Error Query := do
  checkLen input.length
  match input with
  | [] => .error .truncated
  | [v] => .error (.version v)
  | v::flags::rest =>
    if v≠version then .error (.version v)
    else if flags≠0 then .error (.length "query flags")
    else
      let (key,rest) ← readString "key" maxKey rest
      let minVersion ← readVersion rest
      return ⟨key,minVersion⟩

def putEntry (entry : DirEntry) : Except Error Bytes :=
  if entry.ttlS>maxTtlS then .error (.length "ttl")
  else if entry.endpoints.length≥2^16 then .error (.length "endpoints")
  else if entry.endpoints.length>maxEndpoints then .error (.length "endpoints")
  else do
    let endpoints ← putStrings "endpoint" entry.endpoints
    return leBytes 8 entry.version++(leBytes 4 entry.ttlS++(leBytes 2 entry.endpoints.length++endpoints))

def putOption : Option DirEntry → Except Error Bytes
  | some entry => putEntry entry
  | none => .ok []

def encodeResponse (response : Response) : Except Error Bytes := do
  let key ← putString response.key "key"
  let entry ← putOption response.entry
  let out:=version::(if response.entry.isSome then 1 else 0)::(key++entry)
  checkLen out.length
  return out

def readEntry : Except Error (DirEntry × Bytes) :=
  if input.length<8+4+2 then .error .truncated
  else if ofLeBytes ((input.drop 8).take 4)>maxTtlS then .error (.length "ttl")
  else if ofLeBytes ((input.drop 12).take 2)>maxEndpoints then .error (.length "endpoints")
  else do
    let (endpoints,rest) ← readStrings "endpoint" maxEndpoint (ofLeBytes ((input.drop 12).take 2)) (input.drop 14)
    return (⟨endpoints,ofLeBytes (input.take 8),ofLeBytes ((input.drop 8).take 4)⟩,rest)

def decodeResponse : Except Error Response := do
  checkLen input.length
  match input with
  | [] => .error .truncated
  | [v] => .error (.version v)
  | v::status::rest =>
    if v≠version then .error (.version v)
    else if status>1 then .error (.length "response status")
    else
      let (key,rest) ← readString "key" maxKey rest
      let (entry,rest) ← if status=0 then .ok (none,rest) else
        (readEntry rest).map fun r => (some r.1,r.2)
      if rest≠[] then .error .trailing else return ⟨key,entry⟩

def encodeInvalidate (value : Invalidate) : Except Error Bytes := do
  let key ← putString value.key "key"
  let out:=version::(key++leBytes 8 value.version)
  checkLen out.length
  return out

def decodeInvalidate : Except Error Invalidate := do
  checkLen input.length
  match input with
  | [] => .error .truncated
  | v::rest =>
    if v≠version then .error (.version v)
    else
      let (key,rest) ← readString "key" maxKey rest
      let version ← readVersion rest
      return ⟨key,version⟩

variable {value what : String} {values : List String} {b rest : Bytes} {max : ℕ}

theorem readString_utf8 (hmax : value.utf8ByteSize ≤ max) (hlen : value.utf8ByteSize<2^16) (rest : Bytes) :
    readString what max (leBytes 2 value.utf8ByteSize++utf8 value++rest)=.ok (value,rest) := by
  have htake : ofLeBytes ((leBytes 2 value.utf8ByteSize++utf8 value++rest).take 2)=value.utf8ByteSize := by
    rw [append_assoc,take_left' (Bincode.leBytes_length 2 _),Bincode.ofLeBytes_leBytes (by omega)]
  have hdrop : (leBytes 2 value.utf8ByteSize++utf8 value++rest).drop 2=utf8 value++rest := by
    rw [append_assoc,drop_left' (Bincode.leBytes_length 2 _)]
  have hsize:=Bincode.utf8_length value
  have hbound : ¬ (leBytes 2 value.utf8ByteSize++utf8 value++rest).length<2 := by
    rw [List.length_append,List.length_append,Bincode.leBytes_length]
    omega
  unfold readString
  rw [htake,hdrop,if_neg hbound,if_neg (by omega),if_neg (by simp [hsize]),take_left' hsize,
    drop_left' hsize,Bincode.fromUTF8_utf8]

theorem readString_put (h : putString value what=.ok b)
    (hmax : what="key" ∧ max=maxKey ∨ what="endpoint" ∧ max=maxEndpoint) (rest : Bytes) :
    readString what max (b++rest)=.ok (value,rest) := by
  unfold putString at h
  obtain ⟨hkey,h⟩:=Except.of_ite_left h
  obtain ⟨hendpoint,h⟩:=Except.of_ite_left h
  obtain ⟨hlen,h⟩:=Except.of_ite_left h
  cases h
  apply readString_utf8
  · rcases hmax with ⟨rfl,rfl⟩ | ⟨rfl,rfl⟩
    · exact Nat.not_lt.mp fun hgt => hkey ⟨hgt,rfl⟩
    · exact Nat.not_lt.mp fun hgt => hendpoint ⟨hgt,rfl⟩
  · omega

theorem readStrings_put (h : putStrings "endpoint" values=.ok b) (rest : Bytes) :
    readStrings "endpoint" maxEndpoint values.length (b++rest)=.ok (values,rest) := by
  induction values generalizing b with
  | nil =>
    cases h
    simp [readStrings]
  | cons value values ih =>
    obtain ⟨first,hfirst,h⟩:=bind_eq_ok.mp h
    obtain ⟨others,hothers,h⟩:=bind_eq_ok.mp h
    cases h
    rw [List.length_cons,readStrings,append_assoc,readString_put hfirst (.inr ⟨rfl,rfl⟩)]
    simp [bind,Except.bind,ih hothers,pure,Except.pure]

variable (rest) in
theorem readVersion_append {n : ℕ} (h : n<2^64) :
    readVersion (leBytes 8 n++rest)=if rest=[] then .ok n else .error .trailing := by
  unfold readVersion
  rw [if_neg (by simp)]
  cases rest with
  | nil => simp [Bincode.ofLeBytes_leBytes (k := 8) (n := n) (by omega)]
  | cons x rest => simp

theorem decodeQuery_append {query : Query} (hversion : query.minVersion<2^64) (h : encodeQuery query=.ok b)
    (hlen : checkLen (b++rest).length=.ok ()) :
    decodeQuery (b++rest)=if rest=[] then .ok query else .error .trailing := by
  obtain ⟨key,hkey,h⟩:=bind_eq_ok.mp h
  obtain ⟨_,-,h⟩:=bind_eq_ok.mp h
  cases h
  unfold decodeQuery
  rw [hlen]
  cases rest with
  | nil =>
    have hread:=readVersion_append [] hversion
    rw [append_nil] at hread
    simp [bind,Except.bind,readString_put hkey (.inl ⟨rfl,rfl⟩),hread,pure,Except.pure]
  | cons x rest =>
    simp [bind,Except.bind,readString_put hkey (.inl ⟨rfl,rfl⟩),readVersion_append (x::rest) hversion]

theorem decodeInvalidate_append {value : Invalidate} (hversion : value.version<2^64)
    (h : encodeInvalidate value=.ok b) (hlen : checkLen (b++rest).length=.ok ()) :
    decodeInvalidate (b++rest)=if rest=[] then .ok value else .error .trailing := by
  obtain ⟨key,hkey,h⟩:=bind_eq_ok.mp h
  obtain ⟨_,-,h⟩:=bind_eq_ok.mp h
  cases h
  unfold decodeInvalidate
  rw [hlen]
  cases rest with
  | nil =>
    have hread:=readVersion_append [] hversion
    rw [append_nil] at hread
    simp [bind,Except.bind,readString_put hkey (.inl ⟨rfl,rfl⟩),hread,pure,Except.pure]
  | cons x rest =>
    simp [bind,Except.bind,readString_put hkey (.inl ⟨rfl,rfl⟩),readVersion_append (x::rest) hversion]

theorem readEntry_put {entry : DirEntry} (hversion : entry.version<2^64) (h : putEntry entry=.ok b)
    (rest : Bytes) : readEntry (b++rest)=.ok (entry,rest) := by
  unfold putEntry at h
  obtain ⟨httl,h⟩:=Except.of_ite_left h
  obtain ⟨-,h⟩:=Except.of_ite_left h
  obtain ⟨hcount,h⟩:=Except.of_ite_left h
  obtain ⟨endpoints,hendpoints,h⟩:=bind_eq_ok.mp h
  cases h
  have httl' : entry.ttlS<256^4 := by
    simp only [maxTtlS] at httl
    omega
  have hcount' : entry.endpoints.length<256^2 := by
    simp only [maxEndpoints] at hcount
    omega
  have h8 : ((leBytes 8 entry.version++(leBytes 4 entry.ttlS++(leBytes 2 entry.endpoints.length++endpoints)))++
      rest).drop 8=leBytes 4 entry.ttlS++(leBytes 2 entry.endpoints.length++(endpoints++rest)) := by
    rw [append_assoc,drop_left' (Bincode.leBytes_length 8 _)]
    simp
  have h12 : ((leBytes 8 entry.version++(leBytes 4 entry.ttlS++(leBytes 2 entry.endpoints.length++endpoints)))++
      rest).drop 12=leBytes 2 entry.endpoints.length++(endpoints++rest) := by
    rw [show 12=8+4 from rfl,← drop_drop,h8,drop_left' (Bincode.leBytes_length 4 _)]
  have h14 : ((leBytes 8 entry.version++(leBytes 4 entry.ttlS++(leBytes 2 entry.endpoints.length++endpoints)))++
      rest).drop 14=endpoints++rest := by
    rw [show 14=12+2 from rfl,← drop_drop,h12,drop_left' (Bincode.leBytes_length 2 _)]
  unfold readEntry
  rw [if_neg (by simp; omega),h8,h12,h14,take_left' (Bincode.leBytes_length 4 _),
    take_left' (Bincode.leBytes_length 2 _),Bincode.ofLeBytes_leBytes httl',
    Bincode.ofLeBytes_leBytes hcount',if_neg httl,if_neg hcount,readStrings_put hendpoints,append_assoc,
    take_left' (Bincode.leBytes_length 8 _),Bincode.ofLeBytes_leBytes (by omega)]
  rfl

theorem decodeResponse_append {response : Response} (hversion : ∀ entry, response.entry=some entry →
    entry.version<2^64) (h : encodeResponse response=.ok b) (hlen : checkLen (b++rest).length=.ok ()) :
    decodeResponse (b++rest)=if rest=[] then .ok response else .error .trailing := by
  rcases response with ⟨responseKey,entry⟩
  obtain ⟨key,hkey,h⟩:=bind_eq_ok.mp h
  obtain ⟨entryBytes,hentry,h⟩:=bind_eq_ok.mp h
  obtain ⟨_,-,h⟩:=bind_eq_ok.mp h
  cases h
  unfold decodeResponse
  rw [hlen]
  cases entry with
  | none =>
    cases hentry
    have hstring:=readString_put hkey (.inl ⟨rfl,rfl⟩) rest
    cases rest with
    | nil =>
      rw [append_nil] at hstring
      simp [bind,Except.bind,hstring,pure,Except.pure]
    | cons x rest => simp [bind,Except.bind,hstring]
  | some entry =>
    have hread:=readEntry_put (hversion entry rfl) hentry rest
    cases rest with
    | nil =>
      rw [append_nil] at hread
      simp [bind,Except.bind,readString_put hkey (.inl ⟨rfl,rfl⟩),hread,Except.map,pure,Except.pure]
    | cons x rest => simp [bind,Except.bind,readString_put hkey (.inl ⟨rfl,rfl⟩),hread,Except.map]

theorem readString_ok (h : readString what max b=.ok (value,rest)) :
    b=leBytes 2 value.utf8ByteSize++utf8 value++rest ∧ value.utf8ByteSize ≤ max := by
  unfold readString at h
  obtain ⟨hlen,h⟩:=Except.of_ite_left h
  obtain ⟨hmax,h⟩:=Except.of_ite_left h
  obtain ⟨hroom,h⟩:=Except.of_ite_left h
  split at h
  · rename_i text htext
    obtain ⟨rfl,rfl⟩:=Prod.mk.inj (Except.ok.inj h)
    have hutf8:=Bincode.utf8_fromUTF8 htext
    have hsize : text.utf8ByteSize=ofLeBytes (b.take 2) := by
      rw [← Bincode.utf8_length,hutf8,length_take]
      omega
    have htwo : (b.take 2).length=2 := by
      rw [length_take]
      omega
    have hle : leBytes 2 (ofLeBytes (b.take 2))=b.take 2 := by
      have hback:=Bincode.leBytes_ofLeBytes (b.take 2)
      rw [htwo] at hback
      exact hback
    refine ⟨?_,by omega⟩
    rw [hsize,hle,hutf8,append_assoc,take_append_drop,take_append_drop]
  · contradiction

theorem putString_within (hsize : value.utf8ByteSize ≤ max)
    (hmax : what="key" ∧ max=maxKey ∨ what="endpoint" ∧ max=maxEndpoint) :
    putString value what=.ok (leBytes 2 value.utf8ByteSize++utf8 value) := by
  have hkey : maxKey=4096 := rfl
  have hendpoint : maxEndpoint=2048 := rfl
  unfold putString
  rcases hmax with ⟨rfl,rfl⟩ | ⟨rfl,rfl⟩
  · rw [if_neg (by simp; omega),if_neg (by simp),if_neg (by omega)]
  · rw [if_neg (by simp),if_neg (by simp; omega),if_neg (by omega)]

theorem putString_read (h : readString what max b=.ok (value,rest))
    (hmax : what="key" ∧ max=maxKey ∨ what="endpoint" ∧ max=maxEndpoint) :
    ∃ front, putString value what=.ok front ∧ b=front++rest := by
  obtain ⟨heq,hsize⟩:=readString_ok h
  exact ⟨_,putString_within hsize hmax,heq⟩

theorem putStrings_read {n : ℕ} (h : readStrings "endpoint" maxEndpoint n b=.ok (values,rest)) :
    values.length=n ∧ ∃ front, putStrings "endpoint" values=.ok front ∧ b=front++rest := by
  induction n generalizing b values with
  | zero =>
    cases h
    exact ⟨rfl,[],rfl,rfl⟩
  | succ n ih =>
    obtain ⟨⟨value,after⟩,hvalue,h⟩:=bind_eq_ok.mp h
    obtain ⟨⟨others,last⟩,hothers,h⟩:=bind_eq_ok.mp h
    cases h
    obtain ⟨front,hfront,rfl⟩:=putString_read hvalue (.inr ⟨rfl,rfl⟩)
    obtain ⟨hlen,more,hmore,rfl⟩:=ih hothers
    refine ⟨by rw [List.length_cons,hlen],front++more,?_,by rw [append_assoc]⟩
    rw [putStrings,hfront,hmore]
    rfl

theorem version_read {n : ℕ} (h : readVersion b=.ok n) : b=leBytes 8 n ∧ n<2^64 := by
  unfold readVersion at h
  obtain ⟨-,h⟩:=Except.of_ite_left h
  obtain ⟨hlen,h⟩:=Except.of_ite_left h
  cases h
  have hback:=Bincode.leBytes_ofLeBytes b
  have hlt:=Bincode.ofLeBytes_lt b
  rw [not_not.mp hlen] at hback hlt
  exact ⟨hback.symm,by omega⟩

theorem entry_read {entry : DirEntry} (h : readEntry b=.ok (entry,rest)) :
    entry.version<2^64 ∧ ∃ front, putEntry entry=.ok front ∧ b=front++rest := by
  unfold readEntry at h
  obtain ⟨hlen,h⟩:=Except.of_ite_left h
  obtain ⟨httl,h⟩:=Except.of_ite_left h
  obtain ⟨hcount,h⟩:=Except.of_ite_left h
  obtain ⟨⟨endpoints,after⟩,hendpoints,h⟩:=bind_eq_ok.mp h
  cases h
  obtain ⟨hnumber,front,hfront,hdrop⟩:=putStrings_read hendpoints
  have hpiece (i k : ℕ) (hfit : i+k≤b.length) : leBytes k (ofLeBytes ((b.drop i).take k))=(b.drop i).take k := by
    have hsize : ((b.drop i).take k).length=k := by
      rw [length_take,List.length_drop]
      omega
    have hback:=Bincode.leBytes_ofLeBytes ((b.drop i).take k)
    rw [hsize] at hback
    exact hback
  have h8:=hpiece 0 8 (by omega)
  have h4:=hpiece 8 4 (by omega)
  have h2:=hpiece 12 2 (by omega)
  rw [List.drop_zero] at h8
  have hversion : ofLeBytes (b.take 8)<2^64 := by
    have hlt:=Bincode.ofLeBytes_lt (b.take 8)
    have hsize : (b.take 8).length=8 := by
      rw [length_take]
      omega
    rw [hsize] at hlt
    omega
  refine ⟨hversion,b.take 8++((b.drop 8).take 4++((b.drop 12).take 2++front)),?_,?_⟩
  · unfold putEntry
    simp only
    rw [if_neg httl,if_neg (by simp only [maxEndpoints] at hcount; omega),if_neg (by omega),hfront,hnumber,h8,h4,h2]
    rfl
  · have h14 : b.drop 14=(b.drop 12).drop 2 := by rw [drop_drop]
    have h12 : b.drop 12=(b.drop 8).drop 4 := by rw [drop_drop]
    simp only [append_assoc]
    rw [← hdrop,h14,take_append_drop,h12,take_append_drop,take_append_drop]

end Parrot.Resolve
