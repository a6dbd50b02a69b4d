import Parrot.Resolve.Payload

/-! # The resolve codecs with the bounds of each access (`resolve.rs:51-228`)

The decoders walk over the payload with an offset. -/

namespace Parrot.Resolve
open List (length_drop append_nil)
open Machine (Panic index slice checkedAdd bind_eq_ok index_ok slice_ok checkedAdd_eq_some isizeMax u64Max)
open Bincode (Bytes leBytes ofLeBytes utf8)
open Directory (DirEntry)

inductive Fault where
  | panic (p : Panic)
  | refused (e : Error)

variable {α β : Type}

def guarded (x : Except Panic α) : Except Fault α := x.mapError .panic
def refuse (x : Except Error α) : Except Fault α := x.mapError .refused

def readStringAt (input : Bytes) (offset : ℕ) (what : String) (max : ℕ) : Except Fault (String × ℕ) :=
  match checkedAdd offset 2 with
  | none => .error (.refused .truncated)
  | some endLen =>
    if endLen>input.length then .error (.refused .truncated)
    else do
      let b0 ← guarded (index input offset)
      let b1 ← guarded (index input (offset+1))
      if ofLeBytes [b0,b1]>max then .error (.refused (.length what))
      else
        match checkedAdd endLen (ofLeBytes [b0,b1]) with
        | none => .error (.refused .truncated)
        | some stop =>
          if stop>input.length then .error (.refused .truncated)
          else do
            let bytes ← guarded (slice input endLen stop)
            match String.fromUTF8? ⟨bytes.toArray⟩ with
            | some value => .ok (value,stop)
            | none => .error (.refused .utf8)

/-- `k` bytes from the offset on, least significant first. -/
def readLeAt (input : Bytes) (offset k : ℕ) : Except Fault ℕ := do
  let bytes ← guarded (slice input offset (offset+k))
  return ofLeBytes bytes

def readVersionAt (input : Bytes) (offset : ℕ) : Except Fault ℕ :=
  match checkedAdd offset 8 with
  | none => .error (.refused .truncated)
  | some stop =>
    if stop>input.length then .error (.refused .truncated)
    else do
      let version ← readLeAt input offset 8
      if stop≠input.length then .error (.refused .trailing) else return version

def wrongVersion (input : Bytes) : Except Fault Unit :=
  if input.isEmpty then .error (.refused .truncated)
  else do
    let v ← guarded (index input 0)
    .error (.refused (.version v))

/-- The two bytes in front of a lookup and of a response. -/
def headerAt (input : Bytes) : Except Fault Unit :=
  if input.length<2 then wrongVersion input
  else do
    let v ← guarded (index input 0)
    if v≠version then wrongVersion input else return ()

def decodeQueryAt (input : Bytes) : Except Fault Query := do
  refuse (checkLen input.length)
  headerAt input
  let flags ← guarded (index input 1)
  if flags≠0 then .error (.refused (.length "query flags"))
  else do
    let (key,offset) ← readStringAt input 2 "key" maxKey
    let minVersion ← readVersionAt input offset
    return ⟨key,minVersion⟩

def readStringsAt (input : Bytes) : ℕ → ℕ → Except Fault (List String × ℕ)
  | 0,offset => .ok ([],offset)
  | count+1,offset => do
    let (value,offset) ← readStringAt input offset "endpoint" maxEndpoint
    let (values,offset) ← readStringsAt input count offset
    return (value::values,offset)

def readEntryAt (input : Bytes) (offset : ℕ) : Except Fault (DirEntry × ℕ) :=
  match checkedAdd offset (8+4+2) with
  | none => .error (.refused .truncated)
  | some fixed =>
    if fixed>input.length then .error (.refused .truncated)
    else do
      let version ← readLeAt input offset 8
      let ttlS ← readLeAt input (offset+8) 4
      if ttlS>maxTtlS then .error (.refused (.length "ttl"))
      else do
        let count ← readLeAt input (offset+8+4) 2
        if count>maxEndpoints then .error (.refused (.length "endpoints"))
        else do
          let (endpoints,offset) ← readStringsAt input count (offset+8+4+2)
          return (⟨endpoints,version,ttlS⟩,offset)

def decodeResponseAt (input : Bytes) : Except Fault Response := do
  refuse (checkLen input.length)
  headerAt input
  let status ← guarded (index input 1)
  if status>1 then .error (.refused (.length "response status"))
  else do
    let (key,offset) ← readStringAt input 2 "key" maxKey
    let (entry,offset) ← if status=0 then .ok (none,offset) else
      (readEntryAt input offset).map fun r => (some r.1,r.2)
    if offset≠input.length then .error (.refused .trailing) else return ⟨key,entry⟩

def decodeInvalidateAt (input : Bytes) : Except Fault Invalidate := do
  refuse (checkLen input.length)
  if input.head? ≠ some version then
    match input.head? with
    | some v => .error (.refused (.version v))
    | none => .error (.refused .truncated)
  else do
    let (key,offset) ← readStringAt input 1 "key" maxKey
    let version ← readVersionAt input offset
    return ⟨key,version⟩

@[simp] theorem guarded_ok (a : α) : guarded (.ok a)=.ok a := rfl
@[simp] theorem refuse_ok (a : α) : refuse (.ok a)=.ok a := rfl
@[simp] theorem refuse_error (e : Error) : (refuse (.error e) : Except Fault α)=.error (.refused e) := rfl

/-- The walk over `input` and the reader from the front answer alike, and the offset is what was
consumed. -/
def Agrees (input : Bytes) (x : Except Fault (α × ℕ)) : Except Error (α × Bytes) → Prop
  | .error e => x=.error (.refused e)
  | .ok (a,rest) => ∃ offset ≤ input.length, x=.ok (a,offset) ∧ rest=input.drop offset

variable {input : Bytes} {offset : ℕ}

theorem Agrees.bind {x : Except Fault (α × ℕ)} {y : Except Error (α × Bytes)} {f : α × ℕ → Except Fault β}
    {g : α × Bytes → Except Error β} (h : Agrees input x y) (hnext : ∀ a, ∀ offset ≤ input.length,
    f (a,offset)=refuse (g (a,input.drop offset))) : (x >>= f)=refuse (y >>= g) := by
  cases y with
  | error e =>
    have hx : x=.error (.refused e) := h
    rw [hx]
    rfl
  | ok r =>
    obtain ⟨stop,hstop,hx,hrest⟩:=h
    rw [hx]
    have hr : r=(r.1,input.drop stop) := by rw [← hrest]
    rw [hr]
    exact hnext r.1 stop hstop

theorem Agrees.bind_agrees {x : Except Fault (α × ℕ)} {y : Except Error (α × Bytes)} {f : α × ℕ → Except Fault (β × ℕ)}
    {g : α × Bytes → Except Error (β × Bytes)} (h : Agrees input x y)
    (hnext : ∀ a, ∀ offset ≤ input.length, Agrees input (f (a,offset)) (g (a,input.drop offset))) :
    Agrees input (x >>= f) (y >>= g) := by
  cases y with
  | error e =>
    have hx : x=.error (.refused e) := h
    rw [hx]
    rfl
  | ok r =>
    obtain ⟨stop,hstop,hx,hrest⟩:=h
    rw [hx]
    have hr : r=(r.1,input.drop stop) := by rw [← hrest]
    rw [hr]
    exact hnext r.1 stop hstop

theorem index_head {x : UInt8} (h : input[offset]? = some x) : guarded (index input offset)=.ok x := by
  rw [index_ok h,guarded_ok]

theorem slice_drop {k : ℕ} (h : offset+k ≤ input.length) :
    guarded (slice input offset (offset+k))=.ok ((input.drop offset).take k) := by
  rw [slice_ok (Nat.le_add_right offset k) h,guarded_ok,List.drop_take,Nat.add_sub_cancel_left]

theorem readLeAt_eq {k : ℕ} (h : offset+k ≤ input.length) :
    readLeAt input offset k=.ok (ofLeBytes ((input.drop offset).take k)) := by
  unfold readLeAt
  rw [slice_drop h]
  rfl

theorem checkedAdd_small {a b : ℕ} (h : a+b ≤ isizeMax+isizeMax) : checkedAdd a b=some (a+b) := by
  refine checkedAdd_eq_some.mpr ⟨rfl,?_⟩
  simp only [isizeMax] at h
  simp only [u64Max]
  omega

section
variable (hlen : input.length ≤ isizeMax)
include hlen

section
variable (hoffset : offset ≤ input.length)
include hoffset

theorem readStringAt_agrees (what : String) (max : ℕ) :
    Agrees input (readStringAt input offset what max) (readString what max (input.drop offset)) := by
  have hbig : 65536 ≤ isizeMax := by decide
  unfold readStringAt readString
  rw [checkedAdd_small (by omega)]
  simp only [length_drop]
  by_cases htwo : offset+2>input.length
  · rw [if_pos htwo,if_pos (by omega)]
    rfl
  · obtain ⟨b0,b1,rest,hrest⟩ : ∃ b0 b1 rest, input.drop offset=b0::b1::rest := by
      have hdrop : (input.drop offset).length=input.length-offset := length_drop
      rcases hcase : input.drop offset with _ | ⟨b0,_ | ⟨b1,rest⟩⟩
      · rw [hcase,List.length_nil] at hdrop
        omega
      · rw [hcase,List.length_singleton] at hdrop
        omega
      · exact ⟨b0,b1,rest,rfl⟩
    have h0 : input[offset]? = some b0 := by
      have hget : (input.drop offset)[0]? = input[offset+0]? := List.getElem?_drop
      rw [hrest] at hget
      simpa using hget.symm
    have h1 : input[offset+1]? = some b1 := by
      have hget : (input.drop offset)[1]? = input[offset+1]? := List.getElem?_drop
      rw [hrest] at hget
      simpa using hget.symm
    have htake : (input.drop offset).take 2=[b0,b1] := by rw [hrest]; rfl
    have hlarge : ofLeBytes [b0,b1]<256^2 := Bincode.ofLeBytes_lt [b0,b1]
    rw [if_neg htwo,if_neg (by omega),index_head h0,index_head h1,htake]
    simp only [bind,Except.bind]
    by_cases hmax : ofLeBytes [b0,b1]>max
    · rw [if_pos hmax,if_pos hmax]
      rfl
    · rw [if_neg hmax,if_neg hmax,checkedAdd_small (by omega)]
      simp only [List.drop_drop]
      by_cases hroom : offset+2+ofLeBytes [b0,b1]>input.length
      · rw [if_pos hroom,if_pos (by omega)]
        rfl
      · rw [if_neg hroom,if_neg (by omega),slice_drop (Nat.not_lt.mp hroom)]
        simp only
        cases String.fromUTF8? ⟨((input.drop (offset+2)).take (ofLeBytes [b0,b1])).toArray⟩ with
        | none => rfl
        | some value => exact ⟨_,Nat.not_lt.mp hroom,rfl,rfl⟩

theorem readStringsAt_agrees {count : ℕ} :
    Agrees input (readStringsAt input count offset) (readStrings "endpoint" maxEndpoint count (input.drop offset)) := by
  induction count generalizing offset with
  | zero => exact ⟨offset,hoffset,rfl,rfl⟩
  | succ count ih =>
    refine (readStringAt_agrees hlen hoffset "endpoint" maxEndpoint).bind_agrees fun value next hnext => ?_
    refine (ih hnext).bind_agrees fun values last hlast => ?_
    exact ⟨last,hlast,rfl,rfl⟩

theorem readVersionAt_eq : readVersionAt input offset=refuse (readVersion (input.drop offset)) := by
  unfold readVersionAt readVersion
  rw [checkedAdd_small (by simp only [isizeMax] at hlen ⊢; omega),length_drop]
  simp only
  by_cases hroom : offset+8>input.length
  · rw [if_pos hroom,if_pos (by omega)]
    rfl
  · rw [if_neg hroom,if_neg (by omega),readLeAt_eq (Nat.not_lt.mp hroom)]
    simp only [bind,Except.bind]
    by_cases hstop : offset+8=input.length
    · have hwhole : (input.drop offset).take 8=input.drop offset := List.take_of_length_le (by rw [length_drop]; omega)
      rw [if_neg (not_not.mpr hstop),if_neg (by omega),hwhole]
      rfl
    · rw [if_pos hstop,if_pos (by omega)]
      rfl

theorem readEntryAt_agrees : Agrees input (readEntryAt input offset) (readEntry (input.drop offset)) := by
  unfold readEntryAt readEntry
  rw [checkedAdd_small (by simp only [isizeMax] at hlen ⊢; omega),length_drop]
  simp only
  by_cases hroom : offset+(8+4+2)>input.length
  · rw [if_pos hroom,if_pos (by omega)]
    rfl
  · rw [if_neg hroom,if_neg (by omega),readLeAt_eq (by omega),readLeAt_eq (by omega)]
    simp only [bind,Except.bind,List.drop_drop]
    by_cases httl : ofLeBytes ((input.drop (offset+8)).take 4)>maxTtlS
    · rw [if_pos httl,if_pos httl]
      rfl
    · rw [if_neg httl,if_neg httl,readLeAt_eq (by omega),Nat.add_assoc offset 8 4]
      simp only
      by_cases hcount : ofLeBytes ((input.drop (offset+12)).take 2)>maxEndpoints
      · rw [if_pos hcount,if_pos hcount]
        rfl
      · rw [if_neg hcount,if_neg hcount,Nat.add_assoc offset 12 2]
        refine (readStringsAt_agrees hlen (by omega)).bind_agrees fun endpoints last hlast => ?_
        exact ⟨last,hlast,rfl,rfl⟩

end

end

theorem checkLen_ok (h : checkLen input.length=.ok ()) : input.length ≤ maxPayload := by
  unfold checkLen at h
  split at h
  · contradiction
  · rename_i hle
    exact Nat.not_lt.mp hle

theorem short_enough (h : input.length ≤ maxPayload) : input.length ≤ isizeMax :=
  Nat.le_trans h (by decide)

theorem headerAt_version (flags : UInt8) (rest : Bytes) : headerAt (version::flags::rest)=.ok () := by
  simp [headerAt,index,bind,Except.bind,pure,Except.pure]

theorem headerAt_other {v : UInt8} (hv : v≠version) (flags : UInt8) (rest : Bytes) :
    headerAt (v::flags::rest)=.error (.refused (.version v)) := by
  simp [headerAt,wrongVersion,index,hv,bind,Except.bind]

theorem ending (hoffset : offset ≤ input.length) (a : α) :
    (if offset≠input.length then .error (.refused .trailing) else .ok a : Except Fault α) =
      refuse (if input.drop offset≠[] then .error .trailing else .ok a) := by
  by_cases hall : offset=input.length
  · simp [hall]
  · have hleft : input.drop offset≠[] := by
      intro hnil
      exact hall (Nat.le_antisymm hoffset (List.drop_eq_nil_iff.mp hnil))
    rw [if_pos hall,if_pos hleft]
    rfl

theorem decodeQueryAt_eq (input : Bytes) : decodeQueryAt input=refuse (decodeQuery input) := by
  unfold decodeQueryAt decodeQuery
  cases hlen : checkLen input.length with
  | error e => rfl
  | ok _ =>
    have hshort:=short_enough (checkLen_ok hlen)
    rcases input with _ | ⟨v,_ | ⟨flags,rest⟩⟩
    · rfl
    · rfl
    · by_cases hv : v=version
      · subst hv
        simp only [bind,Except.bind,refuse_ok,headerAt_version,index,List.getElem?_cons_succ,List.getElem?_cons_zero,
          guarded_ok,ne_eq,not_true_eq_false,if_false]
        by_cases hflags : flags=0
        · simp only [hflags,not_true_eq_false,if_false]
          subst hflags
          refine (readStringAt_agrees hshort (by simp) "key" maxKey).bind fun key offset hoffset => ?_
          simp only [readVersionAt_eq hshort hoffset]
          cases readVersion ((version::0::rest).drop offset) with
          | error | ok => rfl
        · simp [hflags]
      · simp [bind,Except.bind,headerAt_other hv,hv]

theorem decodeInvalidateAt_eq (input : Bytes) : decodeInvalidateAt input=refuse (decodeInvalidate input) := by
  unfold decodeInvalidateAt decodeInvalidate
  cases hlen : checkLen input.length with
  | error e => rfl
  | ok _ =>
    have hshort:=short_enough (checkLen_ok hlen)
    rcases input with _ | ⟨v,rest⟩
    · rfl
    · by_cases hv : v=version
      · subst hv
        simp only [bind,Except.bind,refuse_ok,List.head?_cons,ne_eq,not_true_eq_false,if_false]
        refine (readStringAt_agrees hshort (by simp) "key" maxKey).bind fun key offset hoffset => ?_
        simp only [readVersionAt_eq hshort hoffset]
        cases readVersion ((version::rest).drop offset) with
        | error | ok => rfl
      · simp [bind,Except.bind,hv]

theorem decodeResponseAt_eq (input : Bytes) : decodeResponseAt input=refuse (decodeResponse input) := by
  unfold decodeResponseAt decodeResponse
  cases hlen : checkLen input.length with
  | error e => rfl
  | ok _ =>
    have hshort:=short_enough (checkLen_ok hlen)
    rcases input with _ | ⟨v,_ | ⟨status,rest⟩⟩
    · rfl
    · rfl
    · by_cases hv : v=version
      · subst hv
        simp only [bind,Except.bind,refuse_ok,headerAt_version,index,List.getElem?_cons_succ,List.getElem?_cons_zero,
          guarded_ok,ne_eq,not_true_eq_false,if_false]
        by_cases hstatus : status>1
        · simp [hstatus]
        · rw [if_neg hstatus,if_neg hstatus]
          refine (readStringAt_agrees hshort (by simp) "key" maxKey).bind fun key offset hoffset => ?_
          by_cases hnone : status=0
          · simp only [hnone,if_true]
            subst hnone
            exact ending hoffset _
          · simp only [hnone,if_false]
            have hentry : Agrees (version::status::rest)
                ((readEntryAt (version::status::rest) offset).map fun r => (some r.1,r.2))
                ((readEntry ((version::status::rest).drop offset)).map fun r => (some r.1,r.2)) := by
              refine (readEntryAt_agrees hshort hoffset).bind_agrees fun entry last hlast => ?_
              exact ⟨last,hlast,rfl,rfl⟩
            exact hentry.bind fun entry last hlast => ending hlast _
      · simp [bind,Except.bind,headerAt_other hv,hv]

/-- A codec that reads back what it wrote, accepts nothing else, and stays inside the payload.
`Fits` says that the numbers of a value are machine numbers. -/
structure Exact (Fits : α → Prop) (encode : α → Except Error Bytes) (decode : Bytes → Except Fault α) : Prop where
  reads : ∀ a b, Fits a → encode a=.ok b → decode b=.ok a
  exact : ∀ b a, decode b=.ok a → Fits a ∧ encode a=.ok b
  unique : ∀ b b' a, decode b=.ok a → decode b'=.ok a → b=b'
  trailing : ∀ b a more, decode b=.ok a → more≠[] → ∃ e, decode (b++more)=.error (.refused e)
  inside : ∀ b p, decode b ≠ .error (.panic p)

theorem refuse_ne_panic (x : Except Error α) (p : Panic) : refuse x ≠ .error (.panic p) := by
  cases x with
  | error | ok => simp

theorem refuse_eq_ok {x : Except Error α} {a : α} : refuse x=.ok a ↔ x=.ok a := by
  cases x with
  | error | ok => simp

theorem exact_of {Fits : α → Prop} {encode : α → Except Error Bytes} {decode : Bytes → Except Error α}
    {decodeAt : Bytes → Except Fault α} (heq : ∀ b, decodeAt b=refuse (decode b))
    (hchecked : ∀ a b, encode a=.ok b → checkLen b.length=.ok ())
    (happend : ∀ a b more, Fits a → encode a=.ok b → checkLen (b++more).length=.ok () →
      decode (b++more)=if more=[] then .ok a else .error .trailing)
    (hlong : ∀ b e, checkLen b.length=.error e → decode b=.error e)
    (hexact : ∀ b a, decode b=.ok a → Fits a ∧ encode a=.ok b) : Exact Fits encode decodeAt where
  reads a b hfits h := by
    have hread:=happend a b [] hfits h (by rw [append_nil]; exact hchecked a b h)
    rw [append_nil,if_pos rfl] at hread
    rw [heq,hread,refuse_ok]
  exact b a h := by
    rw [heq,refuse_eq_ok] at h
    exact hexact b a h
  unique b b' a h h' := by
    rw [heq,refuse_eq_ok] at h h'
    exact Except.ok.inj ((hexact b a h).2.symm.trans (hexact b' a h').2)
  trailing b a more h hmore := by
    rw [heq,refuse_eq_ok] at h
    obtain ⟨hfits,hencode⟩:=hexact b a h
    rw [heq]
    cases hlen : checkLen (b++more).length with
    | error e => exact ⟨e,by rw [hlong _ e hlen,refuse_error]⟩
    | ok _ => exact ⟨.trailing,by rw [happend a b more hfits hencode hlen,if_neg hmore,refuse_error]⟩
  inside b p := by
    rw [heq]
    exact refuse_ne_panic _ p

theorem encodeQuery_decode {query : Query} (h : decodeQuery input=.ok query) :
    query.minVersion<2^64 ∧ encodeQuery query=.ok input := by
  obtain ⟨_,hlen,h⟩:=bind_eq_ok.mp h
  rcases input with _ | ⟨v,_ | ⟨flags,rest⟩⟩
  · contradiction
  · contradiction
  · by_cases hv : v=version
    · by_cases hflags : flags=0
      · simp only [hv,hflags,ne_eq,not_true_eq_false,if_false] at h
        obtain ⟨⟨key,after⟩,hkey,h⟩:=bind_eq_ok.mp h
        obtain ⟨n,hn,h⟩:=bind_eq_ok.mp h
        cases h
        obtain ⟨front,hput,rfl⟩:=putString_read hkey (.inl ⟨rfl,rfl⟩)
        obtain ⟨rfl,hlt⟩:=version_read hn
        subst hv hflags
        exact ⟨hlt,bind_eq_ok.mpr ⟨front,hput,bind_eq_ok.mpr ⟨(),hlen,rfl⟩⟩⟩
      · simp [hv,hflags] at h
    · simp [hv] at h

theorem encodeInvalidate_decode {value : Invalidate} (h : decodeInvalidate input=.ok value) :
    value.version<2^64 ∧ encodeInvalidate value=.ok input := by
  obtain ⟨_,hlen,h⟩:=bind_eq_ok.mp h
  rcases input with _ | ⟨v,rest⟩
  · contradiction
  · by_cases hv : v=version
    · simp only [hv,ne_eq,not_true_eq_false,if_false] at h
      obtain ⟨⟨key,after⟩,hkey,h⟩:=bind_eq_ok.mp h
      obtain ⟨n,hn,h⟩:=bind_eq_ok.mp h
      cases h
      obtain ⟨front,hput,rfl⟩:=putString_read hkey (.inl ⟨rfl,rfl⟩)
      obtain ⟨rfl,hlt⟩:=version_read hn
      subst hv
      exact ⟨hlt,bind_eq_ok.mpr ⟨front,hput,bind_eq_ok.mpr ⟨(),hlen,rfl⟩⟩⟩
    · simp [hv] at h

theorem ended {rest : Bytes} {a r : α}
    (h : (if rest≠[] then .error .trailing else .ok a : Except Error α)=.ok r) : rest=[] ∧ a=r := by
  by_cases hrest : rest=[]
  · rw [if_neg (not_not.mpr hrest)] at h
    exact ⟨hrest,Except.ok.inj h⟩
  · rw [if_pos hrest] at h
    contradiction

theorem encodeResponse_decode {response : Response} (h : decodeResponse input=.ok response) :
    (∀ entry, response.entry=some entry → entry.version<2^64) ∧ encodeResponse response=.ok input := by
  obtain ⟨_,hlen,h⟩:=bind_eq_ok.mp h
  rcases input with _ | ⟨v,_ | ⟨status,rest⟩⟩
  · contradiction
  · contradiction
  · by_cases hv : v=version
    · simp only [hv,ne_eq,not_true_eq_false,if_false] at h
      by_cases hstatus : status>1
      · simp [hstatus] at h
      · rw [if_neg hstatus] at h
        obtain ⟨⟨key,after⟩,hkey,hbody⟩:=bind_eq_ok.mp h
        obtain ⟨front,hput,rfl⟩:=putString_read hkey (.inl ⟨rfl,rfl⟩)
        subst hv
        by_cases hnone : status=0
        · rw [if_pos hnone] at hbody
          obtain ⟨rfl,rfl⟩:=ended hbody
          subst hnone
          exact ⟨by simp,bind_eq_ok.mpr ⟨front,hput,bind_eq_ok.mpr ⟨[],rfl,bind_eq_ok.mpr ⟨(),hlen,rfl⟩⟩⟩⟩
        · rw [if_neg hnone] at hbody
          obtain ⟨⟨entry,last⟩,hentry,hend⟩:=bind_eq_ok.mp hbody
          obtain ⟨rfl,rfl⟩:=ended hend
          cases hread : readEntry after with
          | error e => simp [hread,Except.map] at hentry
          | ok r =>
            obtain ⟨r,left⟩:=r
            rw [hread] at hentry
            cases hentry
            obtain ⟨hversion,more,hmore,rfl⟩:=entry_read hread
            have hone : status=1 := by
              have hle : status.toNat≤1 := Nat.not_lt.mp hstatus
              have hpos : status.toNat≠0 := fun h => hnone (UInt8.toNat_inj.mp h)
              exact UInt8.toNat_inj.mp (Nat.le_antisymm hle (Nat.pos_of_ne_zero hpos))
            subst hone
            rw [append_nil] at hlen
            refine ⟨?_,bind_eq_ok.mpr ⟨front,hput,bind_eq_ok.mpr ⟨more,hmore,bind_eq_ok.mpr ⟨(),hlen,?_⟩⟩⟩⟩
            · intro entry hsome
              rw [← Option.some.inj hsome]
              exact hversion
            · rw [append_nil]
              rfl
    · simp [hv] at h

theorem encodeQuery_checked {query : Query} {b : Bytes} (h : encodeQuery query=.ok b) : checkLen b.length=.ok () := by
  obtain ⟨key,-,h⟩:=bind_eq_ok.mp h
  obtain ⟨_,hlen,h⟩:=bind_eq_ok.mp h
  cases h
  exact hlen

theorem encodeInvalidate_checked {value : Invalidate} {b : Bytes} (h : encodeInvalidate value=.ok b) :
    checkLen b.length=.ok () := by
  obtain ⟨key,-,h⟩:=bind_eq_ok.mp h
  obtain ⟨_,hlen,h⟩:=bind_eq_ok.mp h
  cases h
  exact hlen

theorem encodeResponse_checked {response : Response} {b : Bytes} (h : encodeResponse response=.ok b) :
    checkLen b.length=.ok () := by
  obtain ⟨key,-,h⟩:=bind_eq_ok.mp h
  obtain ⟨entry,-,h⟩:=bind_eq_ok.mp h
  obtain ⟨_,hlen,h⟩:=bind_eq_ok.mp h
  cases h
  exact hlen

/-- The three codecs of the resolve payloads are exact. -/
theorem resolve_codecs : Exact (fun query : Query => query.minVersion<2^64) encodeQuery decodeQueryAt ∧
    Exact (fun response : Response => ∀ entry, response.entry=some entry → entry.version<2^64) encodeResponse
    decodeResponseAt ∧ Exact (fun value : Invalidate => value.version<2^64) encodeInvalidate decodeInvalidateAt := by
  refine ⟨?_,?_,?_⟩
  · refine exact_of decodeQueryAt_eq (fun _ _ => encodeQuery_checked) (fun _ _ _ => decodeQuery_append) ?_
      (fun _ _ => encodeQuery_decode)
    intro b e h
    unfold decodeQuery
    rw [h]
    rfl
  · refine exact_of decodeResponseAt_eq (fun _ _ => encodeResponse_checked) (fun _ _ _ => decodeResponse_append) ?_
      (fun _ _ => encodeResponse_decode)
    intro b e h
    unfold decodeResponse
    rw [h]
    rfl
  · refine exact_of decodeInvalidateAt_eq (fun _ _ => encodeInvalidate_checked)
      (fun _ _ _ => decodeInvalidate_append) ?_ (fun _ _ => encodeInvalidate_decode)
    intro b e h
    unfold decodeInvalidate
    rw [h]
    rfl

end Parrot.Resolve
