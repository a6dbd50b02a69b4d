import Mathlib.Data.List.Infix

/-! # Decoding a stream in chunks

A decoder looks at the bytes received so far and takes a value off the front, asks
for more or fails. Where each value's bytes are read as that value whatever follows
them, and as nothing while they are incomplete, the way a stream is cut into chunks
does not matter. -/

namespace StreamCodec

abbrev Bytes := List UInt8

variable {α ε : Type}

/-- One call: the answer, and what is left of the buffer. -/
abbrev Decoder (α ε : Type) := Bytes → Except ε (Option α) × Bytes

/-- Decode until more bytes are needed; `fuel` bounds the number of values. -/
def decodeAll (dec : Decoder α ε) : ℕ → Bytes → List α × Except ε Unit × Bytes
  | 0,buf => ([],.ok (),buf)
  | fuel+1,buf =>
    match dec buf with
    | (.ok (some a),rest) => (a::(decodeAll dec fuel rest).1,(decodeAll dec fuel rest).2)
    | (.ok none,rest) => ([],.ok (),rest)
    | (.error e,rest) => ([],.error e,rest)

/-- A reader that decodes all it can after each chunk. -/
def feed (dec : Decoder α ε) : Bytes → List Bytes → List α × Except ε Unit × Bytes
  | buf,[] => ([],.ok (),buf)
  | buf,chunk::chunks =>
    match decodeAll dec ((buf++chunk).length+1) (buf++chunk) with
    | (out,.ok (),rest) => (out++(feed dec rest chunks).1,(feed dec rest chunks).2)
    | (out,.error e,rest) => (out,.error e,rest)

structure Reads (dec : Decoder α ε) (a : α) (enc : Bytes) : Prop where
  pos : enc≠[]
  whole : ∀ tail, dec (enc++tail)=(.ok (some a),tail)
  part : ∀ p, p<+:enc → p≠enc → dec p=(.ok none,p)

def stream (values : List (α × Bytes)) : Bytes := (values.map Prod.snd).flatten

@[simp] theorem stream_nil : stream ([] : List (α × Bytes))=[] := rfl
@[simp] theorem stream_cons (v : α × Bytes) (values : List (α × Bytes)) :
    stream (v::values)=v.2++stream values := rfl
theorem stream_append (xs ys : List (α × Bytes)) : stream (xs++ys)=stream xs++stream ys := by
  simp [stream]

variable {dec : Decoder α ε} {values : List (α × Bytes)}

theorem decodeAll_stream {p : Bytes} (hp : dec p=(.ok none,p)) {fuel : ℕ} (h : ∀ v∈values, Reads dec v.1 v.2)
    (hfuel : values.length<fuel) : decodeAll dec fuel (stream values++p)=(values.map Prod.fst,.ok (),p) := by
  induction values generalizing fuel with
  | nil =>
    cases fuel with
    | zero => contradiction
    | succ fuel => simp only [decodeAll,stream_nil,List.nil_append,hp,List.map_nil]
  | cons v values ih =>
    cases fuel with
    | zero => contradiction
    | succ fuel =>
      have hv:=(h v (List.mem_cons_self ..)).whole (stream values++p)
      have hrest:=ih (fun w hw => h w (List.mem_cons_of_mem _ hw)) (Nat.lt_of_succ_lt_succ hfuel)
      simp only [decodeAll,stream_cons,List.append_assoc,hv,hrest,List.map_cons]

def Begun (p : Bytes) : List (α × Bytes) → Prop
  | [] => p=[]
  | v::_ => p<+:v.2 ∧ p≠v.2

theorem split_initial {b : Bytes} (hpos : ∀ v∈values, v.2≠[]) (hb : b<+:stream values) :
    ∃ pre post p, values=pre++post ∧ b=stream pre++p ∧ Begun p post := by
  induction values generalizing b with
  | nil => exact ⟨[],[],[],rfl,List.prefix_nil.mp hb,rfl⟩
  | cons v values ih =>
    rcases List.prefix_or_prefix_of_prefix hb (List.prefix_append v.2 (stream values)) with h | h
    · by_cases heq : b=v.2
      · obtain ⟨pre,post,p,hvalues,hb',hbegun⟩:=ih (b := []) (fun w hw => hpos w
          (List.mem_cons_of_mem _ hw)) (List.nil_prefix)
        refine ⟨v::pre,post,p,by rw [hvalues]; rfl,?_,hbegun⟩
        rw [stream_cons,List.append_assoc,← hb',List.append_nil,heq]
      · exact ⟨[],v::values,b,rfl,rfl,h,heq⟩
    · obtain ⟨b',rfl⟩:=h
      have hb' : b'<+:stream values := (List.prefix_append_right_inj _).mp hb
      obtain ⟨pre,post,p,hvalues,rfl,hbegun⟩:=ih (fun w hw => hpos w (List.mem_cons_of_mem _ hw)) hb'
      exact ⟨v::pre,post,p,by rw [hvalues]; rfl,by rw [stream_cons,List.append_assoc],hbegun⟩

theorem begun_none (hnil : dec []=(.ok none,[])) (h : ∀ v∈values, Reads dec v.1 v.2) {p : Bytes}
    (hp : Begun p values) : dec p=(.ok none,p) := by
  cases values with
  | nil =>
    rw [show p=[] from hp]
    exact hnil
  | cons v values => exact (h v (List.mem_cons_self ..)).part p hp.1 hp.2

theorem length_le_stream (h : ∀ v∈values, v.2≠[]) : values.length≤(stream values).length := by
  induction values with
  | nil => exact Nat.le_refl 0
  | cons v values ih =>
    have hv:=List.length_pos_of_ne_nil (h v (List.mem_cons_self ..))
    have hrest:=ih fun w hw => h w (List.mem_cons_of_mem _ hw)
    rw [stream_cons,List.length_append,List.length_cons]
    omega

theorem feed_stream (hnil : dec []=(.ok none,[])) (h : ∀ v∈values, Reads dec v.1 v.2)
    {buf : Bytes} {chunks : List Bytes} (hbuf : Begun buf values) (hsplit : buf++chunks.flatten=stream values) :
    feed dec buf chunks=(values.map Prod.fst,.ok (),[]) := by
  induction chunks generalizing buf values with
  | nil =>
    rw [List.flatten_nil,List.append_nil] at hsplit
    cases values with
    | nil =>
      rw [show buf=[] from hbuf]
      rfl
    | cons v values =>
      -- the beginning of a value is shorter than the value
      have hlen:=hbuf.1.length_le
      have hwhole:=congrArg List.length hsplit
      rw [stream_cons,List.length_append] at hwhole
      exact absurd (hbuf.1.eq_of_length (by omega)) hbuf.2
  | cons chunk chunks ih =>
    rw [List.flatten_cons,← List.append_assoc] at hsplit
    have hpos : ∀ v∈values, v.2≠[] := fun v hv => (h v hv).pos
    obtain ⟨pre,post,p,rfl,hb,hbegun⟩:=split_initial hpos ⟨chunks.flatten,hsplit⟩
    have hpre : ∀ v∈pre, Reads dec v.1 v.2 := fun v hv => h v (List.mem_append_left _ hv)
    have hpost : ∀ v∈post, Reads dec v.1 v.2 := fun v hv => h v (List.mem_append_right _ hv)
    have hfuel : pre.length<(stream pre++p).length+1 := by
      have:=length_le_stream fun v hv => (hpre v hv).pos
      rw [List.length_append]
      omega
    have hall:=decodeAll_stream (begun_none hnil hpost hbegun) hpre hfuel
    have hrest : p++chunks.flatten=stream post := by
      rw [hb,stream_append,List.append_assoc] at hsplit
      exact List.append_cancel_left hsplit
    have hnext:=ih hpost hbegun hrest
    simp only [feed]
    rw [hb,hall]
    dsimp only
    rw [hnext,List.map_append]

/-! ## Sessions with a decoder -/

section Sessions
variable {α β ε ε' : Type}

inductive Use where
  | feed (data : Bytes)
  | next

inductive Answer (α : Type) where
  | value (a : α)
  | more
  | failed

def Answer.map (f : α → β) : Answer α → Answer β
  | .value a => .value (f a)
  | .more => .more
  | .failed => .failed

def session (dec : Decoder α ε) : Bytes → List Use → List (Answer α)
  | _,[] => []
  | buf,.feed data::uses => session dec (buf++data) uses
  | buf,.next::uses =>
    match dec buf with
    | (.ok (some a),rest) => .value a::session dec rest uses
    | (.ok none,rest) => .more::session dec rest uses
    | (.error _,_) => [.failed]

structure Follows (f : α → β) (dec : Decoder α ε) (dec' : Decoder β ε') : Prop where
  answer : ∀ buf, (dec' buf).1.toOption=(dec buf).1.toOption.map (Option.map f)
  rest : ∀ buf, (dec' buf).2=(dec buf).2

variable {f : α → β} {dec : Decoder α ε} {dec' : Decoder β ε'}

theorem Follows.session (h : Follows f dec dec') (uses : List Use) (buf : Bytes) :
    session dec' buf uses=(session dec buf uses).map (Answer.map f) := by
  induction uses generalizing buf with
  | nil => simp [StreamCodec.session]
  | cons use uses ih =>
    cases use with
    | feed data => simpa [StreamCodec.session] using ih (buf++data)
    | next =>
      have hanswer:=h.answer buf
      have hrest:=h.rest buf
      simp only [StreamCodec.session]
      rcases hdec : dec buf with ⟨answer,rest⟩
      rcases hdec' : dec' buf with ⟨answer',rest'⟩
      rw [hdec,hdec'] at hanswer hrest
      dsimp only at hanswer hrest
      subst hrest
      cases answer with
      | error e =>
        cases answer' with
        | error e' => simp [Answer.map]
        | ok r => simp [Except.toOption] at hanswer
      | ok r =>
        cases answer' with
        | error e' => simp [Except.toOption] at hanswer
        | ok r' =>
          have heq : r'=r.map f := by simpa [Except.toOption] using hanswer
          subst heq
          cases r with
          | none | some => simp [Answer.map,ih]

end Sessions

end StreamCodec
