import Parrot.Lib.Bincode

/-! # Framed records

A record on disk is its length, a checksum and its body. A prefix of a sequence
of frames is a shorter sequence of frames and a torn rest, and the reader can
tell the rest from a frame. -/

namespace Frames
open Bincode (Bytes leBytes ofLeBytes)

section frames
variable (check : Bytes → ℕ) (max : ℕ)

def frame (body : Bytes) : Bytes := leBytes 4 body.length++(leBytes 4 (check body)++body)

/-- What a reader meets at the front of its input. -/
inductive Head where
  | done
  | torn
  | badLength (size : ℕ)
  | badCheck
  | frame (body rest : Bytes)

def head (bytes : Bytes) : Head :=
  if bytes=[] then .done
  else if bytes.length<8 then .torn
  else
    let size:=ofLeBytes (bytes.take 4)
    if size=0 ∨ size>max then .badLength size
    else if size>bytes.length-8 then .torn
    else
      let body:=(bytes.drop 8).take size
      if check body≠ofLeBytes ((bytes.drop 4).take 4) then .badCheck
      else .frame body (bytes.drop (8+size))

structure Valid (body : Bytes) : Prop where
  pos : 0<body.length
  le_max : body.length ≤ max
  length_lt : body.length<256^4
  check_lt : check body<256^4

def Torn (t : Bytes) : Prop :=
  t=[] ∨ ∃ body n, Valid check max body ∧ n<(frame check body).length ∧ t=(frame check body).take n

variable (bodies : List Bytes)

def frames : Bytes := (bodies.map (frame check)).flatten

variable {check max}

@[simp] theorem frame_length (body : Bytes) : (frame check body).length=8+body.length := by
  simp only [frame,List.length_append,Bincode.leBytes_length]
  omega

@[simp] theorem frames_nil : frames check []=[] := rfl

@[simp] theorem frames_cons (body : Bytes) (bodies : List Bytes) :
    frames check (body::bodies)=frame check body++frames check bodies := rfl

@[simp] theorem frames_append (xs ys : List Bytes) : frames check (xs++ys)=frames check xs++frames check ys := by
  simp [frames]

theorem frame_header (check : Bytes → ℕ) (body : Bytes) {n : ℕ} (h : 8≤n) :
    ((frame check body).take n).take 4=leBytes 4 body.length ∧ (((frame check body).take n).drop 4).take 4=leBytes 4
    (check body) ∧ ((frame check body).take n).drop 8=body.take (n-8) := by
  have h4 : (leBytes 4 body.length).length=4 := Bincode.leBytes_length ..
  have h4' : (leBytes 4 (check body)).length=4 := Bincode.leBytes_length ..
  have hsplit : (frame check body).take n=leBytes 4 body.length++(leBytes 4 (check body)++body.take (n-8)) := by
    rw [frame,List.take_append,List.take_of_length_le (by omega),List.take_append,
      List.take_of_length_le (by omega),h4,h4',Nat.sub_sub]
  rw [hsplit]
  refine ⟨List.take_left' h4,?_,?_⟩
  · rw [List.drop_left' h4,List.take_left' h4']
  · rw [← List.append_assoc,List.drop_left' (by simp)]

theorem head_frame {body : Bytes} (hv : Valid check max body) (rest : Bytes) :
    head check max (frame check body++rest)=.frame body rest := by
  have hlen : (frame check body++rest).length=8+body.length+rest.length := by simp
  have htake : (frame check body).take (8+body.length)=frame check body := List.take_of_length_le (by simp)
  obtain ⟨h1,h2,h3⟩:=frame_header check body (n := 8+body.length) (by omega)
  rw [htake] at h1 h2 h3
  have h1' : (frame check body++rest).take 4=leBytes 4 body.length := by
    rw [List.take_append_of_le_length (by simp; omega)]
    exact h1
  have h2' : ((frame check body++rest).drop 4).take 4=leBytes 4 (check body) := by
    rw [List.drop_append_of_le_length (by simp; omega),List.take_append_of_le_length (by simp; omega)]
    exact h2
  have h3' : ((frame check body++rest).drop 8).take body.length=body := by
    rw [List.drop_append_of_le_length (by simp),h3,Nat.add_sub_cancel_left,List.take_length,List.take_left']
    rfl
  have hpos:=hv.pos
  have hle:=hv.le_max
  unfold head
  rw [if_neg (by intro h; rw [h] at hlen; simp at hlen; omega),if_neg (by omega)]
  dsimp only
  rw [h1',h2',Bincode.ofLeBytes_leBytes hv.length_lt,Bincode.ofLeBytes_leBytes hv.check_lt,
    if_neg (by omega),if_neg (by omega),h3',if_neg (by simp)]
  rw [List.drop_left' (by simp)]

theorem head_torn {t : Bytes} (ht : Torn check max t) (hne : t≠[]) : head check max t=.torn := by
  rcases ht with rfl | ⟨body,n,hv,hn,rfl⟩
  · contradiction
  · rw [frame_length] at hn
    have hlen : ((frame check body).take n).length=n := by
      rw [List.length_take,frame_length]
      omega
    unfold head
    rw [if_neg hne]
    by_cases h8 : n<8
    · rw [if_pos (by omega)]
    · obtain ⟨h1,-,-⟩:=frame_header check body (n := n) (by omega)
      have hpos:=hv.pos
      have hle:=hv.le_max
      rw [if_neg (by omega)]
      dsimp only
      rw [h1,Bincode.ofLeBytes_leBytes hv.length_lt,if_neg (by omega),if_pos (by omega)]

theorem head_done {bytes : Bytes} (h : head check max bytes=.done) : bytes=[] := by
  unfold head at h
  split at h
  · assumption
  · split at h
    · contradiction
    · dsimp only at h
      split at h
      · contradiction
      · split at h
        · contradiction
        · split at h
          · contradiction
          · contradiction

theorem head_frame_length {bytes body rest : Bytes} (h : head check max bytes=.frame body rest) :
    bytes.length=8+body.length+rest.length := by
  unfold head at h
  split at h
  · contradiction
  · split at h
    · contradiction
    · dsimp only at h
      split at h
      · contradiction
      · split at h
        · contradiction
        · split at h
          · contradiction
          · injection h with hbody hrest
            rw [← hbody,← hrest,List.length_take,List.length_drop,List.length_drop]
            omega

theorem frames_take_mono {m k : ℕ} (h : m≤k) :
    (frames check (bodies.take m)).length≤(frames check (bodies.take k)).length := by
  obtain ⟨r,hr⟩:=List.take_prefix_take_left (l := bodies) h
  rw [← hr,frames_append,List.length_append]
  omega

theorem take_frames (hv : ∀ b∈bodies, Valid check max b) (n : ℕ) : ∃ j t, j≤bodies.length ∧ Torn check max t ∧
    (frames check bodies).take n=frames check (bodies.take j)++t ∧ ∀ m≤bodies.length,
    (frames check (bodies.take m)).length≤n → m≤j := by
  induction bodies generalizing n with
  | nil => exact ⟨0,[],le_rfl,.inl rfl,by simp,fun m hm _ => hm⟩
  | cons b bodies ih =>
    by_cases hn : n<(frame check b).length
    · refine ⟨0,(frame check b).take n,Nat.zero_le _,.inr ⟨b,n,hv b (List.mem_cons_self ..),hn,rfl⟩,?_,?_⟩
      · rw [frames_cons,List.take_append_of_le_length (by omega)]
        rfl
      · intro m _ hlen
        cases m with
        | zero => exact Nat.le_refl 0
        | succ m =>
          rw [List.take_succ_cons,frames_cons,List.length_append] at hlen
          omega
    · obtain ⟨j,t,hj,ht,heq,hmono⟩:=ih (fun x hx => hv x (List.mem_cons_of_mem _ hx))
        (n-(frame check b).length)
      refine ⟨j+1,t,by simpa using hj,ht,?_,?_⟩
      · rw [frames_cons,List.take_append,List.take_of_length_le (by omega),heq,List.take_succ_cons,
          frames_cons,List.append_assoc]
      · intro m hm hlen
        cases m with
        | zero => exact Nat.zero_le _
        | succ m =>
          rw [List.take_succ_cons,frames_cons,List.length_append] at hlen
          exact Nat.succ_le_succ (hmono m (by simpa using hm) (by omega))

end frames
end Frames
