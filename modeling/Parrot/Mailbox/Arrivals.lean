import Mathlib.Algebra.Group.Nat.Defs
import Mathlib.Data.List.Nodup
import Mathlib.Data.List.Perm.Basic
import Mathlib.Data.List.Range
import Parrot.Mailbox.Mpsc

/-! # A mailbox is a list of arrivals

What the two lanes are for: one list in the order of arrival, from which urgent items are taken
first and the first arrival is given up when there is no room. -/

namespace Parrot.Mailbox
open List (length_cons range append_assoc perm_middle)

variable {α : Type}

structure Arrival (α : Type) where
  order : ℕ
  high : Bool
  item : MailboxItem α

/-- `held` is in the order of arrival; the other lists are history. -/
structure Arrivals (α : Type) where
  held : List (Arrival α)
  capacity : ℕ
  isSealed : Bool
  emptied : Bool
  closers : ℕ
  admitted : List (Arrival α)
  popped : List (Arrival α)
  evicted : List (Arrival α)
  disposed : List (Arrival α)

def normals (l : List (Arrival α)) : List (MailboxItem α) := (l.filter (!·.high)).map Arrival.item

def urgents (l : List (Arrival α)) : List (MailboxItem α) := (l.filter (·.high)).map Arrival.item

namespace Arrivals

def start (capacity : UInt64) : Arrivals α := ⟨[],max capacity.toNat 1,false,false,0,[],[],[],[]⟩

def append (a : Arrivals α) (high : Bool) (item : MailboxItem α) : Arrivals α :=
  let x:=⟨a.admitted.length,high,item⟩
  {a with held:=a.held++[x],admitted:=a.admitted++[x]}

def push (a : Arrivals α) (item : MailboxItem α) (strategy : BackpressureStrategy) (high : Bool) :
    Arrivals α × PushResult × Option (MailboxItem α) :=
  if a.isSealed then (a,.err .closed,none)
  else if a.held.length<a.capacity then (a.append high item,.ok,none)
  else
    match strategy with
    | .dropNewest => (a,.err (.dropped a.capacity),none)
    | .error => (a,.err (.full a.capacity),none)
    | .block => (a,.waiting,none)
    | .dropOldest =>
      let oldest:=a.held.head?
      let a:={a with held:=a.held.tail,evicted:=a.evicted++oldest.toList}
      (a.append high item,.ok,oldest.map Arrival.item)

def pop (a : Arrivals α) : Arrivals α × Option (MailboxItem α) :=
  match a.held.find? (·.high) with
  | some x => ({a with held:=a.held.eraseP (·.high),popped:=a.popped++[x]},some x.item)
  | none =>
    match a.held with
    | x::rest => ({a with held:=rest,popped:=a.popped++[x]},some x.item)
    | [] => (a,none)

def step (a : Arrivals α) : Op α → Arrivals α × Outcome α
  | .pushItem item strategy =>
    let (a,result,evicted):=a.push item strategy item.isHigh
    (a,.pushed result evicted)
  | .pushWithPriority envelope payload strategy high =>
    let (a,result,evicted):=a.push (.plain envelope payload) strategy high
    (a,.pushed result evicted)
  | .popItem =>
    let (a,item):=a.pop
    (a,.popped item)
  | .sealUp => ({a with isSealed:=true},.stored)
  | .close => ({a with isSealed:=true,closers:=a.closers+1},.stored)
  | .take =>
    if a.closers=0 then (a,.stored)
    else
      ({a with held:=[],emptied:=true,closers:=a.closers-1,disposed:=a.disposed++a.held},
        .disposed (normals a.held++urgents a.held))

def run (a : Arrivals α) : List (Op α) → Arrivals α × List (Outcome α)
  | [] => (a,[])
  | op::ops =>
    let (a,outcome):=a.step op
    let (a,outcomes):=a.run ops
    (a,outcome::outcomes)

end Arrivals

def frontiers (k : ℕ) : List (Arrival α) → List (UInt64 × MailboxItem α)
  | [] => []
  | x::l => if x.high then (UInt64.ofNat k,x.item)::frontiers k l else frontiers (k+1) l

variable {k : ℕ} {l : List (Arrival α)} {x : Arrival α}

theorem frontiers_high (h : x.high=true) : frontiers k (x::l)=(UInt64.ofNat k,x.item)::frontiers k l := by
  rw [frontiers,if_pos h]

theorem frontiers_normal (h : x.high=false) : frontiers k (x::l)=frontiers (k+1) l := by
  rw [frontiers,if_neg (by rw [h]; decide)]

theorem normals_high (h : x.high=true) : normals (x::l)=normals l := by
  simp [normals,h]

theorem normals_normal (h : x.high=false) : normals (x::l)=x.item::normals l := by
  simp [normals,h]

theorem normals_append (l m : List (Arrival α)) : normals (l++m)=normals l++normals m := by
  simp [normals]

theorem frontiers_append (k : ℕ) (l : List (Arrival α)) (x : Arrival α) :
    frontiers k (l++[x])=frontiers k l++if x.high then [(UInt64.ofNat (k+(normals l).length),x.item)] else [] := by
  induction l generalizing k with
  | nil => simp [frontiers,normals]
  | cons y l ih =>
    cases hy : y.high with
    | true =>
      rw [List.cons_append,frontiers_high hy,frontiers_high hy,normals_high hy,ih]
      rfl
    | false =>
      rw [List.cons_append,frontiers_normal hy,frontiers_normal hy,normals_normal hy,ih,length_cons,
        Nat.add_right_comm,Nat.add_assoc]

theorem frontiers_items (k : ℕ) (l : List (Arrival α)) : (frontiers k l).map Prod.snd=urgents l := by
  induction l generalizing k with
  | nil => rfl
  | cons x l ih =>
    cases hx : x.high with
    | true =>
      rw [frontiers_high hx,List.map_cons,ih]
      simp [urgents,hx]
    | false =>
      rw [frontiers_normal hx,ih]
      simp [urgents,hx]

theorem lanes_length (k : ℕ) (l : List (Arrival α)) : (normals l).length+(frontiers k l).length=l.length := by
  induction l generalizing k with
  | nil => rfl
  | cons x l ih =>
    cases hx : x.high with
    | true =>
      rw [frontiers_high hx,normals_high hx,length_cons,length_cons,← ih k]
      omega
    | false =>
      rw [frontiers_normal hx,normals_normal hx,length_cons,length_cons,← ih (k+1)]
      omega

theorem frontiers_bound {f : UInt64} {item : MailboxItem α} (h : (f,item)∈frontiers k l) :
    ∃ j≤(normals l).length, f=UInt64.ofNat (k+j) := by
  induction l generalizing k with
  | nil => contradiction
  | cons x l ih =>
    cases hx : x.high with
    | true =>
      rw [frontiers_high hx] at h
      rw [normals_high hx]
      rcases List.mem_cons.mp h with heq | h
      · exact ⟨0,Nat.zero_le _,congrArg Prod.fst heq⟩
      · exact ih h
    | false =>
      rw [frontiers_normal hx] at h
      obtain ⟨j,hj,hf⟩:=ih h
      refine ⟨j+1,?_,?_⟩
      · rw [normals_normal hx,length_cons]
        omega
      · rw [hf]
        congr 1
        omega

theorem frontiers_ahead (hx : x.high=false) (hsmall : (normals (x::l)).length<2^64) {f : UInt64}
    {item : MailboxItem α} (h : (f,item)∈frontiers k (x::l)) : f≠UInt64.ofNat k := by
  rw [frontiers_normal hx] at h
  obtain ⟨j,hj,rfl⟩:=frontiers_bound h
  rw [normals_normal hx,length_cons] at hsmall
  intro heq
  have hnat:=congrArg UInt64.toNat heq
  rw [UInt64.toNat_ofNat',UInt64.toNat_ofNat'] at hnat
  omega

theorem find_urgent (k : ℕ) (h : l.find? (·.high)=some x) :
    (∃ f, frontiers k l=(f,x.item)::frontiers k (l.eraseP (·.high))) ∧ normals (l.eraseP (·.high))=normals l := by
  induction l generalizing k with
  | nil => contradiction
  | cons y l ih =>
    cases hy : y.high with
    | true =>
      rw [List.find?_cons_of_pos hy] at h
      rw [List.eraseP_cons_of_pos hy,frontiers_high hy,normals_high hy,Option.some.inj h]
      exact ⟨⟨_,rfl⟩,rfl⟩
    | false =>
      have hnot : ¬ y.high=true := by rw [hy]; decide
      rw [List.find?_cons_of_neg hnot] at h
      obtain ⟨⟨f,hf⟩,hnormals⟩:=ih (k+1) h
      rw [List.eraseP_cons_of_neg hnot,frontiers_normal hy,frontiers_normal hy,normals_normal hy,normals_normal hy,
        hnormals]
      exact ⟨⟨f,hf⟩,rfl⟩

theorem find_none (k : ℕ) (h : l.find? (·.high)=none) : frontiers k l=[] := by
  have hnone:=List.find?_eq_none.mp h
  have hlen : (frontiers k l).map Prod.snd=[] := by
    rw [frontiers_items,urgents,List.filter_eq_nil_iff.mpr hnone]
    rfl
  exact List.map_eq_nil_iff.mp hlen

structure Shows (s : Mailroom α) (a : Arrivals α) : Prop where
  capacity : s.mailbox.capacity=a.capacity
  closers : s.closers=a.closers
  isClosed : s.mailbox.isClosed=a.isSealed
  receiver : s.mailbox.receiver=if a.emptied then none else some (normals a.held)
  highLane : ∃ k, s.mailbox.normalRemoved=UInt64.ofNat k ∧ s.mailbox.highLane=frontiers k a.held
  room : 1≤a.capacity ∧ a.capacity<2^64
  bounded : a.held.length≤a.capacity
  emptied : a.emptied=true → a.isSealed=true ∧ a.held=[]
  closing : 0<a.closers → a.isSealed=true

variable {s : Mailroom α} {a : Arrivals α}

theorem start_shows (capacity : UInt64) : Shows (.start capacity : Mailroom α) (.start capacity) where
  capacity := rfl
  closers := rfl
  isClosed := rfl
  receiver := rfl
  highLane := ⟨0,rfl,rfl⟩
  room := by
    have:=capacity.toNat_lt
    simp only [Arrivals.start]
    omega
  bounded := Nat.zero_le _
  emptied h := by contradiction
  closing h := by contradiction

theorem Shows.open_ (h : Shows s a) (hopen : a.isSealed=false) : a.emptied=false := by
  cases hemptied : a.emptied with
  | false => rfl
  | true =>
    have:=(h.emptied hemptied).1
    rw [hopen] at this
    contradiction

theorem Shows.length (h : Shows s a) : s.mailbox.normalLen+s.mailbox.highLane.length=a.held.length := by
  obtain ⟨k,-,hlane⟩:=h.highLane
  unfold MpscMailbox.normalLen
  rw [hlane,h.receiver]
  split
  · rename_i hemptied
    rw [(h.emptied hemptied).2]
    rfl
  · exact lanes_length k a.held

theorem append_shows (h : Shows s a) (hopen : a.isSealed=false) (hroom : a.held.length<a.capacity)
    (item : MailboxItem α) (strategy : BackpressureStrategy) (high : Bool) :
    Shows {s with mailbox:=(s.mailbox.insert item strategy high).1} (a.append high item) ∧
      (s.mailbox.insert item strategy high).2=.ok := by
  obtain ⟨k,hremoved,hlane⟩:=h.highLane
  have hemptied:=h.open_ hopen
  have hreceiver:=h.receiver
  rw [hemptied] at hreceiver
  have hreceiver : s.mailbox.receiver=some (normals a.held) := hreceiver
  have hbounded : (a.append high item).held.length≤a.capacity := by
    rw [Arrivals.append,List.length_append]
    exact hroom
  unfold MpscMailbox.insert
  cases high with
  | true =>
    refine ⟨⟨h.capacity,h.closers,h.isClosed,?_,⟨k,hremoved,?_⟩,h.room,hbounded,?_,h.closing⟩,rfl⟩
    · show s.mailbox.receiver=if a.emptied then none else some (normals (a.held++[_]))
      rw [hemptied,normals_append,hreceiver]
      simp [normals]
    · show s.mailbox.highLane++[(s.mailbox.normalRemoved+UInt64.ofNat s.mailbox.normalLen,item)]=frontiers k (a.held++[_])
      have hlen : s.mailbox.normalLen=(normals a.held).length := by
        rw [MpscMailbox.normalLen,hreceiver]
        rfl
      rw [frontiers_append,hlane,hremoved,hlen,UInt64.ofNat_add]
      rfl
    · intro hem
      rw [show (a.append true item).emptied=a.emptied from rfl,hemptied] at hem
      contradiction
  | false =>
    have hsmall : (normals a.held).length<s.mailbox.capacity := by
      have:=lanes_length k a.held
      rw [h.capacity]
      omega
    have hsend : s.mailbox.trySend item strategy =
        ({s.mailbox with receiver:=some (normals a.held++[item])},.ok) := by
      unfold MpscMailbox.trySend
      rw [hreceiver]
      exact if_pos hsmall
    simp only [Bool.false_eq_true,if_false,hsend]
    refine ⟨⟨h.capacity,h.closers,h.isClosed,?_,⟨k,hremoved,?_⟩,h.room,hbounded,?_,h.closing⟩,trivial⟩
    · show some _=if a.emptied then none else some (normals (a.held++[_]))
      rw [hemptied,normals_append]
      simp [normals]
    · show s.mailbox.highLane=frontiers k (a.held++[_])
      rw [frontiers_append,hlane]
      simp
    · intro hem
      rw [show (a.append false item).emptied=a.emptied from rfl,hemptied] at hem
      contradiction

variable {rest : List (Arrival α)}

section
variable (h : Shows s a)
include h

theorem removed_shows {k : ℕ} (mailbox : MpscMailbox α)
    (hheld : a.held=x::rest) (hopen : a.emptied=false) (hrest : mailbox.receiver=some (normals rest))
    (hremoved : mailbox.normalRemoved=UInt64.ofNat k) (hlane : mailbox.highLane=frontiers k rest)
    (hcap : mailbox.capacity=s.mailbox.capacity) (hclosed : mailbox.isClosed=s.mailbox.isClosed)
    (popped evicted : List (Arrival α)) : Shows {s with mailbox} {a with held:=rest, popped, evicted} where
  capacity := hcap.trans h.capacity
  closers := h.closers
  isClosed := hclosed.trans h.isClosed
  receiver := by
    show mailbox.receiver=if a.emptied then none else some (normals rest)
    rw [hopen,hrest]
    rfl
  highLane := ⟨k,hremoved,hlane⟩
  room := h.room
  bounded := by
    have:=h.bounded
    rw [hheld,length_cons] at this
    show rest.length≤a.capacity
    omega
  emptied hem := by
    have hem : a.emptied=true := hem
    rw [hopen] at hem
    contradiction
  closing := h.closing

theorem popNormal_shows (hheld : a.held=x::rest)
    (hx : x.high=false) (hopen : a.emptied=false) (popped evicted : List (Arrival α)) :
    Shows {s with mailbox:=s.mailbox.popNormal.1} {a with held:=rest, popped, evicted} ∧
      s.mailbox.popNormal.2=some x.item := by
  obtain ⟨k,hremoved,hlane⟩:=h.highLane
  have hreceiver : s.mailbox.receiver=some (x.item::normals rest) := by
    rw [h.receiver,hopen,hheld,normals_normal hx]
    rfl
  have hcount : s.mailbox.normalRemoved+1=UInt64.ofNat (k+1) := by
    rw [hremoved,UInt64.ofNat_add]
    rfl
  have hurgent : s.mailbox.highLane=frontiers (k+1) rest := by rw [hlane,hheld,frontiers_normal hx]
  unfold MpscMailbox.popNormal
  rw [hreceiver]
  let left:={s.mailbox with receiver:=some (normals rest),normalRemoved:=s.mailbox.normalRemoved+1}
  exact ⟨removed_shows h left hheld hopen rfl hcount hurgent rfl rfl popped evicted,rfl⟩

theorem evict_shows (hheld : a.held=x::rest)
    (hopen : a.emptied=false) (popped evicted : List (Arrival α)) :
    Shows {s with mailbox:=s.mailbox.evictOldest.1} {a with held:=rest, popped, evicted} ∧
      s.mailbox.evictOldest.2=some x.item := by
  obtain ⟨k,hremoved,hlane⟩:=h.highLane
  unfold MpscMailbox.evictOldest
  cases hx : x.high with
  | true =>
    have hfront : s.mailbox.highLane=(UInt64.ofNat k,x.item)::frontiers k rest := by
      rw [hlane,hheld,frontiers_high hx]
    have holdest : s.mailbox.highIsOldest=true := by
      rw [MpscMailbox.highIsOldest,hfront,hremoved]
      exact beq_self_eq_true _
    have hreceiver : s.mailbox.receiver=some (normals rest) := by
      rw [h.receiver,hopen,hheld,normals_high hx]
      rfl
    rw [if_pos holdest,hfront]
    let left:={s.mailbox with highLane:=frontiers k rest}
    exact ⟨removed_shows h left hheld hopen hreceiver hremoved rfl rfl rfl popped evicted,rfl⟩
  | false =>
    have hsmall : (normals (x::rest)).length<2^64 := by
      have hlen:=lanes_length k a.held
      have hbounded:=h.bounded
      have hroom:=h.room
      rw [← hheld]
      omega
    have holdest : ¬ s.mailbox.highIsOldest=true := by
      rw [MpscMailbox.highIsOldest,hlane,hheld,hremoved]
      cases hfirst : frontiers k (x::rest) with
      | nil => exact Bool.false_ne_true
      | cons entry lane =>
        have hmem : (entry.1,entry.2)∈frontiers k (x::rest) := by
          rw [hfirst]
          exact List.mem_cons_self ..
        exact fun heq => frontiers_ahead hx hsmall hmem (beq_iff_eq.mp heq)
    rw [if_neg holdest]
    exact popNormal_shows h hheld hx hopen popped evicted

theorem push_shows (item : MailboxItem α) (strategy : BackpressureStrategy) (high : Bool) :
    Shows {s with mailbox:=(s.mailbox.enqueue item strategy high).1} (a.push item strategy high).1 ∧
      (s.mailbox.enqueue item strategy high).2=(a.push item strategy high).2 := by
  unfold MpscMailbox.enqueue Arrivals.push
  rw [h.isClosed,h.length,h.capacity]
  by_cases hopen : a.isSealed=true
  · rw [if_pos hopen,if_pos hopen]
    exact ⟨h,rfl⟩
  · have hsealed : a.isSealed=false := Bool.not_eq_true _ ▸ hopen
    rw [if_neg hopen,if_neg hopen]
    by_cases hroom : a.held.length<a.capacity
    · obtain ⟨hshows,hok⟩:=append_shows h hsealed hroom item strategy high
      rw [if_neg (by omega),if_pos hroom]
      exact ⟨hshows,Prod.ext hok rfl⟩
    · rw [if_pos (by omega),if_neg hroom]
      cases strategy with
      | dropNewest | error | block => exact ⟨h,rfl⟩
      | dropOldest =>
        cases hheld : a.held with
        | nil =>
          have:=h.room
          rw [hheld,List.length_nil] at hroom
          omega
        | cons x rest =>
          have hless : rest.length<a.capacity := by
            have:=h.bounded
            rw [hheld,length_cons] at this
            omega
          obtain ⟨hshows,hitem⟩:=evict_shows h hheld (h.open_ hsealed) a.popped (a.evicted++[x])
          obtain ⟨hfinal,hok⟩:=append_shows hshows hsealed hless item .dropOldest high
          exact ⟨hfinal,Prod.ext hok hitem⟩

theorem pop_shows : Shows {s with mailbox:=s.mailbox.popItem.1} a.pop.1 ∧
    s.mailbox.popItem.2=a.pop.2 := by
  obtain ⟨k,hremoved,hlane⟩:=h.highLane
  unfold MpscMailbox.popItem Arrivals.pop
  cases hfind : a.held.find? (·.high) with
  | some x =>
    obtain ⟨⟨f,hf⟩,hnormals⟩:=find_urgent k hfind
    rw [hlane,hf]
    refine ⟨⟨h.capacity,h.closers,h.isClosed,?_,⟨k,hremoved,rfl⟩,h.room,?_,?_,h.closing⟩,rfl⟩
    · show s.mailbox.receiver=if a.emptied then none else some (normals (a.held.eraseP (·.high)))
      rw [hnormals]
      exact h.receiver
    · exact (List.eraseP_sublist.length_le).trans h.bounded
    · intro hem
      obtain ⟨hsealed,hnil⟩:=h.emptied hem
      rw [hnil] at hfind
      contradiction
  | none =>
    rw [hlane,find_none k hfind]
    cases hheld : a.held with
    | nil =>
      have hpop : s.mailbox.popNormal=(s.mailbox,none) := by
        have hreceiver:=h.receiver
        rw [hheld] at hreceiver
        unfold MpscMailbox.popNormal
        cases hem : a.emptied with
        | true | false =>
          rw [hem] at hreceiver
          rw [hreceiver]
          rfl
      simp only [hpop]
      exact ⟨h,trivial⟩
    | cons x rest =>
      have hopen : a.emptied=false := by
        cases hem : a.emptied with
        | false => rfl
        | true =>
          have hnil:=(h.emptied hem).2
          rw [hheld] at hnil
          contradiction
      have hx : x.high=false := by
        have hnone:=List.find?_eq_none.mp hfind x (by rw [hheld]; exact List.mem_cons_self ..)
        simpa using hnone
      exact popNormal_shows h hheld hx hopen (a.popped++[x]) a.evicted

theorem step_shows (op : Op α) : Shows (s.step op).1 (a.step op).1 ∧ (s.step op).2=(a.step op).2 := by
  cases op with
  | pushItem item strategy =>
    obtain ⟨hshows,heq⟩:=push_shows h item strategy item.isHigh
    exact ⟨hshows,congrArg (fun r : PushResult × Option (MailboxItem α) => Outcome.pushed r.1 r.2) heq⟩
  | pushWithPriority envelope payload strategy high =>
    obtain ⟨hshows,heq⟩:=push_shows h (.plain envelope payload) strategy high
    exact ⟨hshows,congrArg (fun r : PushResult × Option (MailboxItem α) => Outcome.pushed r.1 r.2) heq⟩
  | popItem =>
    obtain ⟨hshows,heq⟩:=pop_shows h
    exact ⟨hshows,congrArg Outcome.popped heq⟩
  | sealUp =>
    exact ⟨⟨h.capacity,h.closers,rfl,h.receiver,h.highLane,h.room,h.bounded,fun hem => ⟨rfl,(h.emptied hem).2⟩,
      fun _ => rfl⟩,rfl⟩
  | close =>
    exact ⟨⟨h.capacity,congrArg (·+1) h.closers,rfl,h.receiver,h.highLane,h.room,h.bounded,
      fun hem => ⟨rfl,(h.emptied hem).2⟩,fun _ => rfl⟩,rfl⟩
  | take =>
    unfold Mailroom.step Arrivals.step
    rw [h.closers]
    by_cases hzero : a.closers=0
    · rw [if_pos hzero,if_pos hzero]
      exact ⟨h,rfl⟩
    · rw [if_neg hzero,if_neg hzero]
      have hsealed:=h.closing (Nat.pos_of_ne_zero hzero)
      obtain ⟨k,hremoved,hlane⟩:=h.highLane
      refine ⟨⟨h.capacity,rfl,h.isClosed,rfl,⟨k,hremoved,rfl⟩,h.room,Nat.zero_le _,fun _ => ⟨hsealed,rfl⟩,
        fun _ => hsealed⟩,?_⟩
      show Outcome.disposed (s.mailbox.receiver.getD []++s.mailbox.highLane.map Prod.snd)=_
      have hreceiver : s.mailbox.receiver.getD []=normals a.held := by
        rw [h.receiver]
        split
        · rename_i hem
          rw [(h.emptied hem).2]
          rfl
        · rfl
      rw [hreceiver,hlane,frontiers_items]

theorem run_shows (ops : List (Op α)) : Shows (s.run ops).1 (a.run ops).1 ∧ (s.run ops).2=(a.run ops).2 := by
  induction ops generalizing s a with
  | nil => exact ⟨h,rfl⟩
  | cons op ops ih =>
    obtain ⟨hstep,hout⟩:=step_shows h op
    obtain ⟨hrun,houts⟩:=ih hstep
    exact ⟨hrun,congrArg₂ List.cons hout houts⟩

end

structure Accounted (a : Arrivals α) : Prop where
  ordered : a.held.Pairwise (·.order < ·.order)
  numbered : a.admitted.map Arrival.order=range a.admitted.length
  placed : (a.held++(a.popped++(a.evicted++a.disposed))).Perm a.admitted

theorem start_accounted (capacity : UInt64) : Accounted (.start capacity : Arrivals α) :=
  ⟨List.Pairwise.nil,rfl,List.Perm.refl _⟩

section
variable (h : Accounted a)
include h

theorem Accounted.lt (hx : x∈a.held) : x.order<a.admitted.length := by
  have hmem : x∈a.admitted := h.placed.subset (List.mem_append_left _ hx)
  have horder:=List.mem_map_of_mem (f := Arrival.order) hmem
  rw [h.numbered] at horder
  exact List.mem_range.mp horder

theorem append_accounted (high : Bool) (item : MailboxItem α) : Accounted (a.append high item) := by
  refine ⟨?_,?_,?_⟩
  · refine List.pairwise_append.mpr ⟨h.ordered,List.pairwise_singleton _ _,fun x hx y hy => ?_⟩
    rw [List.mem_singleton.mp hy]
    exact h.lt hx
  · show (a.admitted++[_]).map Arrival.order=range (a.admitted++[_]).length
    rw [List.map_append,h.numbered,List.length_append,List.length_singleton,List.range_succ]
    rfl
  · let x : Arrival α := ⟨a.admitted.length,high,item⟩
    have hmove : ((a.held++[x])++(a.popped++(a.evicted++a.disposed))).Perm
        ((a.held++(a.popped++(a.evicted++a.disposed)))++[x]) := by
      rw [append_assoc,append_assoc]
      exact List.perm_append_comm.append_left a.held
    exact hmove.trans (h.placed.append_right [x])

theorem push_accounted (item : MailboxItem α) (strategy : BackpressureStrategy) (high : Bool) :
    Accounted (a.push item strategy high).1 := by
  unfold Arrivals.push
  split
  · exact h
  · split
    · exact append_accounted h high item
    · cases strategy with
      | dropNewest | error | block => exact h
      | dropOldest =>
        apply append_accounted
        cases hheld : a.held with
        | nil =>
          have hperm:=h.placed
          rw [hheld] at hperm
          refine ⟨List.Pairwise.nil,h.numbered,?_⟩
          simpa using hperm
        | cons x rest =>
          have hperm:=h.placed
          have hordered:=h.ordered
          rw [hheld] at hperm hordered
          refine ⟨(List.pairwise_cons.mp hordered).2,h.numbered,List.Perm.trans ?_ hperm⟩
          show (rest++(a.popped++((a.evicted++[x])++a.disposed))).Perm (x::(rest++(a.popped++(a.evicted++a.disposed))))
          have hmove : ((rest++(a.popped++a.evicted))++x::a.disposed).Perm
              (x::((rest++(a.popped++a.evicted))++a.disposed)) := perm_middle
          simpa [append_assoc] using hmove

theorem popped_accounted (hsub : rest.Sublist a.held)
    (hperm : a.held.Perm (x::rest)) : Accounted {a with held:=rest,popped:=a.popped++[x]} := by
  refine ⟨h.ordered.sublist hsub,h.numbered,List.Perm.trans ?_ h.placed⟩
  show (rest++((a.popped++[x])++(a.evicted++a.disposed))).Perm _
  have hmove : ((rest++a.popped)++x::(a.evicted++a.disposed)).Perm (x::((rest++a.popped)++(a.evicted++a.disposed))) :=
    perm_middle
  have hback:=hperm.symm.append_right (a.popped++(a.evicted++a.disposed))
  refine List.Perm.trans ?_ hback
  simpa [append_assoc] using hmove

theorem pop_accounted : Accounted a.pop.1 := by
  unfold Arrivals.pop
  split
  · rename_i x hfind
    refine popped_accounted h List.eraseP_sublist ?_
    obtain ⟨hx,l,m,heq,hl⟩:=List.find?_eq_some_iff_append.mp hfind
    rw [heq,List.eraseP_append_right _ (fun y hy => by simpa using hl y hy),List.eraseP_cons_of_pos hx]
    exact perm_middle
  · split
    · rename_i x rest hheld
      refine popped_accounted h ?_ ?_
      · rw [hheld]
        exact List.sublist_cons_self x rest
      · rw [hheld]
    · exact h

theorem step_accounted (op : Op α) : Accounted (a.step op).1 := by
  cases op with
  | pushItem item strategy => exact push_accounted h item strategy item.isHigh
  | pushWithPriority envelope payload strategy high => exact push_accounted h (.plain envelope payload) strategy high
  | popItem => exact pop_accounted h
  | sealUp | close => exact ⟨h.ordered,h.numbered,h.placed⟩
  | take =>
    simp only [Arrivals.step]
    split
    · exact h
    · refine ⟨List.Pairwise.nil,h.numbered,List.Perm.trans ?_ h.placed⟩
      have hmove : ((a.popped++(a.evicted++a.disposed))++a.held).Perm (a.held++(a.popped++(a.evicted++a.disposed))) :=
        List.perm_append_comm
      simpa [append_assoc] using hmove

theorem run_accounted (ops : List (Op α)) : Accounted (a.run ops).1 := by
  induction ops generalizing a with
  | nil => exact h
  | cons op ops ih => exact ih (step_accounted h op)

end

theorem push_capacity (a : Arrivals α) (item : MailboxItem α) (strategy : BackpressureStrategy) (high : Bool) :
    (a.push item strategy high).1.capacity=a.capacity := by
  unfold Arrivals.push
  split
  · rfl
  · split
    · rfl
    · cases strategy <;> rfl

theorem step_capacity (a : Arrivals α) (op : Op α) : (a.step op).1.capacity=a.capacity := by
  cases op with
  | pushItem item strategy => exact push_capacity a item strategy item.isHigh
  | pushWithPriority envelope payload strategy high => exact push_capacity a (.plain envelope payload) strategy high
  | popItem =>
    simp only [Arrivals.step,Arrivals.pop]
    split
    · rfl
    · split
      · rfl
      · rfl
  | sealUp | close => rfl
  | take =>
    simp only [Arrivals.step]
    split
    · rfl
    · rfl

theorem run_capacity (a : Arrivals α) (ops : List (Op α)) : (a.run ops).1.capacity=a.capacity := by
  induction ops generalizing a with
  | nil => rfl
  | cons op ops ih => exact (ih (a.step op).1).trans (step_capacity a op)

theorem step_sealed (h : a.isSealed=true) (op : Op α) :
    (a.step op).1.isSealed=true ∧ (a.step op).1.admitted=a.admitted := by
  have hpush : ∀ item strategy high, a.push item strategy high=(a,.err .closed,none) := fun _ _ _ => if_pos h
  cases op with
  | pushItem | pushWithPriority =>
    simp only [Arrivals.step,hpush]
    exact ⟨h,trivial⟩
  | popItem =>
    simp only [Arrivals.step,Arrivals.pop]
    split
    · exact ⟨h,rfl⟩
    · split
      · exact ⟨h,rfl⟩
      · exact ⟨h,rfl⟩
  | sealUp | close => exact ⟨rfl,rfl⟩
  | take =>
    simp only [Arrivals.step]
    split
    · exact ⟨h,rfl⟩
    · exact ⟨h,rfl⟩

theorem run_sealed (h : a.isSealed=true) (ops : List (Op α)) : (a.run ops).1.admitted=a.admitted := by
  induction ops generalizing a with
  | nil => rfl
  | cons op ops ih => exact (ih (step_sealed h op).1).trans (step_sealed h op).2

/-- Both lanes together behave as the list: every call has the outcome it has there, the
list is within the capacity and in the order of arrival, every arrival is held, popped,
evicted or disposed of once, and nothing comes in once the mailbox is closed. -/
theorem mailbox_refines_arrivals (capacity : UInt64) (ops : List (Op α)) :
    let s:=(Mailroom.start capacity).run ops
    let a:=(Arrivals.start capacity).run ops
    s.2=a.2 ∧ s.1.mailbox.normalLen+s.1.mailbox.highLane.length=a.1.held.length ∧
    a.1.held.length ≤ max capacity.toNat 1 ∧ a.1.held.Pairwise (·.order < ·.order) ∧
    (a.1.admitted.map Arrival.order).Nodup ∧
    (a.1.held++(a.1.popped++(a.1.evicted++a.1.disposed))).Perm a.1.admitted ∧
    (a.1.emptied=true → a.1.held=[] ∧ ∀ more, (a.1.run more).1.admitted=a.1.admitted) := by
  obtain ⟨hshows,houts⟩:=run_shows (start_shows (α := α) capacity) ops
  have haccounted:=run_accounted (start_accounted (α := α) capacity) ops
  refine ⟨houts,hshows.length,?_,haccounted.ordered,?_,haccounted.placed,?_⟩
  · have hbounded:=hshows.bounded
    rwa [run_capacity] at hbounded
  · rw [haccounted.numbered]
    exact List.nodup_range
  · intro hem
    obtain ⟨hsealed,hnil⟩:=hshows.emptied hem
    exact ⟨hnil,run_sealed hsealed⟩

def evictingRun : List (Op ℕ) :=
  [.pushItem (.plain none 1) .block,.pushItem (.ask 90 2) .block,.pushItem (.plain none 3) .dropOldest,.popItem,.close,.take]

theorem mailbox_refines_arrivals_evicting :
    ((Mailroom.start 2).run evictingRun).2=((Arrivals.start 2).run evictingRun).2 ∧
    ((Arrivals.start 2).run evictingRun).2=[.pushed .ok none,.pushed .ok none,.pushed .ok (some (.plain none 1)),
    .popped (some (.ask 90 2)),.stored,.disposed [.plain none 3]] ∧ ((Arrivals.start 2).run evictingRun).1.held=[] :=
  ⟨(mailbox_refines_arrivals 2 evictingRun).1,by decide +kernel,
    ((mailbox_refines_arrivals 2 evictingRun).2.2.2.2.2.2 (by decide +kernel)).1⟩

end Parrot.Mailbox
