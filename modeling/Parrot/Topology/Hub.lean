import Parrot.Lib.Lru
import Parrot.Topology.Routes

/-! # Relay hubs (`roles/hub.rs`, `topology.rs:188-197`)

A hub forwards a request under an id of its own and remembers, for so many requests as it has
room for, the id and the reply path that the answer goes back to. -/

namespace Parrot.Topology
open Slots (Table)

/-- `order` holds the ids of `map`, the least recently used in front. -/
structure CidMap where
  cap : ℕ
  order : List UInt64
  map : Finmap fun _ : UInt64 => UInt64 × String

namespace CidMap

def new (cap : ℕ) : CidMap := ⟨cap,[],∅⟩

def len (m : CidMap) : ℕ := m.map.keys.card

def touch (m : CidMap) (cid : UInt64) : CidMap :=
  if cid∈m.order then {m with order:=m.order.erase cid++[cid]} else m

/-- The oldest id leaves the queue, and its mapping the map. -/
def evict (m : CidMap) : CidMap :=
  match m.order with
  | [] => m
  | old::order => {m with order:=order,map:=m.map.erase old}

def insert (m : CidMap) (newCid : UInt64) (orig : UInt64 × String) : CidMap :=
  if m.cap=0 then m
  else if newCid∈m.map then touch {m with map:=m.map.insert newCid orig} newCid
  else
    let m:=if m.len≥m.cap then m.evict else m
    {m with map:=m.map.insert newCid orig,order:=m.order++[newCid]}

def get (m : CidMap) (newCid : UInt64) : Option (UInt64 × String) × CidMap :=
  let m:=if newCid∈m.map then m.touch newCid else m
  (m.map.lookup newCid,m)

end CidMap

inductive RelayError where
  | noRoute
  | hopExceeded

def hopForward (hopCount hopLimit : UInt8) : Option UInt8 :=
  (if hopCount.toNat+1<2^8 then some (hopCount+1) else none).filter fun next => decide (next<hopLimit)

structure RelayHub where
  routes : RouteTable
  cidMap : CidMap
  nodeId : String
  nextCid : UInt64

namespace RelayHub

def new (nodeId : String) (routes : RouteTable) : RelayHub := ⟨routes,CidMap.new 65536,nodeId,1⟩

/- The increment wraps where it does not abort. -/
def allocCid (hub : RelayHub) : UInt64 × RelayHub := (hub.nextCid+1,{hub with nextCid:=hub.nextCid+1})

/-- `values` is what the routes of the hub yield. The payload is passed on and not looked at. -/
def relayAsk (hub : RelayHub) (values : List RouteEntry) (origCid : UInt64) (targetPath replyTo : String)
    (hopCount hopLimit : UInt8) : Except RelayError (String × UInt64 × UInt8) × RelayHub :=
  match RouteTable.resolve values targetPath with
  | none => (.error .noRoute,hub)
  | some route =>
    match hopForward hopCount hopLimit with
    | none => (.error .hopExceeded,hub)
    | some hop =>
      let (newCid,hub):=hub.allocCid
      (.ok (route.nextHop,newCid,hop),{hub with cidMap:=hub.cidMap.insert newCid (origCid,replyTo)})

def relayReply (hub : RelayHub) (newCid : UInt64) : Option (UInt64 × String) × RelayHub :=
  let (found,cidMap):=hub.cidMap.get newCid
  (found,{hub with cidMap})

end RelayHub

/-- The map and the queue hold the entries of a least-recently-used table. -/
structure CidMap.Represents (m : CidMap) (t : Table UInt64 (UInt64 × String)) : Prop where
  valid : Lru.Valid m.cap t
  order : m.order=t.map Prod.fst
  content : ∀ cid, m.map.lookup cid=Slots.get t cid

namespace CidMap.Represents

variable {m : CidMap} {t : Table UInt64 (UInt64 × String)} {cid : UInt64} {orig : UInt64 × String}

theorem empty (cap : ℕ) : (CidMap.new cap).Represents [] :=
  ⟨⟨List.nodup_nil,Nat.zero_le _⟩,rfl,fun _ => rfl⟩

section
variable (h : m.Represents t)
include h

theorem mem_iff : cid∈m.map ↔ cid∈m.order := by
  rw [← Finmap.lookup_isSome,h.content,h.order,Lru.isSome_get]

theorem len_eq : m.len=t.length := by
  have hkeys : m.map.keys=m.order.toFinset := by
    ext cid
    rw [Finmap.mem_keys,List.mem_toFinset,h.mem_iff]
  have hnodup : m.order.Nodup := by
    rw [h.order]
    exact h.valid.keys
  rw [CidMap.len,hkeys,List.toFinset_card_of_nodup hnodup,h.order,List.length_map]

theorem use (hcid : cid∈m.order) :
    (touch {m with map:=m.map.insert cid orig} cid).Represents (Lru.use t cid orig) := by
  have hmem : cid∈t.map Prod.fst := h.order ▸ hcid
  have hvalid:=h.valid.use (v := orig) (.inl hmem)
  unfold touch
  rw [if_pos hcid]
  refine ⟨hvalid,?_,?_⟩
  · rw [Lru.keys_use h.valid.keys,h.order]
  · intro x
    rw [Lru.get_use,← h.content]
    by_cases hx : x=cid
    · subst hx
      rw [if_pos rfl,Finmap.lookup_insert]
    · rw [if_neg hx,Finmap.lookup_insert_of_ne _ hx]

theorem evict (hfull : t.length=m.cap) : m.evict.Represents (Lru.makeRoom m.cap t) := by
  unfold Lru.makeRoom
  rw [if_pos hfull]
  unfold CidMap.evict
  cases t with
  | nil =>
    have horder : m.order=[] := h.order
    rw [horder]
    exact h
  | cons e t =>
    have horder : m.order=e.1::t.map Prod.fst := h.order
    rw [horder]
    refine ⟨h.valid.tail,rfl,?_⟩
    intro x
    rw [List.tail_cons,Lru.get_tail h.valid.keys,← h.content]
    by_cases hx : x=e.1
    · subst hx
      rw [if_pos rfl,Finmap.lookup_erase]
    · rw [if_neg hx,Finmap.lookup_erase_ne hx]

theorem push (hcid : cid∉m.order) (hroom : t.length < m.cap) :
    CidMap.Represents {m with map:=m.map.insert cid orig,order:=m.order++[cid]} (Lru.use t cid orig) := by
  have hmem : cid∉t.map Prod.fst := h.order ▸ hcid
  refine ⟨h.valid.use (.inr hroom),?_,?_⟩
  · rw [Lru.keys_use h.valid.keys,List.erase_of_not_mem hmem,h.order]
  · intro x
    rw [Lru.get_use,← h.content]
    by_cases hx : x=cid
    · subst hx
      rw [if_pos rfl,Finmap.lookup_insert]
    · rw [if_neg hx,Finmap.lookup_insert_of_ne _ hx]

theorem insert (cid : UInt64) (orig : UInt64 × String) :
    (m.insert cid orig).Represents (Lru.insert m.cap t cid orig) := by
  have hsome : (Slots.get t cid).isSome=true ↔ cid∈m.order := by rw [Lru.isSome_get,h.order]
  unfold CidMap.insert Lru.insert
  by_cases hcap : m.cap=0
  · rw [if_pos hcap,if_pos hcap]
    exact h
  · rw [if_neg hcap,if_neg hcap]
    by_cases hmem : cid∈m.order
    · rw [if_pos (h.mem_iff.mpr hmem),if_pos (hsome.mpr hmem)]
      exact h.use hmem
    · rw [if_neg fun hin => hmem (h.mem_iff.mp hin),if_neg fun hin => hmem (hsome.mp hin)]
      have hlen:=Lru.makeRoom_length h.valid hcap
      have hroom:=h.valid.room
      by_cases hfull : t.length=m.cap
      · have hevicted:=h.evict hfull
        have hsame : m.evict.cap=m.cap := by
          unfold CidMap.evict
          cases m.order <;> rfl
        have hnot : cid∉m.evict.order := by
          unfold CidMap.evict
          cases horder : m.order with
          | nil => simp [horder]
          | cons old order =>
            rw [horder] at hmem
            exact fun hin => hmem (List.mem_cons_of_mem _ hin)
        simp only
        rw [h.len_eq,if_pos (Nat.le_of_eq hfull.symm)]
        exact hevicted.push hnot (by rw [hsame]; exact hlen)
      · simp only
        rw [h.len_eq,if_neg (by omega),Lru.makeRoom,if_neg hfull]
        exact h.push hmem (by omega)

theorem get (cid : UInt64) : (m.get cid).1=(Lru.lookup t cid).1 ∧ (m.get cid).2.Represents (Lru.lookup t cid).2 := by
  unfold CidMap.get Lru.lookup
  simp only
  cases hget : Slots.get t cid with
  | none =>
    have hnot : cid∉m.map := by
      rw [← Finmap.lookup_isSome,h.content,hget]
      simp
    rw [if_neg hnot,h.content,hget]
    exact ⟨rfl,h⟩
  | some v =>
    have hmem : cid∈m.map := by
      rw [← Finmap.lookup_isSome,h.content,hget]
      rfl
    have hsame : m.map.insert cid v=m.map := by
      refine Finmap.ext_lookup fun x => ?_
      by_cases hx : x=cid
      · subst hx
        rw [Finmap.lookup_insert,h.content,hget]
      · rw [Finmap.lookup_insert_of_ne _ hx]
    have huse : (touch {m with map:=m.map.insert cid v} cid).Represents (Lru.use t cid v) := h.use (h.mem_iff.mp hmem)
    rw [hsame] at huse
    have hmap : (m.touch cid).map=m.map := by
      unfold CidMap.touch
      split <;> rfl
    rw [if_pos hmem,hmap,h.content,hget]
    exact ⟨rfl,huse⟩

end

end CidMap.Represents

inductive CidOp where
  | insert (newCid : UInt64) (orig : UInt64 × String)
  | get (newCid : UInt64)

namespace CidOp

def apply (m : CidMap) : CidOp → Option (UInt64 × String) × CidMap
  | insert newCid orig => (none,m.insert newCid orig)
  | get newCid => m.get newCid

/-- What a sequence of operations answers, and where it ends. -/
def runs {σ : Type} (step : σ → CidOp → Option (UInt64 × String) × σ) (s : σ) :
    List CidOp → List (Option (UInt64 × String)) × σ
  | [] => ([],s)
  | op::ops => ((step s op).1::(runs step (step s op).2 ops).1,(runs step (step s op).2 ops).2)

end CidOp

namespace CidMap

end CidMap

inductive HubOp where
  | ask (values : List RouteEntry) (origCid : UInt64) (targetPath replyTo : String) (hopCount hopLimit : UInt8)
  | reply (newCid : UInt64)

namespace RelayHub

/-- The ids given to accepted requests so far, with what the answers go back to. -/
abbrev Given := List (UInt64 × (UInt64 × String))

def step (s : RelayHub × Given) : HubOp → RelayHub × Given
  | .ask values origCid targetPath replyTo hopCount hopLimit =>
    match s.1.relayAsk values origCid targetPath replyTo hopCount hopLimit with
    | (.ok (_,newCid,_),hub) => (hub,s.2++[(newCid,(origCid,replyTo))])
    | (.error _,hub) => (hub,s.2)
  | .reply newCid => ((s.1.relayReply newCid).2,s.2)

def run (s : RelayHub × Given) (ops : List HubOp) : RelayHub × Given := ops.foldl step s

theorem relayAsk_cases (hub : RelayHub) (values : List RouteEntry) (origCid : UInt64) (targetPath replyTo : String)
    (hopCount hopLimit : UInt8) :
    (∃ e, hub.relayAsk values origCid targetPath replyTo hopCount hopLimit=(.error e,hub)) ∨
    ∃ nextHop hop, hub.relayAsk values origCid targetPath replyTo hopCount hopLimit =
      (.ok (nextHop,hub.nextCid+1,hop),
        {hub with nextCid:=hub.nextCid+1,cidMap:=hub.cidMap.insert (hub.nextCid+1) (origCid,replyTo)}) := by
  unfold relayAsk
  cases RouteTable.resolve values targetPath with
  | none => exact .inl ⟨.noRoute,rfl⟩
  | some route =>
    cases hopForward hopCount hopLimit with
    | none => exact .inl ⟨.hopExceeded,rfl⟩
    | some hop => exact .inr ⟨route.nextHop,hop,rfl⟩

theorem step_cases (s : RelayHub × Given) (op : HubOp) :
    step s op=s ∨
    (∃ orig, step s op=({s.1 with nextCid:=s.1.nextCid+1,cidMap:=s.1.cidMap.insert (s.1.nextCid+1) orig},
      s.2++[(s.1.nextCid+1,orig)])) ∨
    ∃ cid, step s op=({s.1 with cidMap:=(s.1.cidMap.get cid).2},s.2) := by
  cases op with
  | ask values origCid targetPath replyTo hopCount hopLimit =>
    rcases relayAsk_cases s.1 values origCid targetPath replyTo hopCount hopLimit with ⟨e,hask⟩ | ⟨nextHop,hop,hask⟩
    · left
      simp only [step,hask]
    · right
      left
      exact ⟨(origCid,replyTo),by simp only [step,hask]⟩
  | reply newCid => exact .inr (.inr ⟨newCid,rfl⟩)

structure Inv (s : RelayHub × Given) : Prop where
  represents : ∃ t, s.1.cidMap.Represents t ∧ ∀ e∈t, e∈s.2
  next : s.1.nextCid.toNat=1+s.2.length
  numbered : s.2.map (fun e => e.1.toNat)=(List.range s.2.length).map (2+·)

theorem start_inv (cap : ℕ) (nodeId : String) (routes : RouteTable) : Inv (⟨routes,CidMap.new cap,nodeId,1⟩,[]) :=
  ⟨⟨[],CidMap.Represents.empty cap,by simp⟩,rfl,rfl⟩

variable {s : RelayHub × Given}

theorem step_inv (h : Inv s) (op : HubOp) (hfew : (step s op).2.length<2^64-1) : Inv (step s op) := by
  rcases step_cases s op with hstep | ⟨orig,hstep⟩ | ⟨cid,hstep⟩
  · rw [hstep]
    exact h
  · rw [hstep] at hfew ⊢
    obtain ⟨t,ht,hgiven⟩:=h.represents
    simp only [List.length_append,List.length_singleton] at hfew
    have hnext : (s.1.nextCid+1).toNat=2+s.2.length := by
      have hadd:=UInt64.toNat_add s.1.nextCid 1
      have hone : (1 : UInt64).toNat=1 := rfl
      rw [hone,h.next] at hadd
      omega
    refine ⟨⟨_,ht.insert (s.1.nextCid+1) orig,?_⟩,?_,?_⟩
    · intro e he
      rcases Lru.mem_insert he with he | rfl
      · exact List.mem_append_left _ (hgiven e he)
      · simp
    · simp only [List.length_append,List.length_singleton]
      omega
    · simp only [List.map_append,h.numbered,List.length_append,List.length_singleton,List.range_succ,List.map_cons,
        List.map_nil,hnext]
  · rw [hstep]
    obtain ⟨t,ht,hgiven⟩:=h.represents
    refine ⟨⟨_,(ht.get cid).2,fun e he => hgiven e (Lru.mem_lookup he)⟩,h.next,h.numbered⟩

theorem step_length (s : RelayHub × Given) (op : HubOp) : s.2.length≤(step s op).2.length := by
  rcases step_cases s op with hstep | ⟨orig,hstep⟩ | ⟨cid,hstep⟩ <;> rw [hstep]
  simp

theorem run_length (ops : List HubOp) (s : RelayHub × Given) : s.2.length≤(run s ops).2.length := by
  induction ops generalizing s with
  | nil => exact le_rfl
  | cons op ops ih => exact Nat.le_trans (step_length s op) (ih (step s op))

theorem run_inv (h : Inv s) (ops : List HubOp) (hfew : (run s ops).2.length<2^64-1) : Inv (run s ops) := by
  induction ops generalizing s with
  | nil => exact h
  | cons op ops ih =>
    have hstep:=run_length ops (step s op)
    exact ih (step_inv h op (Nat.lt_of_le_of_lt hstep hfew)) hfew

theorem Inv.distinct (h : Inv s) : (s.2.map Prod.fst).Nodup := by
  have hnumbers : (s.2.map fun e => e.1.toNat).Nodup := by
    rw [h.numbered]
    exact List.nodup_range.map fun a b hab => by simpa using hab
  have hsplit : s.2.map (fun e => e.1.toNat)=(s.2.map Prod.fst).map UInt64.toNat := by rw [List.map_map]; rfl
  rw [hsplit] at hnumbers
  exact hnumbers.of_map _

theorem Inv.answer (h : Inv s) (cid : UInt64) : (∀ orig, (s.1.relayReply cid).1=some orig → (cid,orig)∈s.2) ∧
    ((s.1.relayReply cid).1=none ↔ cid∉s.1.cidMap.order) := by
  obtain ⟨t,ht,hgiven⟩:=h.represents
  have hanswer : (s.1.relayReply cid).1=Slots.get t cid := by
    have hget:=(ht.get cid).1
    unfold Lru.lookup at hget
    cases hfound : Slots.get t cid with
    | none | some =>
      rw [hfound] at hget
      exact hget
  rw [hanswer]
  constructor
  · intro orig hfound
    exact hgiven _ (Slots.mem_of_get hfound)
  · rw [ht.order,← Lru.isSome_get]
    simp

theorem Inv.kept (h : Inv s) (op : HubOp) {cid : UInt64} (hcid : cid∈s.1.cidMap.order) :
    cid∈(step s op).1.cidMap.order ∨ (s.2.length<(step s op).2.length ∧
      s.1.cidMap.order.length=s.1.cidMap.cap ∧ s.1.cidMap.order.head? = some cid) := by
  obtain ⟨t,ht,-⟩:=h.represents
  have hmem : cid∈t.map Prod.fst := ht.order ▸ hcid
  rcases step_cases s op with hstep | ⟨orig,hstep⟩ | ⟨other,hstep⟩
  · rw [hstep]
    exact .inl hcid
  · rw [hstep,(ht.insert (s.1.nextCid+1) orig).order,ht.order,List.length_map]
    rcases Lru.key_insert hmem with hkept | ⟨hfull,hhead⟩
    · exact .inl hkept
    · exact .inr ⟨by simp,hfull,hhead⟩
  · rw [hstep,(ht.get other).2.order]
    exact .inl (Lru.key_lookup hmem)

end RelayHub
end Parrot.Topology
