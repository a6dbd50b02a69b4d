import Mathlib.Algebra.BigOperators.Group.List.Basic
import Mathlib.Data.List.Nodup
import Parrot.Link.Dispatch

/-! # Budgets and order of the lanes

The budgets are sums over the lanes, and a lane has exactly one active operation. -/

namespace Parrot.Link
open Function (update_apply update_of_ne update_self update)
open Option (map_some getD_some map_none getD_none)
open List (length_append map_append map_cons map_nil sum_append sum_cons sum_nil prefix_refl map_singleton length_cons)
open Machine Parrot.Wire

structure DispatchOk (knobs : RuntimeKnobs) (r : DispatchRun) : Prop where
  distinct : (r.d.active.map Prod.fst).Nodup
  lanes : ∀ key, key∈r.d.active.map Prod.fst ↔ (r.d.lanes key).isSome
  count : r.d.count=r.d.active.length+(r.d.active.map fun a => (r.d.queue a.1).length).sum
  bytes : r.d.bytes=(r.d.active.map fun a => a.2.bytes).sum+
    (r.d.active.map fun a => ((r.d.queue a.1).map Pending.bytes).sum).sum
  capacity : r.d.count≤knobs.inboundDispatchCapacity
  room : r.d.bytes≤knobs.inboundDispatchBytes
  share : ∀ connection, r.d.connectionPending connection≤knobs.inboundDispatchPerConnection
  order : ∀ key, r.started key<+:r.arrived key
  whole : ∀ key, r.d.closed key.1=false → r.arrived key=r.started key++(r.d.queue key).map Pending.content

theorem sum_set {α : Type} [DecidableEq α] {l : List α} (hl : l.Nodup) {k : α} (hk : k∈l) {w w' : α → ℕ}
    (hsame : ∀ x, x≠k → w' x=w x) : (l.map w').sum+w k=(l.map w).sum+w' k := by
  have hrest : (l.erase k).map w'=(l.erase k).map w := by
    apply List.map_congr_left
    intro x hx
    exact hsame x (hl.mem_erase_iff.mp hx).1
  rw [← List.sum_map_erase w' hk,← List.sum_map_erase w hk,hrest]
  omega

section lanes
variable {d d' : Dispatcher} {key : LaneKey} {o : Option Lane}

section
variable (h : d'.lanes=update d.lanes key o)
include h

theorem queue_set (k : LaneKey) : d'.queue k=if k=key then (o.map Lane.queue).getD [] else d.queue k := by
  unfold Dispatcher.queue
  rw [h,update_apply]
  split <;> rfl

theorem pending_set :
    d'.connectionPending key.1+Dispatcher.laneSize (d.lanes key)=d.connectionPending key.1+Dispatcher.laneSize o ∧
    ∀ connection, connection≠key.1 → d'.connectionPending connection=d.connectionPending connection := by
  unfold Dispatcher.connectionPending
  rw [h]
  constructor
  · have hmem : key.2∈[LaneKind.business,.resolve,.mirror] := by cases key.2 <;> decide
    have hsum:=@sum_set _ _ [LaneKind.business,.resolve,.mirror] (by decide) key.2 hmem
      (fun kind => Dispatcher.laneSize (d.lanes (key.1,kind)))
      (fun kind => Dispatcher.laneSize (update d.lanes key o (key.1,kind)))
      (fun kind hne => by rw [update_of_ne fun heq => hne (congrArg Prod.snd heq)])
    rw [update_self] at hsum
    exact hsum
  · intro connection hne
    have hother : ∀ kind, update d.lanes key o (connection,kind)=d.lanes (connection,kind) :=
      fun kind => update_of_ne (fun heq => hne (congrArg Prod.fst heq)) ..
    simp only [hother]

theorem queues_set {keys : List LaneKey} (hkeys : keys.Nodup)
    (hmem : key∈keys) (f : List Pending → ℕ) :
    (keys.map fun k => f (d'.queue k)).sum+f (d.queue key)=(keys.map fun k => f (d.queue k)).sum+f ((o.map Lane.queue).getD []) := by
  have hset:=queue_set h
  have hsum:=@sum_set _ _ keys hkeys key hmem (fun k => f (d.queue k)) (fun k => f (d'.queue k)) fun k hne => by
    rw [hset,if_neg hne]
  rw [hset key,if_pos rfl] at hsum
  exact hsum

theorem queues_other {keys : List LaneKey} (hmem : key∉keys)
    (f : List Pending → ℕ) : (keys.map fun k => f (d'.queue k))=keys.map fun k => f (d.queue k) := by
  apply List.map_congr_left
  intro k hk
  have hne : k≠key := fun heq => hmem (heq ▸ hk)
  rw [queue_set h,if_neg hne]

end

end lanes

section event
variable {knobs : RuntimeKnobs} {r : DispatchRun} {key : LaneKey} {p : Pending} {lane : Lane} {d : Dispatcher}

theorem keys_map (active : List (LaneKey × Pending)) (w : LaneKey → ℕ) :
    (active.map fun a => w a.1)=(active.map Prod.fst).map w := (List.map_map ..).symm

theorem queue_some (h : r.d.lanes key=some lane) : r.d.queue key=lane.queue := by
  unfold Dispatcher.queue
  rw [h]
  rfl

theorem queued_ok (h : DispatchOk knobs r) (hlane : r.d.lanes key=some lane)
    (hbytes : r.d.bytes+p.bytes≤knobs.inboundDispatchBytes) (hcount : r.d.count<knobs.inboundDispatchCapacity)
    (hshare : r.d.connectionPending key.1<knobs.inboundDispatchPerConnection)
    (hset : d.lanes=update r.d.lanes key (some ⟨lane.queue++[p]⟩)) (hactive : d.active=r.d.active)
    (hclosed : d.closed=r.d.closed) (hc : d.count=r.d.count+1) (hb : d.bytes=r.d.bytes+p.bytes) :
    DispatchOk knobs ⟨d,update r.arrived key (r.arrived key++[p.content]),r.started⟩ := by
  have hmem : key∈r.d.active.map Prod.fst := (h.lanes key).mpr (by rw [hlane]; rfl)
  have hqueue:=queue_some hlane
  refine ⟨by rw [hactive]; exact h.distinct,?_,?_,?_,?_,?_,?_,?_,?_⟩
  · intro k
    rw [hactive,h.lanes k,hset,update_apply]
    split
    · rename_i heq
      rw [heq,hlane]
      rfl
    · rfl
  · have hsum:=queues_set hset h.distinct hmem List.length
    have hold:=h.count
    rw [keys_map _ fun k => (r.d.queue k).length] at hold
    rw [hqueue] at hsum
    simp only [hactive,keys_map _ fun k => (d.queue k).length]
    rw [hc]
    simp only [map_some,getD_some,length_append,List.length_singleton] at hsum
    omega
  · have hsum:=queues_set hset h.distinct hmem fun q => (q.map Pending.bytes).sum
    have hold:=h.bytes
    rw [keys_map _ fun k => ((r.d.queue k).map Pending.bytes).sum] at hold
    rw [hqueue] at hsum
    simp only [hactive,keys_map _ fun k => ((d.queue k).map Pending.bytes).sum]
    rw [hb]
    simp only [map_some,getD_some,map_append,map_cons,map_nil,sum_append,sum_cons,sum_nil] at hsum
    omega
  · rw [hc]
    exact hcount
  · rw [hb]
    exact hbytes
  · intro connection
    obtain ⟨hself,hother⟩:=pending_set hset
    by_cases hc : connection=key.1
    · rw [hc]
      simp only [hlane,Dispatcher.laneSize,map_some,getD_some,length_append,List.length_singleton] at hself
      dsimp only
      omega
    · exact (hother connection hc).le.trans (h.share connection)
  · intro k
    refine (h.order k).trans ?_
    dsimp only
    rw [update_apply]
    split
    · rename_i heq
      rw [heq]
      exact List.prefix_append ..
    · exact prefix_refl _
  · intro k hk
    dsimp only at hk ⊢
    rw [hclosed] at hk
    rw [queue_set hset,update_apply]
    split
    · rename_i heq
      rw [heq] at hk ⊢
      rw [h.whole key hk,hqueue,List.append_assoc]
      simp
    · exact h.whole k hk

theorem queue_none (h : r.d.lanes key=none) : r.d.queue key=[] := by
  unfold Dispatcher.queue
  rw [h]
  rfl

theorem begun_ok (h : DispatchOk knobs r) (hlane : r.d.lanes key=none)
    (hbytes : r.d.bytes+p.bytes≤knobs.inboundDispatchBytes) (hcount : r.d.count<knobs.inboundDispatchCapacity)
    (hshare : r.d.connectionPending key.1<knobs.inboundDispatchPerConnection) (hopen : r.d.closed key.1=false)
    (hset : d.lanes=update r.d.lanes key (some ⟨[]⟩)) (hactive : d.active=r.d.active++[(key,p)])
    (hclosed : d.closed=r.d.closed) (hc : d.count=r.d.count+1) (hb : d.bytes=r.d.bytes+p.bytes) : DispatchOk knobs
    ⟨d,update r.arrived key (r.arrived key++[p.content]), update r.started key (r.started key++[p.content])⟩ := by
  have hnot : key∉r.d.active.map Prod.fst := by
    intro hmem
    have:=(h.lanes key).mp hmem
    rw [hlane] at this
    contradiction
  have hwhole:=h.whole key hopen
  rw [queue_none hlane,map_nil,List.append_nil] at hwhole
  have hself : d.queue key=[] := by rw [queue_set hset,if_pos rfl]; rfl
  refine ⟨?_,?_,?_,?_,?_,?_,?_,?_,?_⟩
  · rw [hactive,map_append,map_singleton]
    refine List.nodup_append.mpr ⟨h.distinct,List.nodup_singleton key,?_⟩
    intro a ha b hb heq
    rw [heq,List.mem_singleton.mp hb] at ha
    exact hnot ha
  · intro k
    dsimp only
    rw [hactive,map_append,List.mem_append,h.lanes k,hset,update_apply]
    by_cases hk : k=key
    · simp [hk]
    · simp [hk]
  · have hold:=h.count
    have hother:=queues_other hset hnot List.length
    rw [keys_map _ fun k => (r.d.queue k).length,← hother] at hold
    dsimp only
    rw [hactive,hc,map_append,sum_append,length_append,keys_map _ fun k => (d.queue k).length]
    simp only [map_singleton,List.sum_singleton,hself,List.length_nil,List.length_singleton]
    omega
  · have hold:=h.bytes
    have hother:=queues_other hset hnot fun q => (q.map Pending.bytes).sum
    rw [keys_map _ fun k => ((r.d.queue k).map Pending.bytes).sum,← hother] at hold
    dsimp only
    rw [hactive,hb,map_append,map_append,sum_append,sum_append,
      keys_map _ fun k => ((d.queue k).map Pending.bytes).sum]
    simp only [map_singleton,List.sum_singleton,hself,map_nil,sum_nil]
    omega
  · dsimp only
    omega
  · dsimp only
    omega
  · intro connection
    obtain ⟨hpending,hother⟩:=pending_set hset
    by_cases hconn : connection=key.1
    · rw [hconn]
      simp only [hlane,Dispatcher.laneSize,map_some,map_none,getD_some,getD_none,List.length_nil] at hpending
      dsimp only
      omega
    · exact (hother connection hconn).le.trans (h.share connection)
  · intro k
    dsimp only
    rw [update_apply,update_apply]
    split
    · rw [hwhole]
    · exact h.order k
  · intro k hk
    dsimp only at hk ⊢
    rw [hclosed] at hk
    rw [queue_set hset,update_apply,update_apply]
    split
    · rw [hwhole]
      simp
    · exact h.whole k hk

theorem active_perm {active : List (LaneKey × Pending)} {i : ℕ} {a : LaneKey × Pending} (h : active[i]? = some a) :
    active.Perm (a::active.eraseIdx i) := by
  obtain ⟨hi,rfl⟩:=List.getElem?_eq_some_iff.mp h
  exact (List.getElem_cons_eraseIdx_perm hi).symm

section
variable (h : DispatchOk knobs r)
include h

theorem advanced_ok {i : ℕ} {next : Pending} {rest : List Pending} (hi : r.d.active[i]? = some (key,p))
    (hlane : r.d.lanes key=some ⟨next::rest⟩) (hset : d.lanes=update r.d.lanes key (some ⟨rest⟩))
    (hactive : d.active=r.d.active.eraseIdx i++[(key,next)]) (hclosed : d.closed=r.d.closed)
    (hc : d.count+1=r.d.count) (hb : d.bytes+p.bytes=r.d.bytes) (hopen : r.d.closed key.1=false) :
    DispatchOk knobs ⟨d,r.arrived,update r.started key (r.started key++[next.content])⟩ := by
  have hperm:=active_perm hi
  have hkeys : (d.active.map Prod.fst).Perm (r.d.active.map Prod.fst) := by
    rw [hactive,map_append]
    exact List.perm_append_comm.trans (hperm.map Prod.fst).symm
  have hmem : key∈r.d.active.map Prod.fst := (h.lanes key).mpr (by rw [hlane]; rfl)
  have hqueue:=queue_some hlane
  have hwhole:=h.whole key hopen
  rw [hqueue,map_cons] at hwhole
  refine ⟨hkeys.nodup_iff.mpr h.distinct,?_,?_,?_,?_,?_,?_,?_,?_⟩
  · intro k
    rw [hkeys.mem_iff,h.lanes k]
    dsimp only
    rw [hset,update_apply]
    split
    · rename_i heq
      rw [heq,hlane]
      rfl
    · rfl
  · have hsum:=queues_set hset h.distinct hmem List.length
    have hold:=h.count
    have hlen:=hkeys.length_eq
    rw [keys_map _ fun k => (r.d.queue k).length] at hold
    rw [hqueue] at hsum
    dsimp only
    rw [keys_map _ fun k => (d.queue k).length,(hkeys.map _).sum_eq]
    simp only [map_some,getD_some,length_cons,List.length_map] at hsum hlen
    omega
  · have hsum:=queues_set hset h.distinct hmem fun q => (q.map Pending.bytes).sum
    have hold:=h.bytes
    have hbytes:=(hperm.map fun a => a.2.bytes).sum_eq
    rw [keys_map _ fun k => ((r.d.queue k).map Pending.bytes).sum] at hold
    rw [hqueue] at hsum
    dsimp only
    rw [keys_map _ fun k => ((d.queue k).map Pending.bytes).sum,(hkeys.map _).sum_eq,hactive,map_append,sum_append]
    simp only [map_some,getD_some,map_cons,sum_cons,map_nil,sum_nil] at hsum hbytes ⊢
    omega
  · have:=h.capacity
    dsimp only
    omega
  · have:=h.room
    dsimp only
    omega
  · intro connection
    obtain ⟨hpending,hother⟩:=pending_set hset
    by_cases hconn : connection=key.1
    · have:=h.share connection
      rw [hconn] at this ⊢
      simp only [hlane,Dispatcher.laneSize,map_some,getD_some,length_cons] at hpending
      dsimp only
      omega
    · exact (hother connection hconn).le.trans (h.share connection)
  · intro k
    dsimp only
    rw [update_apply]
    split
    · rename_i heq
      rw [heq,hwhole]
      simp
    · exact h.order k
  · intro k hk
    dsimp only at hk ⊢
    rw [hclosed] at hk
    rw [queue_set hset,update_apply]
    split
    · rename_i heq
      rw [heq,hwhole]
      simp
    · exact h.whole k hk

theorem retired_ok {i : ℕ} (hi : r.d.active[i]? = some (key,p)) (hlane : r.d.lanes key=some lane)
    (hset : d.lanes=update r.d.lanes key none) (hactive : d.active=r.d.active.eraseIdx i)
    (hclosed : d.closed=r.d.closed) (hc : d.count+1+lane.queue.length=r.d.count)
    (hb : d.bytes+p.bytes+(lane.queue.map Pending.bytes).sum=r.d.bytes)
    (hdone : r.d.closed key.1=false → lane.queue=[]) : DispatchOk knobs ⟨d,r.arrived,r.started⟩ := by
  have hperm:=active_perm hi
  have hkeys : (r.d.active.map Prod.fst).Perm (key::d.active.map Prod.fst) := by
    rw [hactive]
    exact hperm.map Prod.fst
  obtain ⟨hnot,hdistinct⟩:=List.nodup_cons.mp (hkeys.nodup_iff.mp h.distinct)
  have hqueue:=queue_some hlane
  refine ⟨hdistinct,?_,?_,?_,?_,?_,?_,h.order,?_⟩
  · intro k
    dsimp only
    rw [hset,update_apply]
    split
    · rename_i heq
      rw [heq]
      simpa using hnot
    · rename_i hne
      rw [← h.lanes k,hkeys.mem_iff,List.mem_cons]
      simp [hne]
  · have hold:=h.count
    have hlen:=hkeys.length_eq
    have hother:=queues_other hset hnot List.length
    rw [keys_map _ fun k => (r.d.queue k).length,(hkeys.map _).sum_eq,map_cons,sum_cons,hqueue,← hother] at hold
    dsimp only
    rw [keys_map _ fun k => (d.queue k).length]
    simp only [List.length_map,length_cons] at hlen
    omega
  · have hold:=h.bytes
    have hother:=queues_other hset hnot fun q => (q.map Pending.bytes).sum
    have hbytes:=(hperm.map fun a => a.2.bytes).sum_eq
    rw [keys_map _ fun k => ((r.d.queue k).map Pending.bytes).sum,(hkeys.map _).sum_eq,map_cons,sum_cons,hqueue,
      ← hother] at hold
    dsimp only
    rw [keys_map _ fun k => ((d.queue k).map Pending.bytes).sum,hactive]
    rw [hactive] at hold
    simp only [map_cons,sum_cons] at hbytes
    omega
  · have:=h.capacity
    dsimp only
    omega
  · have:=h.room
    dsimp only
    omega
  · intro connection
    obtain ⟨hpending,hother⟩:=pending_set hset
    by_cases hconn : connection=key.1
    · have:=h.share connection
      rw [hconn] at this ⊢
      simp only [hlane,Dispatcher.laneSize,map_some,map_none,getD_some,getD_none] at hpending
      dsimp only
      omega
    · exact (hother connection hconn).le.trans (h.share connection)
  · intro k hk
    dsimp only at hk ⊢
    rw [hclosed] at hk
    have hwhole:=h.whole k hk
    rw [queue_set hset]
    split
    · rename_i heq
      rw [heq] at hk hwhole ⊢
      rw [hqueue,hdone hk] at hwhole
      exact hwhole
    · exact hwhole

theorem closed_ok (connection : ℕ) : DispatchOk knobs {r with d:=r.d.close connection} where
  distinct := h.distinct
  lanes := h.lanes
  count := h.count
  bytes := h.bytes
  capacity := h.capacity
  room := h.room
  share := h.share
  order := h.order
  whole := by
    intro k hk
    have hstill : r.d.closed k.1=false := by
      simp only [Dispatcher.close,update_apply] at hk
      split at hk
      · contradiction
      · exact hk
    exact h.whole k hstill

theorem late_ok {connection : ℕ} (hclosed : r.d.closed connection=true) (frame : Frame)
    (fromNode : String) : DispatchOk knobs {r with arrived:=noteArrival r.arrived frame connection fromNode} := by
  refine {h with order:=?_,whole:=?_}
  · intro k
    refine (h.order k).trans ?_
    dsimp only
    unfold noteArrival
    split
    · rw [update_apply]
      split
      · rename_i heq
        rw [heq]
        exact List.prefix_append ..
      · exact prefix_refl _
    · exact prefix_refl _
  · intro k hk
    have hne : k≠(connection,laneKind frame) := by
      intro heq
      rw [heq] at hk
      exact absurd (hclosed.symm.trans hk) (by decide)
    have hsame : noteArrival r.arrived frame connection fromNode k=r.arrived k := by
      unfold noteArrival
      split
      · exact update_of_ne hne ..
      · rfl
    dsimp only
    rw [hsame]
    exact h.whole k hk

theorem enqueue_ok (hopen : r.d.closed key.1=false)
    (hfits : r.d.fits knobs key.1 p.bytes=true) : ∃ d op, r.d.enqueue key p=.ok (d,op) ∧
      DispatchOk knobs ⟨d,update r.arrived key (r.arrived key++[p.content]),noteStart r.started op⟩ := by
  unfold Dispatcher.fits at hfits
  simp only [Bool.and_eq_true,decide_eq_true_eq] at hfits
  obtain ⟨⟨hsize,hcount⟩,hshare⟩:=hfits
  have hroom:=h.room
  have hbytes : r.d.bytes+p.bytes≤knobs.inboundDispatchBytes := by omega
  have hcount' : r.d.count+1≤u64Max := Nat.le_trans hcount knobs.capacity_le
  unfold Dispatcher.enqueue
  rw [add_ok hcount',add_ok (hbytes.trans knobs.bytes_le)]
  simp only [bind,Except.bind]
  cases hlane : r.d.lanes key with
  | some lane => exact ⟨_,_,rfl,queued_ok h hlane hbytes hcount hshare rfl rfl rfl rfl rfl⟩
  | none => exact ⟨_,_,rfl,begun_ok h hlane hbytes hcount hshare hopen rfl rfl rfl rfl rfl⟩

theorem input_ok (frame : Frame) (connection : ℕ) (fromNode : String) :
    ∃ d op, r.d.input knobs frame connection fromNode=.ok (d,op) ∧
      DispatchOk knobs ⟨d,noteArrival r.arrived frame connection fromNode,noteStart r.started op⟩ := by
  have hrefused : DispatchOk knobs ⟨r.d.close connection,noteArrival r.arrived frame connection fromNode,r.started⟩ :=
    late_ok (closed_ok h connection) (update_self ..) frame fromNode
  unfold Dispatcher.input
  cases hclosed : r.d.closed connection with
  | true => exact ⟨_,_,rfl,late_ok h hclosed frame fromNode⟩
  | false =>
    cases hslow : isSlow frame with
    | false =>
      refine ⟨_,_,rfl,?_⟩
      unfold noteArrival
      rw [hslow]
      exact h
    | true =>
      have harrived : noteArrival r.arrived frame connection fromNode=update r.arrived (connection,laneKind frame)
          (r.arrived (connection,laneKind frame)++[(frame,fromNode)]) := by
        unfold noteArrival
        rw [hslow]
        rfl
      cases hsize : Dispatcher.size frame fromNode with
      | none => exact ⟨_,_,rfl,hrefused⟩
      | some size =>
        cases hfits : r.d.fits knobs connection size with
        | false =>
          exact ⟨r.d.close connection,none,by simp [hfits],hrefused⟩
        | true =>
          rw [harrived]
          simp only [hfits,Bool.false_eq_true,if_false,if_true]
          exact @enqueue_ok knobs r (connection,laneKind frame) ⟨frame,fromNode,size⟩ h hclosed hfits

theorem complete_ok {i : ℕ} (hi : i < r.d.active.length) :
    ∃ d op, r.d.complete i=.ok (d,op) ∧ DispatchOk knobs ⟨d,r.arrived,noteStart r.started op⟩ := by
  obtain ⟨a,ha⟩ : ∃ a, r.d.active[i]? = some a := ⟨_,List.getElem?_eq_getElem hi⟩
  obtain ⟨key,p⟩:=a
  have hperm:=active_perm ha
  have hmem : key∈r.d.active.map Prod.fst := List.mem_map.mpr ⟨(key,p),List.mem_of_getElem? ha,rfl⟩
  obtain ⟨lane,hlane⟩:=Option.isSome_iff_exists.mp ((h.lanes key).mp hmem)
  have hqueue:=queue_some hlane
  -- what this lane holds is part of the sums
  have hcount : lane.queue.length+1 ≤ r.d.count := by
    have hold:=h.count
    have hlen:=hperm.length_eq
    have hsum:=(hperm.map fun a => (r.d.queue a.1).length).sum_eq
    simp only [map_cons,sum_cons,hqueue,length_cons] at hsum hlen
    omega
  have hbytes : p.bytes+(lane.queue.map Pending.bytes).sum ≤ r.d.bytes := by
    have hold:=h.bytes
    have hrunning:=(hperm.map fun a => a.2.bytes).sum_eq
    have hsum:=(hperm.map fun a => ((r.d.queue a.1).map Pending.bytes).sum).sum_eq
    simp only [map_cons,sum_cons,hqueue] at hsum hrunning
    omega
  have h1 : sub r.d.count 1=.ok (r.d.count-1) := sub_ok (by omega)
  have h2 : sub r.d.bytes p.bytes=.ok (r.d.bytes-p.bytes) := sub_ok (by omega)
  have h3 : sub (r.d.count-1) lane.queue.length=.ok (r.d.count-1-lane.queue.length) := sub_ok (by omega)
  have h4 : sub (r.d.bytes-p.bytes) (lane.queue.map Pending.bytes).sum =
      .ok (r.d.bytes-p.bytes-(lane.queue.map Pending.bytes).sum) := sub_ok (by omega)
  unfold Dispatcher.complete
  rw [index_ok ha]
  simp only [bind,Except.bind,h1,h2,hlane]
  cases hnext : if r.d.closed key.1=true then [] else lane.queue with
  | cons next rest =>
    cases hclosed : r.d.closed key.1 with
    | true =>
      rw [hclosed] at hnext
      contradiction
    | false =>
      rw [hclosed] at hnext
      have hq : lane=⟨next::rest⟩ := congrArg Lane.mk hnext
      rw [hq] at hlane
      exact ⟨_,_,rfl,advanced_ok h ha hlane rfl rfl rfl (by dsimp only; omega) (by dsimp only; omega) hclosed⟩
  | nil =>
    simp only [h3,h4]
    refine ⟨_,_,rfl,retired_ok h ha hlane rfl rfl rfl (by dsimp only; omega) (by dsimp only; omega) ?_⟩
    intro hopen
    rw [hopen] at hnext
    exact hnext

end

end event

theorem new_ok (knobs : RuntimeKnobs) : DispatchOk knobs .new where
  distinct := List.nodup_nil
  lanes := fun _ => ⟨fun h => absurd h (List.not_mem_nil),fun h => absurd h (by simp [DispatchRun.new,Dispatcher.new])⟩
  count := rfl
  bytes := rfl
  capacity := Nat.zero_le _
  room := Nat.zero_le _
  share := fun _ => Nat.zero_le _
  order := fun _ => prefix_refl _
  whole := fun _ _ => rfl

theorem step_ok {knobs : RuntimeKnobs} {r r' : DispatchRun} (hstep : DispatchStep knobs r r') (h : DispatchOk knobs r) :
    DispatchOk knobs r' := by
  cases hstep with
  | input frame connection fromNode d op heq =>
    obtain ⟨d',op',heq',hok⟩:=input_ok h frame connection fromNode
    obtain ⟨rfl,rfl⟩:=Prod.mk.inj (Except.ok.inj (heq'.symm.trans heq))
    exact hok
  | complete i d op heq =>
    have hi : i < r.d.active.length := by
      by_contra hge
      unfold Dispatcher.complete index at heq
      rw [List.getElem?_eq_none (not_lt.mp hge)] at heq
      contradiction
    obtain ⟨d',op',heq',hok⟩:=complete_ok h hi
    obtain ⟨rfl,rfl⟩:=Prod.mk.inj (Except.ok.inj (heq'.symm.trans heq))
    exact hok
  | close connection => exact closed_ok h connection

theorem run_ok {knobs : RuntimeKnobs} {r r' : DispatchRun} (hrun : Relation.ReflTransGen (DispatchStep knobs) r r')
    (h : DispatchOk knobs r) : DispatchOk knobs r' := by
  induction hrun with
  | refl => exact h
  | tail _ hstep ih => exact step_ok hstep ih

/-- In every reachable state the budgets are kept and count what the lanes hold, each lane
has one active operation, the frames of an open connection start in arrival order, and the
next event does not panic. -/
theorem dispatch_lanes (knobs : RuntimeKnobs) (r : DispatchRun)
    (hrun : Relation.ReflTransGen (DispatchStep knobs) .new r) : DispatchOk knobs r ∧
    (∀ frame connection fromNode, ∃ d op, r.d.input knobs frame connection fromNode=.ok (d,op)) ∧ ∀ i,
    i < r.d.active.length → ∃ d op, r.d.complete i=.ok (d,op) := by
  have h:=run_ok hrun (new_ok knobs)
  refine ⟨h,?_,?_⟩
  · intro frame connection fromNode
    obtain ⟨d,op,heq,-⟩:=input_ok h frame connection fromNode
    exact ⟨d,op,heq⟩
  · intro i hi
    obtain ⟨d,op,heq,-⟩:=complete_ok h hi
    exact ⟨d,op,heq⟩

def sampleKnobs : RuntimeKnobs := ⟨1,1,12,by decide,by decide⟩

def sampleStop : Frame := ⟨⟨0,protocolVersion,FrameType.stop,0,7,0,8,seqNone⟩,"/user/a","",[]⟩

theorem dispatch_lanes_stop : ∃ r, Relation.ReflTransGen (DispatchStep sampleKnobs) .new r ∧ r.d.count=1 ∧
    DispatchOk sampleKnobs r ∧ ∃ d op, r.d.complete 0=.ok (d,op) := by
  have hrun:=Relation.ReflTransGen.single (@DispatchStep.input sampleKnobs .new sampleStop 3 "peer" _ _ rfl)
  obtain ⟨hok,-,hcomplete⟩:=dispatch_lanes sampleKnobs _ hrun
  exact ⟨_,hrun,rfl,hok,hcomplete 0 (by decide)⟩

end Parrot.Link
