import Mathlib.Data.List.TakeDrop
import Parrot.Raft.Node

/-! # What replication does to a log and to the outbox

One specification for each of `append_plan` (`raft/mod.rs:661-694`), `send_append` and
`broadcast_append` (`raft/mod.rs:538-590`). -/

namespace Parrot.Raft
open List (length_take getElem?_take_of_lt)
open Machine

/-- The term at a one-based position, zero at the sentinel. -/
def termAt (log : List LogEntry) (i : ℕ) : ℕ :=
  if i=0 then 0 else ((log[i-1]?).map LogEntry.term).getD 0

def Indexed (log : List LogEntry) : Prop := ∀ i e, log[i]? = some e → e.index=i+1

theorem planLoop_changed {log : List LogEntry} {commit : ℕ} {c : ℕ × ℕ} {es : List LogEntry} {offset : ℕ}
    {r : Option (ℕ × ℕ)} (h : RaftNode.planLoop log commit (some c) offset es=some r) : r=some c := by
  induction es generalizing offset with
  | nil => simpa [RaftNode.planLoop] using h.symm
  | cons e es ih =>
    simp only [RaftNode.planLoop] at h
    obtain ⟨-,h⟩:=Option.ite_none_left_eq_some.mp h
    obtain ⟨-,h⟩:=Option.ite_none_left_eq_some.mp h
    simp only [reduceCtorEq,false_and,ite_false] at h
    exact ih h

theorem planLoop_spec {log : List LogEntry} {commit : ℕ} {es : List LogEntry} {base offset : ℕ} {r : Option (ℕ × ℕ)}
    (hidx : ∀ k e, es[k]? = some e → e.index=base+k+1) (h : RaftNode.planLoop log commit none offset es=some r) :
    (r=none ∧ ∀ k e, es[k]? = some e → log[base+k]? = some e) ∨ (∃ k e, es[k]? = some e ∧ r=some (base+k,offset+k) ∧
    commit≤base+k ∧ (∀ j, j<k → log[base+j]? = es[j]?) ∧ ∀ o, log[base+k]? = some o → o.term≠e.term) := by
  induction es generalizing base offset with
  | nil => exact .inl ⟨by simpa [RaftNode.planLoop] using h.symm,fun k e he => by simp at he⟩
  | cons e es ih =>
    have he : e.index=base+1 := by simpa using hidx 0 e (by simp)
    have hslot : e.index-1=base := by omega
    have hrest : ∀ k x, es[k]? = some x → x.index=base+1+k+1 := by
      intro k x hx
      have hk:=hidx (k+1) x (by simpa using hx)
      omega
    simp only [RaftNode.planLoop,hslot] at h
    obtain ⟨-,h⟩:=Option.ite_none_left_eq_some.mp h
    obtain ⟨hsafe,h⟩:=Option.ite_none_left_eq_some.mp h
    push Not at hsafe
    split at h
    · rename_i hnew
      -- the first entry that differs: the loop only checks from here on
      have hr:=planLoop_changed h
      refine .inr ⟨0,e,by simp,by simpa using hr,?_,fun j hj => by omega,?_⟩
      · by_contra hc
        have hold:=hsafe.2 (by omega)
        exact hnew.2 e hold rfl
      · intro o ho
        exact hnew.2 o (by simpa using ho)
    · rename_i hsame
      have hold : log[base]? = some e := by
        simp only [true_and] at hsame
        push Not at hsame
        obtain ⟨o,ho,hoe⟩:=hsame
        have hoo:=hsafe.1 o ho hoe
        rw [← hoo]
        exact ho
      rcases ih hrest h with ⟨hr,hall⟩ | ⟨k,x,hx,hr,hc,hpre,hdiff⟩
      · refine .inl ⟨hr,?_⟩
        intro k x hx
        cases k with
        | zero => simpa [hold] using hx
        | succ k =>
          have hk:=hall k x (by simpa using hx)
          rwa [show base+1+k=base+(k+1) by omega] at hk
      · refine .inr ⟨k+1,x,by simpa using hx,?_,by omega,?_,?_⟩
        · rw [hr]
          congr 2 <;> omega
        · intro j hj
          cases j with
          | zero => simp [hold]
          | succ j =>
            have hjj:=hpre j (by omega)
            rw [show base+1+j=base+(j+1) by omega] at hjj
            simpa using hjj
        · rw [show base+(k+1)=base+1+k by omega]
          exact hdiff

theorem take_append_of_getElem {log es : List LogEntry} {base k : ℕ} (hb : base≤log.length)
    (h : ∀ j, j<k → log[base+j]? = es[j]?) : log.take (base+k)=log.take base++es.take k := by
  apply List.ext_getElem?
  intro i
  by_cases hi : i<base
  · rw [List.getElem?_append_left (by rw [length_take]; omega),
      getElem?_take_of_lt (by omega),getElem?_take_of_lt hi]
  · rw [List.getElem?_append_right (by rw [length_take]; omega),length_take,Nat.min_eq_left hb]
    by_cases hik : i<base+k
    · rw [getElem?_take_of_lt hik,getElem?_take_of_lt (by omega),
        ← h (i-base) (by omega),show base+(i-base)=i by omega]
    · rw [List.getElem?_take_eq_none (by omega),List.getElem?_take_eq_none (by omega)]

variable {n : RaftNode}

theorem appendPlan_spec {prev prevTerm : ℕ} {entries : List LogEntry}
    {plan : ℕ × ℕ} (hidx : ∀ k e, entries[k]? = some e → e.index=prev+k+1)
    (h : n.appendPlan prev prevTerm entries=some plan) :
    prev≤n.log.length ∧ (prev≠0 → (n.log[prev-1]?).map LogEntry.term=some prevTerm) ∧
    ((plan=(n.log.length,entries.length) ∧
        n.log.take (prev+entries.length)=n.log.take prev++entries) ∨
     (∃ k e, entries[k]? = some e ∧ plan=(prev+k,k) ∧ n.commitIndex≤prev+k ∧
        n.log.take (prev+k)=n.log.take prev++entries.take k ∧
        ∀ o, n.log[prev+k]? = some o → o.term≠e.term)) := by
  unfold RaftNode.appendPlan at h
  obtain ⟨hprev,h⟩:=Option.ite_none_left_eq_some.mp h
  push Not at hprev
  have hlen : prev≤n.log.length := by
    by_cases hp : prev=0
    · omega
    · have hp1:=hprev hp
      obtain ⟨o,ho,-⟩:=Option.map_eq_some_iff.mp hp1
      have:=(List.getElem?_eq_some_iff.mp ho).1
      omega
  refine ⟨hlen,hprev,?_⟩
  obtain ⟨r,hr,hplan⟩:=Option.map_eq_some_iff.mp h
  rcases planLoop_spec hidx hr with ⟨hnone,hall⟩ | ⟨k,e,he,hsome,hc,hpre,hdiff⟩
  · subst hnone
    refine .inl ⟨hplan.symm,?_⟩
    have hj : ∀ j, j<entries.length → n.log[prev+j]? = entries[j]? := by
      intro j hj
      rw [List.getElem?_eq_getElem hj]
      exact hall j _ (List.getElem?_eq_getElem hj)
    simpa using take_append_of_getElem hlen hj
  · subst hsome
    have hk : k<entries.length := (List.getElem?_eq_some_iff.mp he).1
    refine .inr ⟨k,e,he,by simpa using hplan.symm,hc,?_,hdiff⟩
    exact take_append_of_getElem hlen hpre

theorem applied_log {prev prevTerm : ℕ} {entries : List LogEntry} {plan : ℕ × ℕ} (hidx : ∀ k e, entries[k]? = some e →
    e.index=prev+k+1) (h : n.appendPlan prev prevTerm entries=some plan) : n.log.take plan.1++entries.drop plan.2 =
    if n.log.take (prev+entries.length)=n.log.take prev++entries then n.log else n.log.take prev++entries := by
  obtain ⟨hlen,-,⟨hp,hsame⟩ | ⟨k,e,he,hp,-,htake,hdiff⟩⟩:=appendPlan_spec hidx h
  · rw [if_pos hsame,hp]
    simp
  · have hk : k<entries.length := (List.getElem?_eq_some_iff.mp he).1
    have hne : n.log.take (prev+entries.length)≠n.log.take prev++entries := by
      intro heq
      have hget:=congrArg (fun l => l[prev+k]?) heq
      simp only [getElem?_take_of_lt (show prev+k<prev+entries.length by omega)] at hget
      rw [List.getElem?_append_right (by rw [length_take]; omega),length_take,
        Nat.min_eq_left hlen,Nat.add_sub_cancel_left,he] at hget
      exact hdiff e hget rfl
    rw [if_neg hne,hp]
    dsimp only
    rw [htake,List.append_assoc,List.take_append_drop]

def AppendMsg (n : RaftNode) (rpc : RaftRpc) : Prop :=
  ∃ prev entries, prev+entries.length≤n.log.length ∧ entries=(n.log.drop prev).take entries.length ∧
    entries.length=RaftNode.batchCount 0 ((n.log.drop prev).take 1024) ∧
    rpc=.appendEntries n.currentTerm n.id prev (termAt n.log prev) entries n.commitIndex

theorem batchCount_le (bytes : ℕ) (l : List LogEntry) : RaftNode.batchCount bytes l≤l.length := by
  induction l generalizing bytes with
  | nil => simp [RaftNode.batchCount]
  | cons e l ih =>
    simp only [RaftNode.batchCount,List.length_cons]
    split
    · omega
    · exact Nat.succ_le_succ (ih _)

theorem sendAppend_spec {p : NodeId} (hrole : n.role=.leader)
    (hix : Indexed n.log) (hni : (n.nextIndex p).getD 1≤n.log.length+1) :
    ∃ su msg, n.sendAppend p=.ok {n with sentUpper:=su,outbox:=n.outbox++[(p,msg)]} ∧ AppendMsg n msg := by
  set ni:=(n.nextIndex p).getD 1 with hdef
  have hprev : RaftNode.previousEntry n.log ni=.ok (ni-1,termAt n.log (ni-1)) := by
    unfold RaftNode.previousEntry
    by_cases h1 : ni≤1
    · have h0 : ni-1=0 := by omega
      rw [if_pos h1,h0]
      simp [termAt]
    · have hlt : ni-2<n.log.length := by omega
      have hget : n.log[ni-2]? = some n.log[ni-2] := List.getElem?_eq_getElem hlt
      have hidx:=hix _ _ hget
      rw [if_neg h1,index_ok hget]
      simp only [Except.map,termAt,show ni-1≠0 by omega,ite_false,
        show ni-1-1=ni-2 by omega,hget,Option.map_some,Option.getD_some,hidx]
      congr 2
      omega
  have hsuf : slice n.log (ni-1) n.log.length=.ok (n.log.drop (ni-1)) := by
    rw [slice_ok (by omega) (le_rfl),List.take_length]
  set suffix:=n.log.drop (ni-1) with hsufdef
  set count:=RaftNode.batchCount 0 (suffix.take 1024) with hcount
  have hcle : count ≤ suffix.length := by
    have h1:=batchCount_le 0 (suffix.take 1024)
    rw [length_take] at h1
    omega
  have hent : slice suffix 0 count=.ok (suffix.take count) := by
    rw [slice_ok (Nat.zero_le _) hcle,List.drop_zero]
  have hcnt : (suffix.take count).length=count := by rw [length_take]; omega
  refine ⟨Function.update n.sentUpper p
      (some (saturatingAdd (ni-1) (suffix.take count).length)),
    _,?_,ni-1,suffix.take count,?_,?_,?_,rfl⟩
  · unfold RaftNode.sendAppend
    rw [if_neg (by simp [hrole]),← hdef]
    simp only [hprev,bind,Except.bind,hsuf]
    rw [← hcount,hent]
    rfl
  · rw [hcnt]
    have : suffix.length=n.log.length-(ni-1) := List.length_drop
    omega
  · rw [hcnt]
  · rw [hcnt,hcount]

theorem foldl_sendAppend (ps : List NodeId) (hrole : n.role=.leader)
    (hix : Indexed n.log) (hni : ∀ p∈ps, (n.nextIndex p).getD 1≤n.log.length+1) :
    ∃ su msgs, ps.foldlM RaftNode.sendAppend n = .ok {n with sentUpper:=su,outbox:=n.outbox++msgs} ∧
      ∀ m∈msgs, m.1∈ps ∧ AppendMsg n m.2 := by
  induction ps generalizing n with
  | nil => exact ⟨n.sentUpper,[],by simp [List.foldlM,pure,Except.pure],by simp⟩
  | cons p ps ih =>
    obtain ⟨su,msg,hsend,hmsg⟩:=sendAppend_spec hrole hix (hni p (List.mem_cons_self ..))
    obtain ⟨su',msgs,hfold,hall⟩:=ih
      (n := {n with sentUpper:=su,outbox:=n.outbox++[(p,msg)]}) hrole hix
      (fun q hq => hni q (List.mem_cons_of_mem _ hq))
    refine ⟨su',(p,msg)::msgs,?_,?_⟩
    · rw [List.foldlM_cons,hsend]
      simp only [bind,Except.bind]
      rw [hfold]
      simp
    · intro m hm
      rcases List.mem_cons.mp hm with rfl | hm
      · exact ⟨List.mem_cons_self ..,hmsg⟩
      · obtain ⟨h1,h2⟩:=hall m hm
        exact ⟨List.mem_cons_of_mem _ h1,h2⟩

theorem broadcastAppend_spec (hrole : n.role=.leader) (hix : Indexed n.log)
    (hni : ∀ p∈n.peers, (n.nextIndex p).getD 1≤n.log.length+1) :
    ∃ su msgs, n.broadcastAppend=.ok {n with sentUpper:=su,outbox:=n.outbox++msgs} ∧
      ∀ m∈msgs, m.1∈n.peers ∧ AppendMsg n m.2 := by
  obtain ⟨su,msgs,hfold,hall⟩:=foldl_sendAppend n.peers hrole hix hni
  refine ⟨su,msgs,?_,hall⟩
  unfold RaftNode.broadcastAppend
  rw [if_neg (by simp [hrole])]
  exact hfold

end Parrot.Raft
