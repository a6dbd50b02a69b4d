import Parrot.Lib.Newest
import Parrot.Swim.Membership

/-! # Merging views of other members

Without an owner's record a table is one `newer` register for each node id. -/

namespace Parrot.Swim
open Parrot.Newest

variable {s : Membership} {m : Member} {id : String}

theorem localMember_nodeId (s : Membership) (m : Member) : (s.localMember m).nodeId=m.nodeId := by
  unfold Membership.localMember
  cases m.status <;> rfl

theorem localMember_status (s : Membership) (m : Member) :
    (s.localMember m).incarnation=m.incarnation ∧ (s.localMember m).status=m.status := by
  unfold Membership.localMember
  cases m.status <;> exact ⟨rfl,rfl⟩

theorem localMember_version (s : Membership) (m : Member) : (s.localMember m).version=m.version := by
  obtain ⟨hinc,hstatus⟩:=localMember_status s m
  unfold Member.version
  rw [hinc,hstatus]

theorem localMember_congr {t : Members} (m : Member) : ({s with members:=t} : Membership).localMember m=s.localMember m := by
  unfold Membership.localMember
  cases m.status <;> rfl

section
variable (h : s.owner=none)
include h

theorem owns_none (id : String) : s.owns id=none := by
  unfold Membership.owns
  rw [h]
  rfl

theorem upsert_cases (m : Member) :
    (level Member.version (s.members.get m.nodeId)<(m.version : WithBot (ℕ ×ₗ ℕ)) ∧
      s.mergeEvent (.upsert m)=(true,{s with members:=s.members.insert (s.localMember m)})) ∨
    ((m.version : WithBot (ℕ ×ₗ ℕ))≤level Member.version (s.members.get m.nodeId) ∧
      s.mergeEvent (.upsert m)=(false,s)) := by
  unfold Membership.mergeEvent
  simp only [owns_none h]
  cases hget : s.members.get m.nodeId with
  | none => exact .inl ⟨WithBot.bot_lt_coe _,rfl⟩
  | some cur =>
    by_cases hlt : cur.version < m.version
    · exact .inl ⟨WithBot.coe_lt_coe.mpr hlt,if_pos hlt⟩
    · exact .inr ⟨WithBot.coe_le_coe.mpr (not_lt.mp hlt),if_neg hlt⟩

theorem upsert_get (m : Member) (id : String) : (s.mergeEvent (.upsert m)).2.members.get id=if
    id=m.nodeId then newer Member.version (s.members.get id) (some (s.localMember m)) else s.members.get id := by
  have hid : id=m.nodeId ↔ id=(s.localMember m).nodeId := by rw [localMember_nodeId]
  have hoffer : level Member.version (some (s.localMember m))=(m.version : WithBot (ℕ ×ₗ ℕ)) :=
    congrArg _ (localMember_version s m)
  rcases upsert_cases h m with ⟨hlt,heq⟩ | ⟨hle,heq⟩
  · rw [heq,Members.get_insert]
    by_cases hkey : id=m.nodeId
    · rw [if_pos hkey,if_pos (hid.mp hkey),hkey]
      rw [← hoffer] at hlt
      cases hget : s.members.get m.nodeId with
      | none => rfl
      | some cur =>
        rw [hget] at hlt
        exact (if_pos (WithBot.coe_lt_coe.mp hlt)).symm
    · rw [if_neg hkey,if_neg fun hk => hkey (hid.mpr hk)]
  · rw [heq]
    split
    · rename_i hkey
      rw [hkey,newer_eq_left _ (hoffer.le.trans hle)]
    · rfl

theorem upsert_frame (m : Member) : ∃ t, (s.mergeEvent (.upsert m)).2={s with members:=t} := by
  rcases upsert_cases h m with ⟨-,heq⟩ | ⟨-,heq⟩
  · exact ⟨_,congrArg Prod.snd heq⟩
  · exact ⟨s.members,congrArg Prod.snd heq⟩

theorem mergeAll_get (l : List Member) (id : String) :
    (s.mergeAll (l.map .upsert)).members.get id=((l.filter fun m => m.nodeId=id).map s.localMember).foldl
    (fun a x => newer Member.version a (some x)) (s.members.get id) := by
  induction l generalizing s with
  | nil => rfl
  | cons m l ih =>
    obtain ⟨t,ht⟩:=upsert_frame h m
    have hget:=upsert_get h m id
    have hlocal : ({s with members:=t} : Membership).localMember=s.localMember := funext fun x => localMember_congr x
    rw [ht] at hget
    unfold Membership.mergeAll at ih ⊢
    rw [List.map_cons,List.foldl_cons,ht,ih (s := {s with members:=t}) h,hget,hlocal]
    by_cases hid : m.nodeId=id
    · rw [if_pos hid.symm,List.filter_cons_of_pos (by simp [hid]),List.map_cons,List.foldl_cons]
    · rw [if_neg fun heq => hid heq.symm,List.filter_cons_of_neg (by simp [hid])]

theorem mergeAll_level (l : List Member) (id : String) : IsGreatest
    ({level Member.version (s.members.get id)} ∪ {v | ∃ m∈l, m.nodeId=id ∧ v=(m.version : WithBot (ℕ ×ₗ ℕ))})
    (level Member.version ((s.mergeAll (l.map .upsert)).members.get id)) := by
  have hsets : {v | ∃ x∈(l.filter fun m => m.nodeId=id).map s.localMember, v=(x.version : WithBot (ℕ ×ₗ ℕ))} =
      {v | ∃ m∈l, m.nodeId=id ∧ v=(m.version : WithBot (ℕ ×ₗ ℕ))} := by
    ext v
    constructor
    · intro hv
      obtain ⟨x,hx,hv⟩:=hv
      obtain ⟨m,hm,rfl⟩:=List.mem_map.mp hx
      obtain ⟨hm,hid⟩:=List.mem_filter.mp hm
      exact ⟨m,hm,of_decide_eq_true hid,hv.trans (congrArg _ (localMember_version s m))⟩
    · intro hv
      obtain ⟨m,hm,hid,hv⟩:=hv
      exact ⟨s.localMember m,List.mem_map_of_mem (List.mem_filter.mpr ⟨hm,decide_eq_true hid⟩),
        hv.trans (congrArg _ (localMember_version s m).symm)⟩
  rw [mergeAll_get h,← hsets]
  exact level_fold Member.version _ _

end

theorem level_status {a b : Option Member} (h : level Member.version a=level Member.version b) :
    a.map (fun m => (m.incarnation,m.status))=b.map fun m => (m.incarnation,m.status) := by
  cases a with
  | none =>
    cases b with
    | none => rfl
    | some y => contradiction
  | some x =>
    cases b with
    | none => contradiction
    | some y =>
      obtain ⟨hinc,hrank⟩:=Prod.mk.inj (congrArg ofLex (WithBot.coe_inj.mp h))
      exact congrArg some (Prod.ext hinc (statusRank_injective hrank))

/-- Merging is a join of versions: any order and any repetition of the events ends at the
greatest, and an event that is not greater changes nothing. -/
theorem merge_is_join (s : Membership) (howner : s.owner=none) (events : List Member) :
    (∀ id, IsGreatest ({level Member.version (s.members.get id)} ∪
        {v | ∃ m∈events, m.nodeId=id ∧ v=(m.version : WithBot (ℕ ×ₗ ℕ))})
      (level Member.version ((s.mergeAll (events.map .upsert)).members.get id))) ∧
    (∀ (events' : List Member) (id : String), (∀ m, m∈events' ↔ m∈events) →
      ((s.mergeAll (events'.map .upsert)).members.get id).map (fun m => (m.incarnation,m.status)) =
        ((s.mergeAll (events.map .upsert)).members.get id).map fun m => (m.incarnation,m.status)) ∧
    ∀ m, ¬ level Member.version (s.members.get m.nodeId)<(m.version : WithBot (ℕ ×ₗ ℕ)) →
      s.mergeEvent (.upsert m)=(false,s) := by
  refine ⟨mergeAll_level howner events,?_,?_⟩
  · intro events' id hsame
    have hgreatest:=mergeAll_level howner events' id
    simp only [hsame] at hgreatest
    exact level_status (hgreatest.unique (mergeAll_level howner events id))
  · intro m hm
    rcases upsert_cases howner m with ⟨hlt,-⟩ | ⟨-,heq⟩
    · exact absurd hlt hm
    · exact heq

/-- A record of `n` at one address. -/
def sampleMember (status : MemberStatus) (incarnation port : ℕ) : Member :=
  ⟨"n",⟨"n","tcp","10.0.0.1",port⟩,status,incarnation,0,[]⟩

theorem merge_is_join_swapped : (Membership.new 0).owner=none ∧
    (((Membership.new 0).mergeAll ([sampleMember .alive 2 1,sampleMember .dead 1 1,sampleMember .alive 2 1].map
        .upsert)).members.get "n").map (fun m => (m.incarnation,m.status)) =
      (((Membership.new 0).mergeAll ([sampleMember .dead 1 1,sampleMember .alive 2 1].map .upsert)).members.get "n").map
        fun m => (m.incarnation,m.status) :=
  ⟨rfl,(merge_is_join (Membership.new 0) rfl [sampleMember .dead 1 1,sampleMember .alive 2 1]).2.1 _ "n"
    fun m => by simp [or_comm]⟩

end Parrot.Swim
