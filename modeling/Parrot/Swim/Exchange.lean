import Parrot.Swim.Merge

/-! # Full exchanges

Both sides of a mismatch send their whole tables. -/

namespace Parrot.Swim
open Parrot.Newest

/-- What every table should agree on about a member. -/
def Member.replica (m : Member) : NodeAddrWire × ℕ × MemberStatus := (m.addr,m.incarnation,m.status)

def Membership.replica (s : Membership) (id : String) : Option (NodeAddrWire × ℕ × MemberStatus) :=
  (s.members.get id).map Member.replica

/-- A table that got a `full_sync`. -/
def Membership.synced (s : Membership) (full : List Member) : Membership := (handleGossip fxhash s ⟨[],"",0,some full⟩).2

variable {a b a' b' s : Membership}

/-- A table with one record of `n`. -/
def sampleTable (port : ℕ) : Membership := ((Membership.new 0).mergeEvent (.upsert (sampleMember .alive 1 port))).2

end Parrot.Swim
