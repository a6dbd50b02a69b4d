import Parrot.Directory.Reads

/-! # Requests are applied once

The request table remembers the first committed entry of an identity; replaying another one
changes nothing. -/

namespace Parrot.Directory
open Machine Parrot.Raft ReplicatedLog
open CrashFs (Disk)

variable {codec : DirectoryCodec} {storage : SnapshotCodec} {name : String} {members : Finset NodeId} {a a' : Ghost}
variable {lows : NodeId → ℕ} {g g' : Group} {i j : NodeId} {x y : DurableDirectory}

def DurableDirectory.prefixApplied (h : DurableDirectory) : List LogEntry := h.raft.log.take h.applied

theorem GroupInv.applied (hinv : GroupInv codec storage name members a lows g) (hx : (g.replica i).host=some x) :
    (∃ T, Fixed members a T x.prefixApplied) ∧ x.prefixApplied.length=x.applied := by
  obtain ⟨hfix,-,-,hlen⟩:=hinv.fixed hx
  have happ:=(hinv.current i x hx).applied_le
  constructor
  · exact ⟨_,hfix.shorter (List.take_prefix_take_left happ)⟩
  · rw [DurableDirectory.prefixApplied,List.length_take]
    omega

theorem GroupInv.raise (hinv : GroupInv codec storage name members a lows g)
    (hx : (g.replica i).host=some x) (hlive : x.isClosed=false) :
    GroupInv codec storage name members a (Function.update lows i x.raft.commitIndex) g := by
  obtain ⟨handed,hraft⟩:=hinv.raft
  refine ⟨⟨handed,{hraft with slots:=?_}⟩,hinv.current⟩
  intro k hk
  by_cases hki : k=i
  · subst hki
    rw [Function.update_self]
    have hs:=hraft.slot (slot_cluster hx)
    obtain ⟨hn,hsaved,hd⟩:=(hs.host x.raft rfl).live ((isClosed_false x).mp hlive).2
    have hlow : x.raft.commitIndex≤x.raft.node.commitIndex := by
      rw [DurableRaft.commitIndex,hsaved]
      exact le_rfl
    have hslot : (g.cluster handed).slot k=⟨(g.replica k).disk,some x.raft⟩ := by
      simp [Group.cluster,Replica.slot,hx]
    rw [hslot]
    refine ⟨hs.bounded,hd.imp ?_,?_⟩
    · intro o ho
      rw [ho,hsaved]
      exact recoverable_saved hn hlow
    · intro z hz
      cases hz
      exact ⟨(hs.host x.raft rfl).saved,le_rfl,(hs.host x.raft rfl).live⟩
  · rw [Function.update_of_ne hki]
    exact hraft.slots k hk

theorem exactly_once_requests (hr : Reachable codec storage name members g)
    (hrun : Run codec storage name members g g') (hx : (g.replica i).host=some x)
    (hy : (g'.replica j).host=some y) :
    (x.applied=y.applied → x.view=y.view) ∧
    (i=j → x.isClosed=false → y.isClosed=false → x.applied≤y.applied) ∧
    ∀ client id k e, First codec client id x.prefixApplied k e →
      ∃ r digest, decodeStored codec e.cmd=.ok (.request r) ∧ directoryCommandDigest codec r.command=.ok digest ∧
        (replay codec (x.prefixApplied.take (k+1))).sm =
          (replay codec (x.prefixApplied.take k)).sm.applyValidated r.command ∧
        (∀ k' e', y.prefixApplied[k']? = some e' → Carries codec client id e' → k'≠k →
          replay codec (y.prefixApplied.take (k'+1))=replay codec (y.prefixApplied.take k')) ∧
        (k<y.applied → y.isClosed=false → ∀ d, y.requestStatus codec client id d =
          .ok (.ok (if digest=d then .applied e.index e.term
            ((replay codec (x.prefixApplied.take k)).sm.version+1) else .conflict))) := by
  obtain ⟨a,hinv⟩:=group_reachable_inv hr
  obtain ⟨a',hg,hinv'⟩:=group_run_inv hrun hinv
  obtain ⟨⟨T,hfx⟩,hlx⟩:=hinv.applied hx
  obtain ⟨⟨T',hfy⟩,hly⟩:=hinv'.applied hy
  obtain ⟨handed,hraft'⟩:=hinv'.raft
  have hcmp:=Decided.comparable (majority_inter members) hraft'.sound (hfx.mono hg (Nat.le_refl T)) hfy
  have hvx:=(hinv.current i x hx).view
  have hvy:=(hinv'.current j y hy).view
  refine ⟨?_,?_,?_⟩
  · intro happ
    have heq : x.prefixApplied=y.prefixApplied := by
      rcases hcmp with hp | hp
      · exact hp.eq_of_length (by omega)
      · exact (hp.eq_of_length (by omega)).symm
    rw [hvx,hvy]
    exact congrArg (replay codec) heq
  · rintro rfl hxl hyl
    obtain ⟨b,-,hb⟩:=group_run_inv hrun (hinv.raise hx hxl)
    obtain ⟨-,-,hlow,-⟩:=hb.fixed hy
    rw [Function.update_self] at hlow
    rw [((hinv.current i x hx).live hxl).2,((hinv'.current i y hy).live hyl).2]
    exact hlow
  · intro client id k e hfirst
    obtain ⟨r,hd,rfl,rfl⟩:=hfirst.carries
    obtain ⟨hident,digest,hdig⟩:=decode_request codec hd
    have hk:=(List.getElem?_eq_some_iff.mp hfirst.get).1
    have hagree : ∀ {m}, m≤x.applied → m≤y.applied → y.prefixApplied.take m=x.prefixApplied.take m :=
      fun h1 h2 => take_comparable hcmp (by omega) (by omega)
    have hother : k<y.applied → First codec r.client r.id y.prefixApplied k e :=
      fun hky => hfirst.mono (hagree (by omega) (by omega))
    refine ⟨r,digest,hd,hdig,?_,?_,?_⟩
    · rw [replay_take_succ hfirst.get,applyEntry_new hd hdig hfirst.unseen]
    · intro k' e' hget hc hne
      by_cases hky : k<y.applied
      · exact (hother hky).repeated hget hc hne
      · -- the replica is behind the first entry: it has seen none
        have hk':=(List.getElem?_eq_some_iff.mp hget).1
        rw [← List.getElem?_take_of_lt (Nat.lt_succ_self k'),hagree (by omega) (by omega),
          List.getElem?_take_of_lt (Nat.lt_succ_self k')] at hget
        exact absurd hc (hfirst.first k' e' (by omega) hget)
    · intro hky hyl d
      have htable:=(hother hky).table hd hdig hky
      rw [List.take_of_length_le hly.le,hagree (m := k) (by omega) (by omega)] at htable
      refine requestStatus_known hyl hident ?_ d
      rw [hvy]
      exact htable

theorem exactly_once_requests_solo :
    (soloDirectory 1).requestStatus .standard "c" "r" (Sha256.digest (cmdCodec.encode (.remove "n"))) =
      .ok (.ok (.applied 1 1 1)) := by
  have hhost : ((soloGroup 1).replica "a").host=some (soloDirectory 1) := by
    rw [soloGroup,Group.replica_set]
  have hfirst : First .standard "c" "r" (soloDirectory 1).prefixApplied 0 ⟨1,1,soloBytes⟩ :=
    ⟨rfl,⟨soloRequest,request_decoded,rfl,rfl⟩,fun k _ hk => absurd hk (Nat.not_lt_zero k)⟩
  obtain ⟨-,-,h⟩:=exactly_once_requests solo_group_reachable .refl hhost hhost
  obtain ⟨r,digest,hd,hdig,-,-,hstatus⟩:=h "c" "r" 0 _ hfirst
  obtain rfl : r=soloRequest := StoredCommand.request.inj (Except.ok.inj (hd.symm.trans request_decoded))
  rw [show soloRequest.command=.remove "n" from rfl,solo_digest] at hdig
  cases hdig
  have happlied:=hstatus (by decide) rfl (Sha256.digest (cmdCodec.encode (.remove "n")))
  rw [if_pos rfl] at happlied
  exact happlied

end Parrot.Directory
