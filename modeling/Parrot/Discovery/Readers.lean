import Parrot.Discovery.Merge

/-! # Readers see the table

Every step changes the table and then says what it changed, under one lock. -/

namespace Parrot.Discovery
open Machine Feed Entries

/-- What somebody knows who has read all of a stream. -/
def Stream.view (s : Stream) : Finset String := replay ∅ (s.events.map ReceptionistEvent.change)

/-- A stream that the table gave up was full, or had nobody to read it. -/
def Stream.Ended (s : Stream) : Prop := s.alive=false ∨ s.capacity ≤ s.queued

namespace Receptionist

variable {r : Receptionist}

structure Seen (r : Receptionist) : Prop where
  view : ∀ s∈r.subscribers, s.view=r.entries.paths s.key
  ended : ∀ s∈r.retired, s.Ended

structure Told (r r' : Receptionist) (events : List ReceptionistEvent) : Prop where
  entries : r'.entries=r.entries
  subscribers : ∀ s'∈r'.subscribers, ∃ s∈r.subscribers, s'.key=s.key ∧
    s'.events=s.events++events.filter fun ev => ev.key.str=s.key
  retired : ∀ s∈r'.retired, s∈r.retired ∨ s.Ended

theorem Told.nil (r : Receptionist) : Told r r [] :=
  ⟨rfl,fun s hs => ⟨s,hs,rfl,(List.append_nil _).symm⟩,fun _ hs => .inl hs⟩

theorem Told.trans {a b c : Receptionist} {x y : List ReceptionistEvent} (h : Told a b x) (h' : Told b c y) :
    Told a c (x++y) := by
  refine ⟨h'.entries.trans h.entries,?_,?_⟩
  · intro s'' hs''
    obtain ⟨s',hs',hkey',hev'⟩:=h'.subscribers s'' hs''
    obtain ⟨s,hs,hkey,hev⟩:=h.subscribers s' hs'
    refine ⟨s,hs,hkey'.trans hkey,?_⟩
    rw [hev',hev,hkey,List.filter_append,List.append_assoc]
  · intro s hs
    rcases h'.retired s hs with hs | hs
    · exact h.retired s hs
    · exact .inr hs

theorem broadcast_told (r : Receptionist) (ev : ReceptionistEvent) : Told r (r.broadcast ev) [ev] := by
  refine ⟨rfl,?_,?_⟩
  · intro s' hs'
    obtain ⟨s,hs,rfl⟩:=List.mem_map.mp hs'
    refine ⟨s,List.mem_of_mem_filter hs,?_⟩
    by_cases hkey : s.key=ev.key.str
    · simp [deliver,hkey]
    · simp [deliver,hkey,Ne.symm hkey]
  · intro s hs
    rcases List.mem_append.mp hs with hs | hs
    · exact .inl hs
    · have hfull:=(List.mem_filter.mp hs).2
      right
      cases halive : s.alive with
      | false => exact .inl halive
      | true =>
        simp [accepts,halive] at hfull
        exact .inr hfull.2

theorem broadcastAll_told (events : List ReceptionistEvent) (r : Receptionist) : Told r (r.broadcastAll events) events := by
  induction events generalizing r with
  | nil => exact .nil r
  | cons ev events ih => exact (broadcast_told r ev).trans (ih _)

structure Changed (r r' : Receptionist) (events : List ReceptionistEvent) : Prop where
  good : Good r'.entries
  subscribers : r'.subscribers=r.subscribers
  retired : r'.retired=r.retired
  tracks : Tracks r.entries r'.entries events

theorem Changed.seen {r' r'' : Receptionist} {events : List ReceptionistEvent} (h : Changed r r' events)
    (htold : Told r' r'' events) (hseen : Seen r) : Seen r'' := by
  constructor
  · intro s' hs'
    obtain ⟨s,hs,hkey,hev⟩:=htold.subscribers s' hs'
    rw [h.subscribers] at hs
    have hview:=hseen.view s hs
    rw [Stream.view] at hview
    rw [Stream.view,hev,List.map_append,replay_append,hview,htold.entries,hkey]
    exact h.tracks s.key
  · intro s hs
    rcases htold.retired s hs with hs | hs
    · exact hseen.ended s (h.retired ▸ hs)
    · exact hs

theorem Changed.owners {r' : Receptionist} {events : List ReceptionistEvent} (h : Changed r r' events)
    (owners : Slots.Table (ReceptionistKey × String) ℕ) : Changed r {r' with owners:=owners} events :=
  ⟨h.good,h.subscribers,h.retired,h.tracks⟩

variable {key : ReceptionistKey} {path node : String}

theorem feed_singleton (k : String) (ev : ReceptionistEvent) :
    feed k [ev]=if ev.key.str=k then [ev.change] else [] := by
  by_cases h : ev.key.str=k
  · simp [feed,h]
  · simp [feed,h]

theorem register_changed (h : Good r.entries) (haddr : (split path).map Prod.fst=some node) :
    Changed r (r.register node key path).1 [(r.register node key path).2] := by
  unfold register
  dsimp only
  split
  -- a path that is there already is there after it was added again
  · next hmem =>
    refine ⟨h,rfl,rfl,fun k => ?_⟩
    rw [feed_singleton]
    split
    · next hk =>
      have hin : path∈r.entries.paths k := List.mem_toFinset.mpr (List.mem_map.mpr ⟨_,hk ▸ hmem,rfl⟩)
      exact Finset.insert_eq_of_mem hin
    · rfl
  · next hnew => exact ⟨push_good h hnew haddr,rfl,rfl,push_tracks r.entries ⟨key,path,node⟩⟩

theorem deregister_entries (r : Receptionist) (key : ReceptionistKey) (path : String) :
    (r.deregister key path).1.entries=Function.update r.entries key.str
      (nonempty ((r.entries.list key.str).filter fun e => e.remotePath≠path)) := by
  unfold deregister list
  dsimp only
  rw [forget_entries]
  cases hk : r.entries key.str with
  | none =>
    exact (Function.update_eq_self_iff.mpr hk.symm).symm
  | some l => rfl

theorem deregister_same (r : Receptionist) (key : ReceptionistKey) (path : String) :
    (r.deregister key path).1.subscribers=r.subscribers ∧ (r.deregister key path).1.retired=r.retired := by
  unfold deregister
  dsimp only
  split
  · exact ⟨rfl,rfl⟩
  · exact ⟨rfl,rfl⟩

theorem deregister_changed (h : Good r.entries) (key : ReceptionistKey) (path : String) :
    Changed r (r.deregister key path).1 [(r.deregister key path).2] := by
  obtain ⟨hsubs,hretired⟩:=deregister_same r key path
  refine ⟨?_,hsubs,hretired,?_⟩
  · rw [deregister_entries]
    refine ⟨update_shaped h.toShaped ..,?_⟩
    intro k e he
    rw [list_update] at he
    split at he
    · rw [getD_nonempty] at he
      exact h.addressed _ e (List.mem_of_mem_filter he)
    · exact h.addressed k e he
  · intro k
    have hfeed : feed k [(r.deregister key path).2]=if key.str=k then [Change.removed path] else [] :=
      feed_singleton k (.unregistered key path)
    rw [deregister_entries,hfeed,paths,paths,list_update]
    by_cases hk : key.str=k
    · rw [if_pos hk,if_pos hk.symm,getD_nonempty,hk]
      ext p
      simp only [replay,List.foldl_cons,List.foldl_nil,Change.apply,Finset.mem_erase,List.mem_toFinset,
        List.mem_map,List.mem_filter,decide_eq_true_eq]
      constructor
      · rintro ⟨hne,e,he,rfl⟩
        exact ⟨e,⟨he,hne⟩,rfl⟩
      · rintro ⟨e,⟨he,hne⟩,rfl⟩
        exact ⟨hne,e,he,rfl⟩
    · rw [if_neg hk,if_neg fun heq => hk heq.symm]
      rfl

theorem removeUnavailable_changed (h : Good r.entries) {«local» : String} {available order : List String}
    (horder : System.Keys r.entries order) :
    Changed r (r.removeUnavailable «local» available order).1 (r.removeUnavailable «local» available order).2 := by
  unfold removeUnavailable
  dsimp only
  obtain ⟨owners,heq⟩:=forgetRemovedOwners_eq
    (r.entries.retain (fun e => !(decide (e.node≠«local»)&&!available.contains e.node)) order).2
    {r with entries :=
      (r.entries.retain (fun e => !(decide (e.node≠«local»)&&!available.contains e.node)) order).1}
  rw [heq]
  exact ⟨retain_good h _ order,rfl,rfl,retain_tracks h _ horder⟩

theorem mergeSync_changed (h : Good r.entries) {sync : ReceptionistSync} {order : List String}
    (horder : System.Keys r.entries order) (hfrom : ∀ e∈sync.entries, e.node=sync.from)
    (haddr : ∀ e∈sync.entries, (split e.remotePath).map Prod.fst=some e.node) :
    Changed r (r.mergeSync sync order).1 (r.mergeSync sync order).2 := by
  have hgood:=mergeSync_good h horder hfrom haddr
  have htracks:=mergeSync_tracks h horder hfrom
  obtain ⟨owners,heq⟩:=mergeSync_eq h.toShaped horder hfrom
  rw [heq] at hgood htracks ⊢
  exact ⟨hgood,rfl,rfl,htracks⟩

theorem subscribe_seen (hseen : Seen r) (key : ReceptionistKey) (buf : ℕ) : Seen (r.subscribe key buf) := by
  unfold subscribe
  dsimp only
  split
  · constructor
    · intro s hs
      rcases List.mem_append.mp hs with hs | hs
      · exact hseen.view s (List.mem_of_mem_filter hs)
      · rw [List.mem_singleton.mp hs]
        have hevents : ((r.entries.list key.str).map ReceptionistEntry.registered).map ReceptionistEvent.change =
            ((r.entries.list key.str).map ReceptionistEntry.remotePath).map .added := by
          rw [List.map_map,List.map_map]
          rfl
        rw [Stream.view,hevents,replay_snapshot]
        rfl
    · intro s hs
      rcases List.mem_append.mp hs with hs | hs
      · exact hseen.ended s hs
      · exact .inl (by simpa using (List.mem_filter.mp hs).2)
  · exact hseen

end Receptionist

namespace System
open Receptionist

variable {s s' : System}

structure Inv (s : System) : Prop where
  good : Good s.table.entries
  seen : Seen s.table

theorem Inv.scopes (hi : Inv s) (scopes : ℕ → RegistrationScope) : Inv {s with scopes:=scopes} := ⟨hi.good,hi.seen⟩

theorem start_inv (node : String) (acl : String → String → Bool) : Inv (start node acl) := by
  refine ⟨⟨⟨?_,?_,?_⟩,?_⟩,?_,?_⟩
  · exact fun key h => absurd h (Option.some_ne_none _).symm
  · exact fun key e he => absurd he List.not_mem_nil
  · exact fun key => List.nodup_nil
  · exact fun key e he => absurd he List.not_mem_nil
  · exact fun s hs => absurd hs List.not_mem_nil
  · exact fun s hs => absurd hs List.not_mem_nil

theorem broadcasting_inv (hi : Inv s) {r : Receptionist} {ev : ReceptionistEvent} (h : Changed s.table r [ev]) :
    Inv (s.broadcasting (r,ev)) := by
  have htold:=broadcast_told r ev
  exact ⟨htold.entries ▸ h.good,h.seen htold hi.seen⟩

theorem broadcastingAll_inv (hi : Inv s) {r : Receptionist} {events : List ReceptionistEvent}
    (h : Changed s.table r events) : Inv (s.broadcastingAll (r,events)) := by
  have htold:=broadcastAll_told events r
  exact ⟨htold.entries ▸ h.good,h.seen htold hi.seen⟩

theorem qualify_addressed {node path qualified : String} (h : qualify node path=some qualified) :
    (split qualified).map Prod.fst=some node := by
  unfold qualify at h
  split at h
  · contradiction
  · obtain ⟨hq,heq⟩:=Option.ite_none_right_eq_some.mp h
    rw [← Option.some.inj heq]
    exact hq

theorem admitted_addressed {key : ReceptionistKey} {path qualified : String}
    (h : s.admitted key path=some qualified) : (split qualified).map Prod.fst=some s.node := by
  unfold admitted at h
  split at h
  · exact qualify_addressed h
  · contradiction

theorem accepts_entries {link : Link} {sync : ReceptionistSync} (h : s.accepts link sync=true) :
    ∀ e∈sync.entries, e.node=sync.from ∧ (split e.remotePath).map Prod.fst=some e.node := by
  intro e he
  simp only [accepts,Bool.and_eq_true,List.all_eq_true,decide_eq_true_eq,Option.any_eq_true] at h
  obtain ⟨⟨hnode,⟨node,path⟩,hsplit,hfrom,-⟩,-⟩:=h.1.2 e he
  refine ⟨hnode,?_⟩
  rw [hsplit,hnode,← hfrom]
  rfl

theorem withdrawn_inv (hi : Inv s) (key : ReceptionistKey) (path : String) (generation : ℕ) :
    Inv (if owned s.table key path generation then s.broadcasting (s.table.deregister key path) else s) := by
  split
  · exact broadcasting_inv hi (deregister_changed hi.good key path)
  · exact hi

theorem onStream_inv (hi : Inv s) (i : ℕ) {f : Stream → Stream}
    (hf : ∀ stream, (f stream).key=stream.key ∧ (f stream).events=stream.events) : Inv (s.onStream i f) := by
  refine ⟨hi.good,?_,hi.seen.ended⟩
  intro stream hs
  obtain ⟨j,hj,rfl⟩:=List.mem_iff_getElem.mp hs
  have hlen : j<s.table.subscribers.length := by simpa [onStream] using hj
  have hview:=hi.seen.view _ (List.getElem_mem hlen)
  simp only [onStream,List.getElem_modify]
  split
  · rw [Stream.view,(hf _).1,(hf _).2]
    exact hview
  · exact hview

theorem step_inv (hi : Inv s) (h : Step s s') : Inv s' := by
  cases h with
  | register key path =>
    unfold register
    split
    · exact hi
    · next hq => exact broadcasting_inv hi (register_changed hi.good (admitted_addressed hq))
  | deregister key path =>
    unfold deregister
    split
    · exact hi
    · exact broadcasting_inv hi (deregister_changed hi.good ..)
  | registerScoped key path generation others =>
    unfold registerScoped
    split
    · exact hi
    · next hq =>
      dsimp only
      split
      · exact hi
      · split
        · exact hi
        · apply Inv.scopes
          exact broadcasting_inv hi ((register_changed hi.good (admitted_addressed hq)).owners _)
  | deregisterScoped key path generation =>
    unfold deregisterScoped
    split
    · exact hi
    · dsimp only
      split
      · exact hi
      · apply Inv.scopes
        exact withdrawn_inv hi key _ generation
  | closeScope generation => exact ⟨hi.good,hi.seen⟩
  | retire generation =>
    unfold retire
    dsimp only
    split
    · exact ⟨hi.good,hi.seen⟩
    · exact ⟨hi.good,hi.seen⟩
  | cleanup callback =>
    unfold cleanup
    split
    · exact withdrawn_inv (s := {s with cleanups:=s.cleanups.erase callback}) ⟨hi.good,hi.seen⟩ ..
    · exact hi
  | receive link sync order horder =>
    unfold receive
    split
    · next hacc =>
      have hentries:=accepts_entries hacc
      exact broadcastingAll_inv hi (mergeSync_changed hi.good horder (fun e he => (hentries e he).1)
        fun e he => (hentries e he).2)
    · exact hi
  | tick available order horder => exact broadcastingAll_inv hi (removeUnavailable_changed hi.good horder)
  | subscribe key buf =>
    unfold subscribe
    split
    · refine ⟨?_,subscribe_seen hi.seen key buf⟩
      unfold Receptionist.subscribe
      dsimp only
      split
      · exact hi.good
      · exact hi.good
    · exact hi
  | read i => exact onStream_inv hi i fun _ => ⟨rfl,rfl⟩
  | leave i => exact onStream_inv hi i fun _ => ⟨rfl,rfl⟩

theorem reachable_inv {node : String} {acl : String → String → Bool} (h : Reachable node acl s) : Inv s := by
  induction h with
  | start => exact start_inv node acl
  | step _ hs ih => exact step_inv ih hs

structure Faithful (s : System) : Prop where
  /- Whoever read all of an open stream knows the paths of its key. -/
  view : ∀ stream∈s.table.subscribers, stream.view=s.table.entries.paths stream.key
  /- Only a stream that was full, or that nobody reads, is closed. -/
  closed : ∀ stream∈s.table.retired, stream.Ended
  distinct : ∀ key, (s.table.entries.list key).Nodup
  nonempty : ∀ key, s.table.entries key≠some []
  /- A snapshot that is merged again says nothing, whatever it holds. -/
  again : ∀ sync order order', Keys s.table.entries order → Keys (s.table.mergeSync sync order).1.entries order' →
    ((s.table.mergeSync sync order).1.mergeSync sync order').2=[]
  others : ∀ sync order, Keys s.table.entries order → ∀ key,
    ((s.table.mergeSync sync order).1.entries.list key).filter (fun e => e.node≠sync.from) =
      (s.table.entries.list key).filter fun e => e.node≠sync.from

theorem readers_see_table {node : String} {acl : String → String → Bool} {s : System} (h : Reachable node acl s) :
    Faithful s := by
  have hi:=reachable_inv h
  constructor
  · exact hi.seen.view
  · exact hi.seen.ended
  · exact hi.good.distinct
  · exact hi.good.nonempty
  · exact fun sync order order' horder horder' => mergeSync_again hi.good.toShaped horder horder'
  · exact fun sync order horder key => mergeSync_others hi.good.toShaped horder key

def oneReader : System :=
  let key : ReceptionistKey := ⟨"edge/a",by decide⟩
  ((start "n" fun _ _ => true).register key "/user/a").subscribe key 64

theorem readers_see_table_one : oneReader.table.subscribers.map (fun stream => stream.events.length)=[1] ∧
    Faithful oneReader :=
  ⟨by decide,readers_see_table (.step (.step .start (.register ..)) (.subscribe ..))⟩

/-- Every entry of a table that a run reaches is where its path says, and what comes over a link
changes no entry of another node or of this one. -/
theorem peers_isolated {node : String} {acl : String → String → Bool} (h : Reachable node acl s) (link : Link)
    (sync : ReceptionistSync) {order : List String} (horder : Keys s.table.entries order) (key : String)
    (e : ReceptionistEntry) : (e∈s.table.entries.list key → (split e.remotePath).map Prod.fst=some e.node) ∧
    (e.node≠link.node ∨ e.node=s.node →
      (e∈(s.receive link sync order).table.entries.list key ↔ e∈s.table.entries.list key)) := by
  have hgood:=(reachable_inv h).good
  refine ⟨hgood.addressed key e,fun hnode => ?_⟩
  unfold receive
  split
  · next hacc =>
    simp only [accepts,Bool.and_eq_true,decide_eq_true_eq] at hacc
    obtain ⟨hlink,hlocal⟩:=hacc.1.1.1.1
    have hfrom : e.node≠sync.from := by
      rintro heq
      rcases hnode with hnode | hnode
      · exact hnode (heq.trans hlink)
      · exact hlocal (heq.symm.trans hnode)
    have htold:=Receptionist.broadcastAll_told (s.table.mergeSync sync order).2 (s.table.mergeSync sync order).1
    have hothers:=congrArg (e∈·) (@Receptionist.mergeSync_others _ sync _ hgood.toShaped horder key)
    rw [← htold.entries] at hothers
    simpa [hfrom,broadcastingAll] using hothers
  · rfl

theorem peers_isolated_start :
    let edge : ReceptionistKey := ⟨"edge/a",by decide⟩
    let s:=(start "n" fun _ _ => true).receive ⟨"m",true,Caps.receptionistSync,true⟩ ⟨"m",[⟨edge,"parrot://m/user/a","m"⟩]⟩ []
    (s.table.entries.list "edge/a").length=1 ∧ ⟨edge,"parrot://n/user/a","n"⟩∉s.table.entries.list "edge/a" :=
  ⟨by decide +kernel,fun h => List.not_mem_nil
    (((peers_isolated .start _ _ ⟨List.nodup_nil,fun _ h => by cases h⟩ "edge/a" _).2 (.inr rfl)).mp h)⟩

end System

end Parrot.Discovery
