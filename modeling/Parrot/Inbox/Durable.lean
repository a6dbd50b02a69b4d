import Parrot.Inbox.Store

/-! # What an inbox keeps

At every point of a call the snapshot file is the last published snapshot or the one
the call is publishing, and a call that succeeds leaves no doubt which. -/

namespace Parrot.Inbox
open Machine CrashFs
open Bincode (leBytes ofLeBytes)
open Wal (checksum)

variable {codec : InboxCodec} {limits : InboxLimits} {d : Disk InboxFile} {s : Saved} {store : Store}
  {P Q : Option Saved → Prop}

variable (codec) in
structure Keeps (d : Disk InboxFile) (P : Option Saved → Prop) : Prop where
  bounded : d.Bounded
  settled : d.Settled .state fun o => ∃ s, P s ∧ o=s.map (image codec)

theorem Keeps.imp (h : Keeps codec d P) (hpq : ∀ o, P o → Q o) : Keeps codec d Q := by
  refine ⟨h.bounded,h.settled.imp ?_⟩
  intro o ho
  obtain ⟨s,hs,heq⟩:=ho
  exact ⟨s,hpq s hs,heq⟩

theorem Keeps.crash (h : Keeps codec d P) (kept : ℕ) (cut : ℕ → ℕ) : Keeps codec (d.crash kept cut) P :=
  ⟨h.bounded.crash kept cut,h.settled.crash kept cut⟩

theorem Keeps.read (h : Keeps codec d P) : ∃ o, P o ∧ d.read .state=o.map (image codec) := h.settled.read

theorem empty_keeps (h : P none) : Keeps codec (Disk.empty : Disk InboxFile) P :=
  ⟨Disk.empty_bounded,Disk.empty_settled ⟨none,h,rfl⟩⟩

theorem settled_keeps (hb : d.Bounded) (hs : d.Settled .state (· = some (image codec s))) :
    Keeps codec d (· = some s) := by
  refine ⟨hb,hs.imp ?_⟩
  intro o ho
  exact ⟨some s,rfl,ho⟩

theorem image_eq (codec : InboxCodec) (s : Saved) :
    image codec s=magic++(leBytes 4 (checksum (codec.encode s))++codec.encode s) := by
  simp [image,chunks]

theorem image_body (codec : InboxCodec) (s : Saved) : (image codec s).drop 12=codec.encode s := by
  rw [image_eq,← List.append_assoc]
  exact List.drop_left' (by simp [magic])

theorem load_image {s' : Saved} (h : load codec limits (image codec s)=.ok s') : s'=s := by
  unfold load at h
  obtain ⟨-,h⟩:=Except.of_ite_left h
  rw [image_body] at h
  cases hdec : codec.decode limits (codec.encode s) with
  | error e =>
    rw [hdec] at h
    contradiction
  | ok x =>
    rw [hdec] at h
    cases h
    exact codec.decode_encode _ _ _ hdec

theorem accept_image {node path : String} {s' : Saved}
    (h : accept codec limits node path (image codec s)=.ok s') : s'=s := by
  obtain ⟨x,hload,h⟩:=bind_eq_ok.mp h
  obtain ⟨-,h⟩:=Except.of_ite_left h
  obtain ⟨_,-,h⟩:=bind_eq_ok.mp h
  cases h
  exact load_image hload

theorem write_cases (budget : ℕ) (h : Keeps codec d P) :
    store.write codec limits budget s d=⟨d,store,.error .capacity⟩ ∨
    (∃ d', store.write codec limits budget s d=⟨d',{store with failed:=true},.error .io⟩ ∧
      Keeps codec d' fun o => P o ∨ o=some s) ∨
    ∃ d', store.write codec limits budget s d=⟨d',store,.ok ()⟩ ∧ Keeps codec d' (· = some s) := by
  unfold Store.write
  split
  · exact .inl rfl
  · cases hexec : d.exec budget (replace .next .state (chunks codec s)) with
    | mk d' left =>
      cases left with
      | none =>
        obtain ⟨hb,hs⟩:=Disk.replace_stopped h.bounded h.settled (show InboxFile.state ≠ .next by decide)
          (Disk.exec_stopped hexec)
        refine .inr (.inl ⟨d',rfl,hb,hs.imp ?_⟩)
        intro o ho
        rcases ho with ⟨x,hx,heq⟩ | heq
        · exact ⟨x,.inl hx,heq⟩
        · exact ⟨some s,.inr rfl,heq⟩
      | some left =>
        obtain ⟨hb,hs⟩:=Disk.replace_completed h.bounded h.settled (show InboxFile.state ≠ .next by decide)
          (Disk.exec_completed hexec)
        exact .inr (.inr ⟨d',rfl,settled_keeps hb hs⟩)

theorem tidy_keeps {budget : ℕ} {d' : Disk InboxFile} {left : Option ℕ} (h : Keeps codec d P)
    (hexec : d.exec budget ((if (d.read .next).isSome then [Effect.unlink InboxFile.next,.syncDir] else [])++
      [.sync .state,.syncDir])=(d',left)) :
    Keeps codec d' P ∧ ∀ n, left=some n → d.read .state=some (image codec s) → Keeps codec d' (· = some s) := by
  have hnames : InboxFile.state ≠ .next := by decide
  have hsplit : (if (d.read .next).isSome then [Effect.unlink InboxFile.next,.syncDir] else [])++
      [Effect.sync InboxFile.state,.syncDir]=((if (d.read .next).isSome then
        [Effect.unlink InboxFile.next,.syncDir] else [])++[Effect.sync .state])++[.syncDir] := by simp
  rw [hsplit] at hexec
  have hkeep : ∀ e∈(if (d.read .next).isSome then [Effect.unlink InboxFile.next,.syncDir] else [])++
      [Effect.sync .state], Disk.Housekeeping InboxFile.next .state e := by
    intro e he
    rcases List.mem_append.mp he with he | he
    · split at he
      · rcases List.mem_pair.mp he with rfl | rfl
        · exact .inl rfl
        · exact .inr (.inr rfl)
      · contradiction
    · exact .inr (.inl (List.mem_singleton.mp he))
  have hstopped : Keeps codec d' P := by
    obtain ⟨hb,hs⟩:=Disk.housekeeping_stopped h.bounded h.settled hnames (by
      intro e he
      rcases List.mem_append.mp he with he | he
      · exact hkeep e he
      · exact .inr (.inr (List.mem_singleton.mp he))) (Disk.exec_stopped hexec)
    exact ⟨hb,hs⟩
  refine ⟨hstopped,?_⟩
  rintro n rfl hread
  obtain ⟨hb,hs⟩:=Disk.housekeeping_completed h.bounded h.settled hnames hkeep (Disk.exec_completed hexec)
  rw [hread] at hs
  exact settled_keeps hb hs

theorem open_keeps (node path : String) (initial : Bytes) (budget : ℕ) (h : Keeps codec d P) :
    Keeps codec (Store.open codec limits node path initial budget d).1
      (fun o => P o ∨ P none ∧ o=some (Saved.initial node path initial)) ∧
    ∀ store, (Store.open codec limits node path initial budget d).2=.ok store →
      Keeps codec (Store.open codec limits node path initial budget d).1 (· = some store.saved) ∧
      (P (some store.saved) ∨ P none ∧ store.saved=Saved.initial node path initial) := by
  have hsame : Keeps codec d fun o => P o ∨ P none ∧ o=some (Saved.initial node path initial) :=
    h.imp fun _ ho => .inl ho
  obtain ⟨o,ho,hread⟩:=h.read
  unfold Store.open
  rw [hread]
  cases o with
  | some s =>
    dsimp only [Option.map_some]
    cases haccept : accept codec limits node path (image codec s) with
    | error e => exact ⟨hsame,fun store hstore => by contradiction⟩
    | ok saved =>
      obtain rfl:=accept_image haccept
      dsimp only
      cases hexec : d.exec budget ((if (d.read .next).isSome then [Effect.unlink InboxFile.next,.syncDir] else
          [])++[.sync .state,.syncDir]) with
      | mk d' left =>
        obtain ⟨hstopped,hdone⟩:=tidy_keeps h hexec
        cases left with
        | none => exact ⟨hstopped.imp fun _ ho => .inl ho,fun store hstore => by contradiction⟩
        | some left =>
          have hkeeps:=hdone left rfl hread
          refine ⟨hkeeps.imp fun o heq => .inl (heq ▸ ho),?_⟩
          intro store hstore
          cases hstore
          exact ⟨hkeeps,.inl ho⟩
  | none =>
    dsimp only [Option.map_none]
    split
    · exact ⟨hsame,fun store hstore => by contradiction⟩
    · cases hvalid : (Saved.initial node path initial).validate limits with
      | error e => exact ⟨hsame,fun store hstore => by contradiction⟩
      | ok _ =>
        rcases @write_cases codec limits d (Saved.initial node path initial)
            ⟨Saved.initial node path initial,false⟩ P budget h with hrefused | ⟨d',hfailed,hkeeps⟩ | ⟨d',hdone,hkeeps⟩
        · dsimp only
          rw [hrefused]
          exact ⟨hsame,fun store hstore => by contradiction⟩
        · dsimp only
          rw [hfailed]
          refine ⟨hkeeps.imp ?_,fun store hstore => by contradiction⟩
          intro o ho'
          exact ho'.imp_right fun heq => ⟨ho,heq⟩
        · dsimp only
          rw [hdone]
          refine ⟨hkeeps.imp fun o heq => .inr ⟨ho,heq⟩,?_⟩
          intro store hstore
          cases hstore
          exact ⟨hkeeps,.inr ⟨ho,rfl⟩⟩

structure Advances (transition : Transition) (s : Saved) (e : DurableEnvelope) (s' : Saved) : Prop where
  receiver : e.receiver=s.node
  path : e.path=s.path
  sequence : e.sequence=s.watermark e.key+1
  transition : transition s.state e=.next s'.state
  streams : s'.streams=SortedMap.insert e.key e.sequence s.streams
  node_eq : s'.node=s.node
  path_eq : s'.path=s.path

theorem advance_cases {transition : Transition} {e : DurableEnvelope} {next : Option Saved}
    (h : store.advance limits transition e=.ok next) : (next=none ∧ e.sequence ≤ store.saved.watermark e.key) ∨ ∃ s',
    next=some s' ∧ Advances transition store.saved e s' := by
  unfold Store.advance at h
  obtain ⟨hbound,h⟩:=Except.of_ite_left h
  push Not at hbound
  dsimp only at h
  split at h
  · rename_i hle
    exact .inl ⟨(Except.ok.inj h).symm,hle⟩
  · cases hnext : checkedAdd (store.saved.watermark e.key) 1 with
    | none =>
      rw [hnext] at h
      contradiction
    | some n =>
      rw [hnext] at h
      dsimp only at h
      obtain ⟨hseq,h⟩:=Except.of_ite_left h
      obtain ⟨_,-,h⟩:=bind_eq_ok.mp h
      cases hrev : checkedAdd store.saved.revision 1 with
      | none =>
        rw [hrev] at h
        contradiction
      | some revision =>
        rw [hrev] at h
        dsimp only at h
        cases hstate : transition store.saved.state e with
        | refused | panicked =>
          rw [hstate] at h
          contradiction
        | next state =>
          rw [hstate] at h
          obtain ⟨_,-,h⟩:=bind_eq_ok.mp h
          refine .inr ⟨_,(Except.ok.inj h).symm,hbound.1,hbound.2,?_,hstate,rfl,rfl,rfl⟩
          rw [not_not.mp hseq]
          exact (checkedAdd_eq_some.mp hnext).1

theorem apply_cases (transition : Transition) (budget : ℕ) (e : DurableEnvelope)
    (h : Keeps codec d (· = some store.saved)) :
    (∃ err, store.apply codec limits transition budget e d=⟨d,store,.error err⟩) ∨
    (store.apply codec limits transition budget e d=⟨d,store,.ok ()⟩ ∧
      e.sequence ≤ store.saved.watermark e.key) ∨
    ∃ s', Advances transition store.saved e s' ∧
      ((∃ d', store.apply codec limits transition budget e d=⟨d',{store with failed:=true},.error .io⟩ ∧
        Keeps codec d' fun o => o=some store.saved ∨ o=some s') ∨
      ∃ d', store.apply codec limits transition budget e d=⟨d',{store with saved:=s'},.ok ()⟩ ∧
        Keeps codec d' (· = some s')) := by
  unfold Store.apply
  cases hadv : store.advance limits transition e with
  | error err => exact .inl ⟨err,rfl⟩
  | ok next =>
    rcases advance_cases hadv with ⟨rfl,hle⟩ | ⟨s',rfl,hs'⟩
    · exact .inr (.inl ⟨rfl,hle⟩)
    · dsimp only
      rcases @write_cases codec limits d s' store _ budget h with hrefused | ⟨d',hfailed,hkeeps⟩ | ⟨d',hdone,hkeeps⟩
      · rw [hrefused]
        exact .inl ⟨_,rfl⟩
      · rw [hfailed]
        exact .inr (.inr ⟨s',hs',.inl ⟨d',rfl,hkeeps⟩⟩)
      · rw [hdone]
        exact .inr (.inr ⟨s',hs',.inr ⟨d',rfl,hkeeps⟩⟩)

end Parrot.Inbox
