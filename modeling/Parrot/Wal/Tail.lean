import Parrot.Lib.TailFile
import Parrot.Wal.System

/-! # A log whose last segment alone is unsynced

Opening, appending and syncing keep it so, wherever they stop. -/

namespace Parrot.Wal
open List (mem_cons not_mem_nil)
open Machine
open Bincode (Bytes)
open CrashFs (Disk Effect AllSynced Headed Led current)

section env
variable {env : WalEnv} {limits : WalLimits} {segmentMax : ℕ} {d d' : Disk ℕ} {w : WalInner}

variable {names ids : List ℕ}

theorem listSegments_ok {max : ℕ} (h : listSegments names max=.ok ids) : ids=names.insertionSort (·≤·) := by
  unfold listSegments at h
  split at h
  · contradiction
  · dsimp only at h
    split at h
    · exact (Except.ok.inj h).symm
    · contradiction

theorem mem_listSegments {max m : ℕ} (h : listSegments names max=.ok ids) : m∈ids ↔ m∈names := by
  rw [listSegments_ok h]
  exact (List.perm_insertionSort ..).mem_iff

theorem listSegments_last {max n : ℕ} (h : listSegments names max=.ok ids)
    (hn : ids.getLast? = some n) : n∈names ∧ ∀ m∈names, m≤n := by
  obtain ⟨pre,rfl⟩:=List.getLast?_eq_some_iff.mp hn
  refine ⟨(mem_listSegments h).mp (List.mem_append_right _ (List.mem_singleton_self n)),?_⟩
  intro m hm
  have hsorted : (pre++[n]).Pairwise (·≤·) := by
    rw [listSegments_ok h]
    exact List.pairwise_insertionSort ..
  rcases List.mem_append.mp ((mem_listSegments h).mpr hm) with hm' | hm'
  · exact (List.pairwise_append.mp hsorted).2.2 m hm' n (List.mem_singleton_self n)
  · rw [List.mem_singleton.mp hm']

theorem scan_sealed {σ : Type} {visit : σ → WalRecord → Except String σ} {fuel position good : ℕ}
    {bytes : Bytes} {st st' : σ} (hfuel : bytes.length≤fuel)
    (h : scan env limits false visit fuel position bytes st=.ok (st',good)) : good=position+bytes.length := by
  induction fuel generalizing position bytes st with
  | zero =>
    have hnil : bytes.length=0 := by omega
    obtain ⟨-,rfl⟩:=Prod.mk.inj (Except.ok.inj h)
    omega
  | succ fuel ih =>
    unfold scan at h
    cases hhead : Frames.head checksum limits.maxRecordBytes bytes with
    | done =>
      rw [hhead] at h
      obtain ⟨-,rfl⟩:=Prod.mk.inj (Except.ok.inj h)
      simp [Frames.head_done hhead]
    | torn | badLength | badCheck =>
      rw [hhead] at h
      contradiction
    | frame body rest =>
      rw [hhead] at h
      dsimp only at h
      have hlen:=Frames.head_frame_length hhead
      cases hdecode : env.decodeRecord body with
      | error e =>
        rw [hdecode] at h
        contradiction
      | ok record =>
        rw [hdecode] at h
        obtain ⟨_,-,h⟩:=bind_eq_ok.mp h
        obtain ⟨st1,-,h⟩:=bind_eq_ok.mp h
        have hgood:=ih (by omega) h
        omega

theorem scanAll_tail {σ : Type} {visit : σ → WalRecord → Except String σ} {last : Option ℕ} {files : List (ℕ × Bytes)}
    {st st' : σ} {tail : Option Tail} {t : Tail} (h : scanAll env limits visit last files st tail=.ok (st',some t)) :
    tail=some t ∨ some t.sid=last := by
  induction files generalizing st tail with
  | nil => exact .inl (Prod.mk.inj (Except.ok.inj h)).2
  | cons x files ih =>
    obtain ⟨sid,bytes⟩:=x
    obtain ⟨⟨st1,good⟩,hscan,h⟩:=bind_eq_ok.mp h
    rcases ih h with htail | hlast
    · split at htail
      · rename_i hgood
        by_cases hsid : some sid=last
        · cases htail
          exact .inr hsid
        · have hsealed : (some sid==last)=false := by simpa using hsid
          rw [hsealed] at hscan
          unfold scanSegment at hscan
          split at hscan
          · contradiction
          · have heq:=scan_sealed (le_rfl) hscan
            omega
      · exact .inl htail
    · exact .inr hlast

variable {plan : Plan Unit}

theorem open_cases (h : openWithLimits env limits segmentMax d=.ok plan) :
    d.dir=[] ∧ plan.effects=[.create 1,.syncDir] ∧ plan.wal.segId=1 ∨
    (plan.wal.segId∈d.dir.map Prod.fst ∧ ∀ m∈d.dir.map Prod.fst, m≤plan.wal.segId) ∧
      ∃ repairs, plan.effects=repairs++[.syncDir] ∧ ∀ e∈repairs, e.OnNewest plan.wal.segId := by
  unfold openWithLimits at h
  obtain ⟨-,-,h⟩:=bind_eq_ok.mp h
  obtain ⟨ids,hids,h⟩:=bind_eq_ok.mp h
  obtain ⟨files,hfiles,h⟩:=bind_eq_ok.mp h
  obtain ⟨diskBytes,-,h⟩:=bind_eq_ok.mp h
  dsimp only at h
  split at h
  · contradiction
  · obtain ⟨⟨acks,tail⟩,hacks,h⟩:=bind_eq_ok.mp h
    obtain ⟨⟨pending,_⟩,-,h⟩:=bind_eq_ok.mp h
    obtain rfl:=(Except.ok.inj h).symm
    dsimp only
    cases hlast : ids.getLast? with
    | none =>
      obtain rfl:=List.getLast?_eq_none_iff.mp hlast
      have hnames : d.dir=[] := by
        have hperm:=List.perm_insertionSort (·≤·) (d.dir.map Prod.fst)
        rw [← listSegments_ok hids] at hperm
        exact List.map_eq_nil_iff.mp hperm.nil_eq.symm
      cases hfiles
      have htail:=(Prod.mk.inj (Except.ok.inj hacks)).2
      refine .inl ⟨hnames,?_,rfl⟩
      rw [← htail]
      rfl
    | some n =>
      obtain ⟨hmem,hle⟩:=listSegments_last hids hlast
      have hne : ids.isEmpty=false := by
        cases ids with
        | nil => contradiction
        | cons m rest => rfl
      refine .inr ⟨⟨hmem,hle⟩,(tail.map fun t => [Effect.truncate t.sid t.good,Effect.sync t.sid]).getD [],?_,?_⟩
      · rw [hne]
        rfl
      · intro e he
        cases tail with
        | none => contradiction
        | some t =>
          have hsid : t.sid=n := by
            rw [hlast] at hacks
            rcases scanAll_tail hacks with hnone | hsome
            · contradiction
            · exact Option.some.inj hsome
          simp only [Option.map_some,Option.getD_some,mem_cons,not_mem_nil,or_false] at he
          rcases he with rfl | rfl
          · exact hsid
          · exact hsid

theorem mem_names {m : ℕ} : (∃ x∈current d.history, x.1=m) ↔ m∈d.dir.map Prod.fst := by
  rw [Disk.dir_eq_current]
  simp

theorem open_tidy (hd : d.Tidy) (h : openWithLimits env limits segmentMax d=.ok plan) :
    (Disk.Stopped plan.effects d d' → d'.Tidy) ∧ (Disk.Completed plan.effects d d' → d'.Level plan.wal.segId) := by
  rcases open_cases h with ⟨hdir,heff,hid⟩ | ⟨⟨hmem,hle⟩,repairs,heff,hall⟩
  · have hcur : current d.history=[] := by simp [Disk.dir_eq_current,hdir]
    have hhist:=hd.empty hcur
    have hcreate : ∀ d1, d.perform (.create 1)=some d1 → d1.Named ∧ Headed 1 (current d1.history) := by
      intro d1 hperf
      have hnew : ∀ l∈d.history, ∀ x∈l, x.1≠1 := by
        intro l hl x hx
        rw [hhist,List.mem_singleton] at hl
        rw [hl] at hx
        contradiction
      obtain ⟨hd1,heq⟩:=Disk.create_history hd.named hnew hperf
      refine ⟨hd1,?_⟩
      rw [heq,hcur]
      refine ⟨by simp,by simp,?_⟩
      intro x hx hne _
      simp at hx
      simp [hx] at hne
    rw [heff,hid]
    have hdir : ∀ e∈[(Effect.syncDir : Effect ℕ)], e.OnNewest 1 := by
      intro e he
      rw [List.mem_singleton.mp he]
      trivial
    constructor
    · rintro (rfl | ⟨k,p,hp,-⟩ | ⟨d1,hperf,hrest⟩)
      · exact hd
      · contradiction
      · obtain ⟨hd1,hheaded⟩:=hcreate d1 hperf
        obtain ⟨hd',hheaded'⟩:=Disk.stopped_led hdir hd1 hheaded hrest
        exact Disk.tidy_of_headed hd' hheaded'
    · intro hrun
      simp only [Disk.Completed,List.foldlM_cons] at hrun
      obtain ⟨d1,hperf,hrest⟩:=Option.bind_eq_some_iff.mp hrun
      obtain ⟨hd1,hheaded⟩:=hcreate d1 hperf
      exact @Disk.headed_level 1 d1 d' [] (fun e he => absurd he not_mem_nil) hd1 hheaded hrest
  · have hheaded : Headed plan.wal.segId (current d.history) := by
      obtain ⟨y,hy,hyn⟩:=mem_names.mpr hmem
      refine ⟨⟨y,hy,hyn⟩,fun x hx => hle _ (mem_names.mp ⟨x,hx,rfl⟩),?_⟩
      intro x hx hne _
      have hlt:=hle _ (mem_names.mp ⟨x,hx,rfl⟩)
      exact hd.synced x hx y hy (by omega)
    rw [heff]
    constructor
    · intro hrun
      have hall' : ∀ e∈repairs++[.syncDir], e.OnNewest plan.wal.segId := by
        intro e he
        rcases List.mem_append.mp he with he | he
        · exact hall e he
        · rw [List.mem_singleton.mp he]
          trivial
      obtain ⟨hd',hheaded'⟩:=Disk.stopped_led hall' hd.named hheaded hrun
      exact Disk.tidy_of_headed hd' hheaded'
    · intro hrun
      exact Disk.headed_level hall hd.named hheaded hrun

theorem append_effects {r : WalRecord} {id : Option String} {parent : Option TraceParent} {plan : Plan (ℕ × Bool)}
    (h : appendSubmissionWithParent env limits segmentMax w r id parent=.ok plan) :
    (∀ e∈plan.effects, e.Touches w.segId) ∧ plan.wal.segId=w.segId ∨ ∃ bytes,
    plan.effects=[.write w.segId bytes,.sync w.segId,.create (w.segId+1),.syncDir] ∧ plan.wal.segId=w.segId+1 := by
  rcases append_cases h with ⟨seq,rfl⟩ | ⟨stored,receipt,bytes,-,rfl⟩
  · exact .inl ⟨fun e he => absurd he not_mem_nil,rfl⟩
  · have hwrite : ∀ e∈[Effect.write w.segId (recordFrame env stored)], e.Touches w.segId := by
      intro e he
      rw [List.mem_singleton.mp he]
      rfl
    unfold appendPlan
    split
    · exact .inl ⟨hwrite,rfl⟩
    · dsimp only
      split
      · exact .inr ⟨_,rfl,rfl⟩
      · exact .inl ⟨hwrite,rfl⟩

theorem touches_stopped {effects : List (Effect ℕ)} (hd : d.Level w.segId)
    (hall : ∀ e∈effects, e.Touches w.segId) (hrun : Disk.Stopped effects d d') : d'.Tidy := by
  obtain ⟨hd',hheaded⟩:=Disk.stopped_led (fun e he => (hall e he).onNewest) hd.named hd.headed hrun
  exact Disk.tidy_of_headed hd' hheaded

theorem append_tidy {r : WalRecord} {id : Option String} {parent : Option TraceParent} {plan : Plan (ℕ × Bool)}
    (hd : d.Level w.segId) (h : appendSubmissionWithParent env limits segmentMax w r id parent=.ok plan) :
    (Disk.Stopped plan.effects d d' → d'.Tidy) ∧ (Disk.Completed plan.effects d d' → d'.Level plan.wal.segId) := by
  rcases append_effects h with ⟨hall,hid⟩ | ⟨bytes,heff,hid⟩
  · rw [hid]
    exact ⟨touches_stopped hd hall,hd.touches hall⟩
  · have hwrite : ∀ e∈[Effect.write w.segId bytes,.sync w.segId], e.Touches w.segId := by
      intro e he
      simp only [mem_cons,not_mem_nil,or_false] at he
      rcases he with rfl | rfl
      · rfl
      · rfl
    -- the segment is synced before its successor is created
    have hsealed : ∀ d1, Disk.Completed [.write w.segId bytes,.sync w.segId] d d1 →
        d1.Level w.segId ∧ d1.Covered := by
      intro d1 hrun
      obtain ⟨d0,hfirst,hlast⟩:=(@Disk.completed_append _ _ [.write w.segId bytes] [.sync w.segId] d d1).mp hrun
      have hlevel:=hd.touches (fun e he => hwrite e (List.mem_cons.mpr (.inl (List.mem_singleton.mp he)))) hfirst
      have hperf : d0.perform (.sync w.segId)=some d1 := by simpa [Disk.Completed] using hlast
      exact hlevel.sync hperf
    have hdir : ∀ e∈[(Effect.syncDir : Effect ℕ)], e.OnNewest (w.segId+1) := by
      intro e he
      rw [List.mem_singleton.mp he]
      trivial
    rw [heff,hid]
    constructor
    · intro hrun
      rcases @Disk.stopped_split d d' [.write w.segId bytes,.sync w.segId] [.create (w.segId+1),.syncDir] hrun with
        hstop | ⟨d1,hdone,hstop⟩
      · exact touches_stopped hd hwrite hstop
      · obtain ⟨hlevel,hcovered⟩:=hsealed d1 hdone
        rcases hlevel.stopped_next hdir hstop with rfl | ⟨hd',-,hheaded⟩
        · exact hlevel.tidy
        · exact Disk.tidy_of_headed hd' (hheaded hcovered.synced)
    · intro hrun
      obtain ⟨d1,hdone,hlast⟩:=(@Disk.completed_append _ _ [.write w.segId bytes,.sync w.segId]
          [.create (w.segId+1),.syncDir] d d').mp hrun
      obtain ⟨hlevel,hcovered⟩:=hsealed d1 hdone
      exact @Disk.Level.completed_next w.segId d1 d' [] hlevel (fun e he => absurd he not_mem_nil)
        (.inl hcovered.synced) hlast

theorem sync_tidy (hd : d.Level w.segId) (h : w.sync=.ok plan) : plan.wal=w ∧ (Disk.Stopped plan.effects d d' →
    d'.Tidy) ∧ (Disk.Completed plan.effects d d' → d'.Level w.segId ∧ d'.Covered) := by
  unfold WalInner.sync at h
  obtain ⟨-,-,h⟩:=bind_eq_ok.mp h
  obtain rfl:=(Except.ok.inj h).symm
  refine ⟨rfl,touches_stopped hd ?_,?_⟩
  · intro e he
    rw [List.mem_singleton.mp he]
    rfl
  · intro hrun
    have hperf : d.perform (.sync w.segId)=some d' := by simpa [Disk.Completed] using hrun
    exact hd.sync hperf

theorem checkpoint_effects {names : List ℕ} {receipts : Order Receipt} {s : Stream} {seq watermarkBytes size : ℕ}
    {marker : Bytes} {others : List WalRecord}
    (h : checkpointPlan env limits names receipts w s seq watermarkBytes size marker others=plan) : ∃ effects,
    plan.effects=.create (w.segId+1)::effects ∧ (∀ e∈effects, e.OnNewest (w.segId+1)) ∧ (plan.result=.ok () →
    plan.wal.segId=w.segId+1 ∧ ∃ pre, effects=pre++[.syncDir] ∧ (w.segId∈names → Effect.unlink w.segId∈pre)) := by
  have hwrites : ∀ (frames : List Bytes) (e : Effect ℕ), e∈frames.map (Effect.write (w.segId+1)) →
      e.OnNewest (w.segId+1) := by
    intro frames e he
    obtain ⟨b,-,rfl⟩:=List.mem_map.mp he
    rfl
  have hsyncs : ∀ e∈[(Effect.sync (w.segId+1) : Effect ℕ),.syncDir], e.OnNewest (w.segId+1) := by
    intro e he
    simp only [mem_cons,not_mem_nil,or_false] at he
    rcases he with rfl | rfl
    · rfl
    · trivial
  subst h
  unfold checkpointPlan
  dsimp only
  split
  · exact ⟨_,rfl,hwrites _,fun h => by contradiction⟩
  · split
    · refine ⟨_,rfl,?_,fun h => by contradiction⟩
      intro e he
      rcases List.mem_append.mp he with he | he
      · exact hwrites _ e he
      · exact hsyncs e he
    · rename_i ids hids
      refine ⟨_,rfl,?_,fun _ => ⟨rfl,_,(List.append_assoc ..).symm,?_⟩⟩
      · intro e he
        rcases List.mem_append.mp he with he | he
        · rcases List.mem_append.mp he with he | he
          · exact hwrites _ e he
          · exact hsyncs e he
        · rcases List.mem_append.mp he with he | he
          · obtain ⟨m,hm,rfl⟩:=List.mem_map.mp he
            have hlt : m<w.segId+1 := of_decide_eq_true (List.mem_filter.mp hm).2
            exact hlt.ne
          · rw [List.mem_singleton.mp he]
            trivial
      · intro hmem
        refine List.mem_append_right _ (List.mem_map_of_mem (List.mem_filter.mpr ⟨?_,?_⟩))
        · exact (mem_listSegments hids).mpr (List.mem_append_left _ hmem)
        · exact decide_eq_true (Nat.lt_succ_self _)

theorem synced_of_not (hd : d.Level w.segId) (h : ¬ Unsynced d w) : AllSynced (current d.history) := by
  intro x hx
  by_cases hid : x.1=w.segId
  · by_contra hne
    refine h ⟨x.2,?_,hne⟩
    rw [← hid]
    exact Disk.file_current hd.named hx
  · exact hd.headed.synced x hx hid hid

theorem isSome_read {m : ℕ} : (d.read m).isSome=true ↔ ∃ x∈current d.history, x.1=m := by
  rw [Disk.current_names]
  simp [Disk.read,Disk.file]

theorem ack_tidy {endpoint sender : String} {seq : ℕ} {acks : Order (Stream × ℕ)} {receipts : Order Receipt} (hd : d.Level w.segId)
    (h : Wal.ack env limits (d.dir.map Prod.fst) acks receipts w endpoint sender seq=.ok plan) :
    (Disk.Stopped plan.effects d d' →
      d'.Named ∧ (¬ Exposed d w (.ack endpoint sender seq acks receipts) d' → d'.Tidy)) ∧
    (Disk.Completed plan.effects d d' → plan.result=.ok () → d'.Level plan.wal.segId) := by
  rcases ack_cases h with rfl | ⟨wb,cb,-,⟨-,rfl⟩ | ⟨hclears,hplan⟩⟩
  · have hnone : ∀ e∈([] : List (Effect ℕ)), e.Touches w.segId := fun e he => absurd he not_mem_nil
    have htidy:=@touches_stopped d d' w [] hd hnone
    exact ⟨fun hrun => ⟨(htidy hrun).named,fun _ => htidy hrun⟩,fun hrun _ => hd.touches hnone hrun⟩
  · have hwrite : ∀ e∈[Effect.write w.segId (recordFrame env (ackRecord endpoint sender seq))],
        e.Touches w.segId := by
      intro e he
      rw [List.mem_singleton.mp he]
      rfl
    have htidy:=@touches_stopped d d' w _ hd hwrite
    exact ⟨fun hrun => ⟨(htidy hrun).named,fun _ => htidy hrun⟩,fun hrun _ => hd.touches hwrite hrun⟩
  · obtain ⟨effects,heff,hall,hok⟩:=checkpoint_effects hplan.symm
    constructor
    · intro hrun
      rw [heff] at hrun
      rcases hd.stopped_next hall hrun with rfl | ⟨hd',hled,hheaded⟩
      · exact ⟨hd.named,fun _ => hd.tidy⟩
      · refine ⟨hd',fun hsafe => ?_⟩
        refine @Disk.tidy_of_headed (w.segId+1) d' hd' ?_
        by_cases hunsynced : Unsynced d w
        · refine hled.headed ?_
          intro x hx hid
          exact absurd ⟨hclears,hunsynced,isSome_read.mpr ⟨x,hx,hid⟩,isSome_read.mpr hled.newest⟩ hsafe
        · exact hheaded (synced_of_not hd hunsynced)
    · intro hrun hresult
      obtain ⟨hid,pre,rfl,hunlink⟩:=hok hresult
      rw [heff] at hrun
      rw [hid]
      refine hd.completed_next (fun e he => hall e (List.mem_append_left _ he)) (.inr ?_) hrun
      exact hunlink (mem_names.mp hd.headed.newest)

end env
end Parrot.Wal
