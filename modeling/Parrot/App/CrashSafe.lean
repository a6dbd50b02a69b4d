import Mathlib.Tactic.IntervalCases
import Parrot.App.FileLife
import Parrot.App.Lossless

/-! # The desired state is a crash-safe register

What a directory gives back after any sequence of commits, failures and crashes, and that its
owner behaves as the store the supervisors are written against. -/

namespace Parrot.App
open List (suffix_refl map_cons map_nil sum_cons sum_nil range)
open Machine CrashFs CrashFs.Disk

section config
variable {codec : RecordCodec} {serial : Serial} {limits : ApplicationLimits} {l l' : FileLife} {s : FileStateStore}
  {state : DesiredStateRecord} {d d' : Disk StateFile} {bytes : Bytes} {pid : ℕ} {fault : Fault} {expected : Option ℕ}
  {place : Except String Unit}

/-- The ends of reopening a directory that can be reached. -/
inductive Reopened (l : FileLife) (fault : Fault) : Disk StateFile × Except String FileStateStore → Prop where
  | found (d : Disk StateFile) (s : FileStateStore) (hlive : s.failed=false)
    (hlatest : s.latest=l.taken.head? ∨ ∃ r, l.interrupted=some r ∧ s.latest=some r) : Reopened l fault (d,.ok s)
  | refused (e : String) (hfirst : l.taken=[]) (hinterrupted : l.interrupted.isSome=true)
    (hname : l.disk.read .state=none) : Reopened l fault (l.disk,.error e)
  | ioError (d : Disk StateFile) (e : String) (hbudget : fault.budget<5) : Reopened l fault (d,.error e)

theorem openStore_reopened (hround : codec.RoundTrips) (h : FileFine codec serial limits l) :
    Reopened l fault (FileStateStore.openStore codec serial limits (.ok ()) pid fault l.disk) := by
  generalize hx : FileStateStore.openStore codec serial limits (.ok ()) pid fault l.disk=x
  have hended:=@openStore_ended codec serial limits l pid fault (.ok ()) hround h
  rw [hx] at hended
  cases hended with
  | unreached e hplace => contradiction
  | found r bytes d' hallowed hvalid hencode hread hdisk =>
    refine .found d' _ rfl ?_
    rcases hallowed with heq | ⟨r',heq,hr'⟩
    · exact .inl heq
    · exact .inr ⟨r',hr',heq⟩
  | empty hallowed hstate hnext =>
    refine .found l.disk _ rfl (.inl ?_)
    rcases hallowed with heq | ⟨r,heq,-⟩
    · exact heq
    · contradiction
  | refused hallowed hstate hnext =>
    have hfirst : l.taken=[] := by
      rcases hallowed with heq | ⟨r,heq,-⟩
      · exact List.head?_eq_none_iff.mp heq.symm
      · contradiction
    refine .refused _ hfirst ?_ hstate
    rw [Option.isSome_iff_ne_none]
    intro hnone
    rw [isSome_read,dir_eq_view,h.untouched hfirst hnone] at hnext
    contradiction
  | stopped d' hbudget hdisk => exact .ioError d' _ hbudget

theorem step_taken (hstep : FileStep codec serial limits l l') : l.taken <:+ l'.taken := by
  cases hstep with
  | opened place pid fault d s hdown hopen =>
    simp only [FileLife.opened]
    split
    · exact suffix_refl _
    · exact List.suffix_append _ _
  | failedOpen | exit | crash => exact suffix_refl _
  | commit s pid fault expected state hstore =>
    simp only [FileLife.committed]
    split
    · exact List.suffix_cons _ _
    · exact suffix_refl _

theorem steps_taken (h : Relation.ReflTransGen (FileStep codec serial limits) l l') : l.taken <:+ l'.taken := by
  induction h with
  | refl => exact suffix_refl _
  | tail _ hstep ih => exact ih.trans (step_taken hstep)

theorem commit_fenced (hfailed : s.failed=true) :
    (∃ e, s.commit codec pid serial fault expected state d=⟨d,s,.error e⟩) ∧ (∃ e, s.read pid=.error e) ∧
      ∃ e, s.currentRevision pid=.error e := by
  have howner : ∃ e, s.checkOwner pid=.error e := by
    simp [FileStateStore.checkOwner,hfailed]
  obtain ⟨e,howner⟩:=howner
  refine ⟨?_,?_,?_⟩
  · unfold FileStateStore.commit
    cases hp : s.prepare codec pid serial expected state with
    | error e => exact ⟨e,rfl⟩
    | ok bytes =>
      have:=(prepare_ok hp).2.1
      rw [hfailed] at this
      contradiction
  · unfold FileStateStore.read
    cases s.ensurePid pid with
    | error e => exact ⟨e,rfl⟩
    | ok u => exact ⟨e,by rw [howner]; rfl⟩
  · unfold FileStateStore.currentRevision
    cases s.ensurePid pid with
    | error e => exact ⟨e,rfl⟩
    | ok u => exact ⟨e,by rw [howner]; rfl⟩

theorem commit_refused (hrefused : checkTransition s.latest expected state ≠ .ok ()) :
    ∃ e, s.commit codec pid serial fault expected state d=⟨d,s,.error e⟩ := by
  unfold FileStateStore.commit
  cases hp : s.prepare codec pid serial expected state with
  | error e => exact ⟨e,rfl⟩
  | ok bytes =>
    unfold FileStateStore.prepare at hp
    obtain ⟨_,_,hp⟩:=bind_eq_ok.mp hp
    obtain ⟨_,_,hp⟩:=bind_eq_ok.mp hp
    obtain ⟨_,_,hp⟩:=bind_eq_ok.mp hp
    obtain ⟨_,htransition,_⟩:=bind_eq_ok.mp hp
    exact absurd htransition hrefused

theorem publish_cost (bytes : Bytes) : cost (replace StateFile.next .state (stateChunks bytes))=bytes.length+44 := by
  have hdigest:=Sha256.digest_length bytes
  have hmagic : stateMagic.length=8 := rfl
  simp only [cost,replace,stateChunks,map_cons,map_nil,List.cons_append,List.nil_append,Effect.cost,
    sum_cons,sum_nil,hdigest,hmagic]
  omega

theorem commit_published (hnext : d.dir.lookup .next=none) (hprepare : s.prepare codec pid serial expected state=.ok bytes)
    (hbudget : bytes.length+44≤fault.budget) : (s.commit codec pid serial fault expected state d).result=.ok () := by
  obtain ⟨d',hd'⟩:=replace_completes (stateChunks bytes) StateFile.state hnext
  have hexec:=@exec_of_completed _ _ _ _ _ fault.budget hd' (by rw [publish_cost]; exact hbudget)
  unfold FileStateStore.commit
  simp only [hprepare,publishState,hexec]

def FileStateStore.toStore (s : FileStateStore) (file : Option DesiredStateRecord) : Store := ⟨s.limits,s.latest,s.failed,file⟩

theorem prepare_error (hpid : s.pid=pid) {e : String} (h : s.prepare codec pid serial expected state=.error e)
    (file : Option DesiredStateRecord) :
    (s.toStore file).commit serial (.refused e) expected state=(s.toStore file,.error e) := by
  unfold FileStateStore.prepare at h
  have hensure : s.ensurePid pid=.ok () := by simp [FileStateStore.ensurePid,hpid]
  simp only [hensure,bind,Except.bind] at h
  unfold Store.commit FileStateStore.toStore
  cases hvalid : state.validate serial s.limits with
  | error e' =>
    simp only [hvalid] at h ⊢
    rw [Except.error.inj h]
  | ok u =>
    simp only [hvalid] at h ⊢
    by_cases hfailed : s.failed=true
    · have howner : s.checkOwner pid=.error "desired state owner failed or inherited across fork; reopen required" := by
        simp [FileStateStore.checkOwner,hfailed]
      simp only [howner] at h
      simp [Store.read,hfailed,← Except.error.inj h]
    · have howner : s.checkOwner pid=.ok () := by simp [FileStateStore.checkOwner,hfailed,hpid]
      simp only [howner] at h
      simp only [Store.read,if_neg hfailed]
      cases htransition : checkTransition s.latest expected state with
      | error e' =>
        simp only [htransition] at h ⊢
        rw [Except.error.inj h]
      | ok u => rfl

theorem prepare_accepted (h : s.prepare codec pid serial expected state=.ok bytes) (file : Option DesiredStateRecord) :
    (∀ e renamed, (s.toStore file).commit serial (.failed e renamed) expected state =
      (({s with failed:=true} : FileStateStore).toStore (if renamed then some state else file),.error e)) ∧
      (s.toStore file).commit serial .done expected state =
        (({s with latest:=some state} : FileStateStore).toStore (some state),.ok ()) := by
  obtain ⟨hvalid,hlive,-,-⟩:=prepare_ok h
  unfold FileStateStore.prepare at h
  obtain ⟨_,_,h⟩:=bind_eq_ok.mp h
  obtain ⟨_,_,h⟩:=bind_eq_ok.mp h
  obtain ⟨_,_,h⟩:=bind_eq_ok.mp h
  obtain ⟨_,htransition,-⟩:=bind_eq_ok.mp h
  unfold Store.commit FileStateStore.toStore
  constructor
  · intro e renamed
    simp only [hvalid,Store.read,hlive,Bool.false_eq_true,if_false,htransition]
  · simp only [hvalid,Store.read,hlive,Bool.false_eq_true,if_false,htransition]

theorem Holds.load (hround : codec.RoundTrips) {x : Option DesiredStateRecord} {o : Option Bytes}
    (h : Holds codec serial limits x o) : (o.map fun file => (loadState codec serial limits file).toOption)=x.map Option.some := by
  cases h with
  | none => rfl
  | some r bytes hvalid hencode =>
    simp only [Option.map_some,loadState_image hround hvalid hencode]
    rfl

theorem Holds.unique (hround : codec.RoundTrips) {x y : Option DesiredStateRecord} {o : Option Bytes}
    (hx : Holds codec serial limits x o) (hy : Holds codec serial limits y o) : x=y := by
  have heq:=(hx.load hround).symm.trans (hy.load hround)
  cases x <;> cases y <;> simp_all

/-- Each commit of an owner that a life of the directory reaches is a commit of the store the supervisors
are written against, with the same answer and the record that the file then holds. -/
theorem commit_refines (hround : codec.RoundTrips) (hl : FileLived codec serial limits l) (hs : l.store=some s)
    (hpid : s.pid=pid) {file : Option DesiredStateRecord} (hfile : Holds codec serial limits file (l.disk.read .state)) :
    ∃ publish file', Holds codec serial limits file' ((s.commit codec pid serial fault expected state l.disk).disk.read .state) ∧
      (s.toStore file).commit serial publish expected state =
        ((s.commit codec pid serial fault expected state l.disk).store.toStore file',
          (s.commit codec pid serial fault expected state l.disk).result) := by
  have h:=lived_fine hround hl
  have hfine:=committed_fine h hs (@commit_ended codec serial s state l.disk pid fault expected)
  have hlimits:=(h.store s hs).limits
  unfold FileStateStore.commit at hfine ⊢
  cases hp : s.prepare codec pid serial expected state with
  | error e => exact ⟨.refused e,file,hfile,prepare_error hpid hp file⟩
  | ok bytes =>
    obtain ⟨hvalid,hlive,hfollows,hencode⟩:=prepare_ok hp
    simp only [hp] at hfine ⊢
    cases hpub : publishState fault bytes l.disk with
    | mk d' result =>
      simp only [hpub] at hfine ⊢
      cases result with
      | error e =>
        obtain ⟨x,hx,hholds⟩:=hfine.settled.read
        have hnone:=((h.store s hs).live hlive).1
        simp only [FileLife.Allowed,FileLife.committed,hlive,Bool.not_false,Bool.and_true,if_true] at hx
        rcases hx with hx | ⟨r,hx,hr⟩
        · -- The file was not replaced.
          obtain ⟨y,hy,hold⟩:=h.settled.read
          have hy : y=l.taken.head? := by
            rcases hy with hy | ⟨r,-,hr⟩
            · exact hy
            · simp [hnone] at hr
          have heq : x=file := by rw [hx,← hy,hold.unique hround hfile]
          exact ⟨.failed e false,file,heq ▸ hholds,(prepare_accepted hp file).1 e false⟩
        · cases hr
          exact ⟨.failed e true,some state,hx ▸ hholds,(prepare_accepted hp file).1 e true⟩
      | ok u =>
        obtain ⟨x,hx,hholds⟩:=hfine.settled.read
        have hnone:=((h.store s hs).live hlive).1
        simp only [FileLife.Allowed,FileLife.committed,hlive,hnone] at hx
        have hx : x=some state := by simpa using hx
        exact ⟨.done,some state,hx ▸ hholds,(prepare_accepted hp file).2⟩

variable (codec serial limits)

/-- What holds of a directory and its owner in every state. -/
structure CrashSafe (l : FileLife) : Prop where
  reopened : ∀ pid fault, Reopened l fault (FileStateStore.openStore codec serial limits (.ok ()) pid fault l.disk)
  durable : ∀ s, l.store=some s → s.failed=false → s.latest=l.taken.head? ∧
    ∀ kept cut, Holds codec serial limits l.taken.head? ((l.disk.crash kept cut).read .state)
  fenced : ∀ s, l.store=some s → s.failed=true → ∀ pid fault expected state,
    (∃ e, s.commit codec pid serial fault expected state l.disk=⟨l.disk,s,.error e⟩) ∧ (∃ e, s.read pid=.error e) ∧
      ∃ e, s.currentRevision pid=.error e
  fences : ∀ s, l.store=some s → ∀ pid fault expected state e,
    (s.commit codec pid serial fault expected state l.disk).result=.error e →
      s.commit codec pid serial fault expected state l.disk=⟨l.disk,s,.error e⟩ ∨
        (s.commit codec pid serial fault expected state l.disk).store.failed=true
  refused : ∀ s, l.store=some s → ∀ pid fault expected state, checkTransition s.latest expected state ≠ .ok () →
    ∃ e, s.commit codec pid serial fault expected state l.disk=⟨l.disk,s,.error e⟩
  accepted : ∀ s, l.store=some s → ∀ pid fault expected state,
    (s.commit codec pid serial fault expected state l.disk).result=.ok () →
      ∃ file, (s.commit codec pid serial fault expected state l.disk).disk.read .state=some file ∧
        loadState codec serial limits file=.ok state
  unblocked : ∀ s, l.store=some s → ∀ pid fault expected state bytes,
    s.prepare codec pid serial expected state=.ok bytes → bytes.length+44≤fault.budget →
      (s.commit codec pid serial fault expected state l.disk).result=.ok ()
  chained : Chained l.taken
  answered : ∀ r, l.answered=some r → r∈l.taken

variable {codec serial limits}

theorem FileFine.durable (h : FileFine codec serial limits l) (hs : l.store=some s) (hlive : s.failed=false) (kept : ℕ)
    (cut : ℕ → ℕ) : Holds codec serial limits l.taken.head? ((l.disk.crash kept cut).read .state) := by
  obtain ⟨hnone,-⟩:=(h.store s hs).live hlive
  obtain ⟨x,hx,hholds⟩:=(h.settled.crash kept cut).read
  rcases hx with rfl | ⟨r,-,hr⟩
  · exact hholds
  · rw [hnone] at hr
    contradiction

theorem FileFine.accepted (hround : codec.RoundTrips) (h : FileFine codec serial limits l) (hs : l.store=some s)
    (hok : (s.commit codec pid serial fault expected state l.disk).result=.ok ()) :
    ∃ file, (s.commit codec pid serial fault expected state l.disk).disk.read .state=some file ∧
      loadState codec serial limits file=.ok state := by
  have hended:=@commit_ended codec serial s state l.disk pid fault expected
  generalize s.commit codec pid serial fault expected state l.disk=o at hok hended ⊢
  cases hended with
  | refused | stopped => contradiction
  | published bytes d' hvalid hlive hfollows hencode hdisk =>
    obtain ⟨-,hsettled⟩:=replace_completed h.bounded h.settled (by decide) hdisk
    rw [(h.store s hs).limits] at hvalid
    exact ⟨stateImage bytes,hsettled.read,loadState_image hround hvalid hencode⟩

theorem FileFine.crashSafe (hround : codec.RoundTrips) (h : FileFine codec serial limits l) : CrashSafe codec serial limits l where
  reopened _ _ := openStore_reopened hround h
  durable s hs hlive := ⟨(h.store s hs).latest,h.durable hs hlive⟩
  fenced _ _ hfailed _ _ _ _ := commit_fenced hfailed
  fences s hs pid fault expected state e he := by
    have hended:=@commit_ended codec serial s state l.disk pid fault expected
    generalize s.commit codec pid serial fault expected state l.disk=o at he hended ⊢
    cases hended with
    | refused e' =>
      cases he
      exact .inl rfl
    | published => contradiction
    | stopped => exact .inr rfl
  refused _ _ _ _ _ _ hrefused := commit_refused hrefused
  accepted _ hs _ _ _ _ hok := h.accepted hround hs hok
  unblocked s hs pid fault expected state bytes hprepare hbudget := by
    refine commit_published ?_ hprepare hbudget
    exact ((h.store s hs).live (prepare_ok hprepare).2.1).2
  chained := h.chained
  answered := h.answered

/-- Every state of a directory is crash safe, and a record that took effect is only ever
followed by later ones. -/
theorem file_state_crash_safe (hround : codec.RoundTrips) (h : FileLived codec serial limits l) : CrashSafe codec
    serial limits l ∧ ∀ l', Relation.ReflTransGen (FileStep codec serial limits) l l' → l.taken <:+ l'.taken :=
  ⟨(lived_fine hround h).crashSafe hround,fun _ => steps_taken⟩

end config

def sampleRecord (revision : ℕ) : DesiredStateRecord := ⟨revision,firstManifest,.empty,.empty⟩

/-- What follows the revision, with the TOML text of the manifest quoted. -/
def sampleRest : List String :=
  [",\"manifest\":\"","name = \\\"demo\\\"\\n","version = \\\"1.0.0\\\"\\n","\\n[[components]]\\n",
    "name = \\\"a\\\"\\n","engine = \\\"parrot\\\"\\n","instances = \\\"Singleton\\\"\\n",
    "\\n[components.artifact.Props]\\n","factory = \\\"app.a\\\"\\n","\\n[[components]]\\n","name = \\\"b\\\"\\n",
    "engine = \\\"parrot\\\"\\n","instances = \\\"Singleton\\\"\\n","\\n[components.artifact.Props]\\n",
    "factory = \\\"app.b\\\"\\n","\",\"pending\":\x7b\x7d",",\"mirrors\":\x7b\x7d\x7d"]

def asciiBytes (text : String) : Bytes := text.toList.map fun c => c.val.toUInt8

/-- A digit for the revision, between constant texts. -/
def sampleText (revision : ℕ) : Bytes :=
  asciiBytes "\x7b\"revision\":"++((48+revision).toUInt8::sampleRest.flatMap asciiBytes)

/-- `serde_json` on the first three sample records. -/
def sampleCodec : RecordCodec where
  writes r := if r.revision<4 ∧ r=sampleRecord r.revision then ([sampleText r.revision],none) else ([],some "unsupported record")
  read bytes := match (range 4).find? fun n => sampleText n=bytes with
    | some n => .ok (sampleRecord n)
    | none => .error "expected value at line 1 column 1"

theorem sampleText_read (n : ℕ) (h : n<4) : sampleCodec.read (sampleText n)=.ok (sampleRecord n) := by
  have hdigit (m : ℕ) : sampleText m=sampleText n ↔ (48+m).toUInt8=(48+n).toUInt8 := by
    simp [sampleText]
  have hfind : ((range 4).find? fun m => sampleText m=sampleText n)=some n := by
    simp only [hdigit]
    interval_cases n <;> decide
  unfold sampleCodec
  simp only [hfind]

theorem sampleCodec_roundTrips : sampleCodec.RoundTrips := by
  intro r chunks h
  simp only [sampleCodec] at h
  split at h
  · rename_i hr
    obtain ⟨rfl,-⟩:=Prod.mk.inj h
    rw [List.flatten_singleton,sampleText_read _ hr.1,← hr.2]
  · simp at h

theorem sampleRecord_valid (n : ℕ) (h : 0<n ∧ n<4) : (sampleRecord n).validate asciiSerial {}=.ok () := by
  have hok : ((sampleRecord n).validate asciiSerial {}).toOption=some () := by
    obtain ⟨hpos,hlt⟩:=h
    interval_cases n <;> decide +kernel
  cases hv : (sampleRecord n).validate asciiSerial {} with
  | error e => simp [hv,Except.toOption] at hok
  | ok u => rfl

theorem sampleRecord_encode (n : ℕ) (h : n<4) : encode sampleCodec (sampleRecord n)=.ok (sampleText n) := by
  have hlen : (sampleText n).length ≤ maxRecord := by
    have hstart : (asciiBytes "\x7b\"revision\":").length≤100 := by decide +kernel
    have hrest : (sampleRest.flatMap asciiBytes).length≤1000 := by decide +kernel
    simp only [sampleText,List.length_append,List.length_cons,maxRecord]
    omega
  have hwrites : sampleCodec.writes (sampleRecord n)=([sampleText n],none) := by
    simp only [sampleCodec]
    exact if_pos ⟨h,rfl⟩
  unfold encode
  simp only [hwrites,boundedWrites,List.length_nil,Nat.sub_zero,List.nil_append]
  rw [if_neg (by omega)]
  rfl

def untilRename (bytes : Bytes) : List (Effect StateFile) :=
  .create .next::((stateChunks bytes).map (.write .next)++[.sync .next,.rename .next .state])

theorem replace_untilRename (bytes : Bytes) : replace StateFile.next .state (stateChunks bytes)=untilRename bytes++[.syncDir] := by
  simp [replace,untilRename]

theorem untilRename_cost (bytes : Bytes) : cost (untilRename bytes)=bytes.length+43 := by
  have h:=publish_cost bytes
  rw [replace_untilRename] at h
  simp only [cost,List.map_append,List.sum_append,map_cons,map_nil,sum_cons,sum_nil,Effect.cost] at h ⊢
  omega

theorem commit_renamed {codec : RecordCodec} {serial : Serial} {limits : ApplicationLimits} {l : FileLife} {s : FileStateStore}
    {state : DesiredStateRecord} {bytes : Bytes} {pid : ℕ} {expected : Option ℕ} {text : String}
    (h : FileFine codec serial limits l) (hs : l.store=some s)
    (hprepare : s.prepare codec pid serial expected state=.ok bytes) :
    ∃ d', s.commit codec pid serial ⟨bytes.length+43,text⟩ expected state l.disk =
        ⟨d',{s with failed:=true},.error (stateError text)⟩ ∧
      Completed (untilRename bytes) l.disk d' ∧ d'.read .state=some (stateImage bytes) := by
  have hlive:=(prepare_ok hprepare).2.1
  obtain ⟨d2,hd2⟩:=replace_completes (stateChunks bytes) StateFile.state ((h.store s hs).live hlive).2
  obtain ⟨-,hsettled⟩:=replace_completed h.bounded h.settled (by decide) hd2
  rw [replace_untilRename] at hd2
  obtain ⟨d1,hd1,hsync⟩:=completed_append.mp hd2
  obtain rfl:=Option.some.inj (completed_singleton.mp hsync)
  have hexec:=@exec_short _ _ _ _ _ [] Effect.syncDir (by decide) rfl hd1
  refine ⟨d1,?_,hd1,hsettled.read⟩
  unfold FileStateStore.commit publishState
  simp only [hprepare]
  rw [replace_untilRename,← untilRename_cost]
  simp only [hexec]

theorem writes_pending {d d' : Disk StateFile} {chunks : List Bytes} (h : Completed (chunks.map (.write .next)) d d') :
    d'.durable=d.durable ∧ d'.pending=d.pending := by
  induction chunks generalizing d with
  | nil =>
    obtain rfl : d=d' := Option.some.inj h
    exact ⟨rfl,rfl⟩
  | cons c chunks ih =>
    simp only [Completed,map_cons,List.foldlM_cons] at h
    obtain ⟨d1,hd1,h1⟩:=Option.bind_eq_some_iff.mp h
    simp only [perform] at hd1
    obtain ⟨i,-,rfl⟩:=Option.map_eq_some_iff.mp hd1
    have hrest:=ih h1
    exact hrest

theorem untilRename_crash {d : Disk StateFile} {bytes : Bytes} (h : Completed (untilRename bytes) .empty d) (cut : ℕ → ℕ) :
    (d.crash 1 cut).read .state=none ∧ ((d.crash 1 cut).read .next).isSome=true := by
  have hsplit : untilRename bytes=[.create .next]++((stateChunks bytes).map (.write .next)++([.sync .next]++[.rename .next .state])) := by
    simp [untilRename]
  rw [hsplit] at h
  obtain ⟨d1,h1,h⟩:=completed_append.mp h
  obtain ⟨d2,h2,h⟩:=completed_append.mp h
  obtain ⟨d3,h3,h4⟩:=completed_append.mp h
  obtain rfl:=Option.some.inj (completed_singleton.mp h1)
  obtain ⟨hdurable,hpending⟩:=writes_pending h2
  have h3:=completed_singleton.mp h3
  simp only [perform] at h3
  obtain ⟨i,-,rfl⟩:=Option.map_eq_some_iff.mp h3
  have h4:=completed_singleton.mp h4
  simp only [perform] at h4
  split at h4
  · cases h4
    have hview : view ⟨Function.update d2.inodes i {d2.inodes i with synced:=(d2.inodes i).data},d2.fresh,d2.durable,
        d2.pending++[.rename .next .state]⟩ 1=[(StateFile.next,0)] := by
      simp only [view,hdurable,hpending,empty]
      rfl
    simp only [Disk.crash,Disk.read,Disk.file,Disk.dir,hview]
    exact ⟨rfl,rfl⟩
  · contradiction

theorem openStore_reads {codec : RecordCodec} {serial : Serial} {limits : ApplicationLimits} {l : FileLife}
    {r : DesiredStateRecord} {pid : ℕ} {fault : Fault} (hround : codec.RoundTrips) (h : FileFine codec serial limits l)
    (hholds : Holds codec serial limits (some r) (l.disk.read .state)) (hbudget : 5≤fault.budget) :
    ∃ d, FileStateStore.openStore codec serial limits (.ok ()) pid fault l.disk=(d,.ok ⟨limits,pid,some r,false⟩) ∧
      d.read .state=l.disk.read .state := by
  have hended:=@openStore_ended codec serial limits l pid fault (.ok ()) hround h
  generalize FileStateStore.openStore codec serial limits (.ok ()) pid fault l.disk=x at hended ⊢
  cases hended with
  | unreached e hplace => contradiction
  | found r' bytes d' hallowed hvalid hencode hread hdisk =>
    have heq : some r'=some r := by
      rw [hread] at hholds
      exact (Holds.some r' bytes hvalid hencode).unique hround hholds
    cases heq
    obtain ⟨effects,htidy,hall⟩:=tidy_housekeeping l.disk
    rw [htidy] at hdisk
    exact ⟨d',rfl,(housekeeping_completed h.bounded h.settled (by decide) hall hdisk).2.read⟩
  | empty hallowed hstate hnext =>
    have hread : l.disk.read .state=none := by simp [Disk.read,Disk.file,hstate]
    rw [hread] at hholds
    cases hholds
  | refused hallowed hstate hnext =>
    rw [hstate] at hholds
    cases hholds
  | stopped d' hshort hdisk => omega

section config
variable {codec : RecordCodec} {serial : Serial} {limits : ApplicationLimits} {l : FileLife} {s : FileStateStore}
  {r state : DesiredStateRecord} {bytes : Bytes} {pid : ℕ} {expected : Option ℕ}

theorem lived_published (hround : codec.RoundTrips) (h : FileLived codec serial limits l) (hs : l.store=some s)
    (hprepare : s.prepare codec pid serial expected state=.ok bytes) :
    ∃ d, FileLived codec serial limits ⟨d,some {s with latest:=some state},state::l.taken,some state,none⟩ := by
  have hown:=(lived_fine hround h).store s hs
  have hlive:=(prepare_ok hprepare).2.1
  have hok:=@commit_published _ serial _ _ _ _ _ ⟨bytes.length+44,""⟩ _ (hown.live hlive).2 hprepare le_rfl
  have hended:=@commit_ended codec serial s state l.disk pid ⟨bytes.length+44,""⟩ expected
  have hstep:=@FileStep.commit codec serial limits l s pid ⟨bytes.length+44,""⟩ expected state hs
  generalize s.commit codec pid serial ⟨bytes.length+44,""⟩ expected state l.disk=o at hok hended hstep
  cases hended with
  | refused | stopped => contradiction
  | published bytes d' hvalid hlive hfollows hencode hdisk =>
    have hnone:=(hown.live hlive).1
    refine ⟨d',?_⟩
    simpa [FileLife.committed,hlive,hnone] using h.tail hstep

theorem lived_renamed (hround : codec.RoundTrips) (h : FileLived codec serial limits l) (hs : l.store=some s)
    (hprepare : s.prepare codec pid serial expected state=.ok bytes) :
    ∃ d, FileLived codec serial limits ⟨d,some {s with failed:=true},l.taken,l.answered,some state⟩ ∧
      Completed (untilRename bytes) l.disk d ∧ d.read .state=some (stateImage bytes) := by
  obtain ⟨d,hcommit,hrenamed,hread⟩:=@commit_renamed _ _ _ _ _ _ _ _ _ "" (lived_fine hround h) hs hprepare
  have hstep:=@FileStep.commit codec serial limits l s pid ⟨bytes.length+43,""⟩ expected state hs
  rw [hcommit] at hstep
  refine ⟨d,?_,hrenamed,hread⟩
  simpa [FileLife.committed,(prepare_ok hprepare).2.1] using h.tail hstep

theorem lived_stopped (h : FileLived codec serial limits l) (hs : l.store=some s)
    (hprepare : s.prepare codec pid serial expected state=.ok bytes) :
    FileLived codec serial limits ⟨l.disk,some {s with failed:=true},l.taken,l.answered,some state⟩ := by
  have hcommit : s.commit codec pid serial ⟨0,""⟩ expected state l.disk =
      ⟨l.disk,{s with failed:=true},.error (stateError "")⟩ := by
    unfold FileStateStore.commit
    simp only [hprepare]
    rfl
  have hstep:=@FileStep.commit codec serial limits l s pid ⟨0,""⟩ expected state hs
  rw [hcommit] at hstep
  simpa [FileLife.committed,(prepare_ok hprepare).2.1] using h.tail hstep

theorem lived_found (hround : codec.RoundTrips) (h : FileLived codec serial limits l) (hdown : l.store=none)
    (hholds : Holds codec serial limits (some r) (l.disk.read .state)) (hnew : some r≠l.taken.head?) :
    ∃ d, FileLived codec serial limits ⟨d,some ⟨limits,pid,some r,false⟩,r::l.taken,l.answered,none⟩ ∧
      d.read .state=l.disk.read .state := by
  obtain ⟨d,hopen,hread⟩:=@openStore_reads _ _ _ _ _ pid ⟨5,""⟩ hround (lived_fine hround h) hholds le_rfl
  refine ⟨d,?_,hread⟩
  have hstep:=FileStep.opened l (.ok ()) pid ⟨5,""⟩ d _ hdown hopen
  simpa [FileLife.opened,hnew] using h.tail hstep

end config

def sampleOwner (latest : Option DesiredStateRecord) : FileStateStore := ⟨{},1,latest,false⟩

theorem sample_prepare {latest : Option DesiredStateRecord} {expected : Option ℕ} (n : ℕ) (h : 0<n ∧ n<4)
    (htransition : checkTransition latest expected (sampleRecord n)=.ok ()) :
    (sampleOwner latest).prepare sampleCodec 1 asciiSerial expected (sampleRecord n)=.ok (sampleText n) := by
  have hensure : (sampleOwner latest).ensurePid 1=.ok () := rfl
  have howner : (sampleOwner latest).checkOwner 1=.ok () := rfl
  have hvalid : (sampleRecord n).validate asciiSerial (sampleOwner latest).limits=.ok () := sampleRecord_valid n h
  have htransition : checkTransition (sampleOwner latest).latest expected (sampleRecord n)=.ok () := htransition
  unfold FileStateStore.prepare
  simp only [hensure,hvalid,howner,htransition,sampleRecord_encode _ h.2,bind,Except.bind]

theorem firstPrepare : (sampleOwner none).prepare sampleCodec 1 asciiSerial none (sampleRecord 1)=.ok (sampleText 1) :=
  sample_prepare 1 (by decide) rfl

theorem secondPrepare : (sampleOwner (some (sampleRecord 1))).prepare sampleCodec 1 asciiSerial (some 1) (sampleRecord 2) =
    .ok (sampleText 2) :=
  sample_prepare 2 (by decide) (by decide +kernel)

theorem thirdPrepare : (sampleOwner (some (sampleRecord 2))).prepare sampleCodec 1 asciiSerial (some 2) (sampleRecord 3) =
    .ok (sampleText 3) :=
  sample_prepare 3 (by decide) (by decide +kernel)

def openedLife : FileLife := ⟨.empty,some (sampleOwner none),[],none,none⟩

theorem openedLife_lived : FileLived sampleCodec asciiSerial {} openedLife :=
  .single (.opened .start (.ok ()) 1 ⟨5,""⟩ .empty (sampleOwner none) rfl rfl)

theorem committedLife : ∃ d, FileLived sampleCodec asciiSerial {}
    ⟨d,some (sampleOwner (some (sampleRecord 1))),[sampleRecord 1],some (sampleRecord 1),none⟩ :=
  lived_published sampleCodec_roundTrips openedLife_lived rfl firstPrepare

theorem file_state_crash_safe_committed : ∃ l, CrashSafe sampleCodec asciiSerial {} l ∧ l.answered=some (sampleRecord 1) := by
  obtain ⟨d,hd⟩:=committedLife
  exact ⟨_,(file_state_crash_safe sampleCodec_roundTrips hd).1,rfl⟩

theorem commit_refines_first : ∃ publish file',
    Holds sampleCodec asciiSerial {} file' (((sampleOwner none).commit sampleCodec 1 asciiSerial ⟨0,""⟩ none (sampleRecord 1)
      .empty).disk.read .state) ∧ ((sampleOwner none).toStore none).commit asciiSerial publish none (sampleRecord 1) =
        (((sampleOwner none).commit sampleCodec 1 asciiSerial ⟨0,""⟩ none (sampleRecord 1) .empty).store.toStore file',
          ((sampleOwner none).commit sampleCodec 1 asciiSerial ⟨0,""⟩ none (sampleRecord 1) .empty).result) :=
  commit_refines sampleCodec_roundTrips openedLife_lived rfl rfl .none

/-- A first commit that stops after its rename may be undone by a crash and refused for ever. A
record that was never answered is found again after the commit that followed it has failed. -/
theorem reopened_otherwise :
    (∃ l l', FileLived sampleCodec asciiSerial {} l ∧ l.taken=[] ∧
      l.disk.read .state=some (stateImage (sampleText 1)) ∧ FileStep sampleCodec asciiSerial {} l l' ∧
        ∀ pid fault, FileStateStore.openStore sampleCodec asciiSerial {} (.ok ()) pid fault l'.disk =
          (l'.disk,.error "incomplete initial desired commit; refusing reset")) ∧
      ∃ l, FileLived sampleCodec asciiSerial {} l ∧ l.answered=some (sampleRecord 1) ∧
        l.interrupted=some (sampleRecord 3) ∧ ∃ d s, FileStateStore.openStore sampleCodec asciiSerial {} (.ok ()) 1 ⟨5,""⟩
          l.disk=(d,.ok s) ∧ s.latest=some (sampleRecord 2) := by
  have hround:=sampleCodec_roundTrips
  constructor
  · obtain ⟨d,h,hrenamed,hread⟩:=lived_renamed hround openedLife_lived rfl firstPrepare
    obtain ⟨hstate,hnext⟩:=untilRename_crash hrenamed fun _ => 0
    refine ⟨_,_,h,rfl,hread,.crash _ 1 fun _ => 0,fun pid fault => ?_⟩
    unfold FileStateStore.openStore
    simp only [hstate,hnext,if_true]
  · obtain ⟨d1,h1⟩:=committedLife
    obtain ⟨d2,h2,-,hread2⟩:=lived_renamed hround h1 rfl secondPrepare
    have hholds2 : Holds sampleCodec asciiSerial {} (some (sampleRecord 2)) (d2.read .state) := by
      rw [hread2]
      exact .some _ _ (sampleRecord_valid 2 (by decide)) (sampleRecord_encode 2 (by decide))
    have hdown:=h2.tail (.exit _)
    have hnew : some (sampleRecord 2)≠[sampleRecord 1].head? := by
      intro heq
      have:=congrArg DesiredStateRecord.revision (Option.some.inj heq)
      contradiction
    obtain ⟨d3,h3,hread3⟩:=@lived_found _ _ _ _ _ 1 hround hdown rfl hholds2 hnew
    have h4:=(lived_stopped h3 rfl thirdPrepare).tail (.exit _)
    have hholds3 : Holds sampleCodec asciiSerial {} (some (sampleRecord 2)) (d3.read .state) := by
      rw [hread3]
      exact hholds2
    obtain ⟨d4,hopen,-⟩:=@openStore_reads _ _ _ _ _ 1 ⟨5,""⟩ hround (lived_fine hround h4) hholds3 le_rfl
    exact ⟨_,h4,rfl,rfl,d4,_,hopen,rfl⟩

end Parrot.App
