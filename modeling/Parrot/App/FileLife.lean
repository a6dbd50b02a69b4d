import Parrot.App.FileState

/-! # A directory through commits, failures and crashes

`taken` lists the records that took effect, the latest first: those whose commit was answered
with success and those of an interrupted commit that a later open has found. -/

namespace Parrot.App
open Machine CrashFs CrashFs.Disk

deriving instance DecidableEq for TomlValue, TomlArray, TomlTable
deriving instance DecidableEq for ArtifactRef
deriving instance DecidableEq for ComponentHooks
deriving instance DecidableEq for ComponentSpec
deriving instance DecidableEq for AppManifest

instance orderedMapDecidableEq {κ α : Type} [LinearOrder κ] [DecidableEq α] : DecidableEq (OrderedMap κ α) := fun m m' =>
  decidable_of_iff (m.entries=m'.entries) ⟨fun h => by cases m; cases m'; simp_all,fun h => h ▸ rfl⟩

deriving instance DecidableEq for DesiredStateRecord

structure FileLife where
  disk : Disk StateFile
  store : Option FileStateStore
  taken : List DesiredStateRecord
  answered : Option DesiredStateRecord
  interrupted : Option DesiredStateRecord

namespace FileLife

def start : FileLife := ⟨.empty,none,[],none,none⟩

/-- The owner found `latest`, which took effect if it had not before. -/
def opened (l : FileLife) (d : Disk StateFile) (s : FileStateStore) : FileLife :=
  ⟨d,some s,if s.latest=l.taken.head? then l.taken else s.latest.toList++l.taken,l.answered,none⟩

def committed (l : FileLife) (o : CommitOutcome) (state : DesiredStateRecord) (wasFailed : Bool) : FileLife where
  disk := o.disk
  store := some o.store
  taken := match o.result with
    | .ok () => state::l.taken
    | .error _ => l.taken
  answered := match o.result with
    | .ok () => some state
    | .error _ => l.answered
  interrupted := if o.store.failed&&!wasFailed then some state else l.interrupted

end FileLife

section config
variable (codec : RecordCodec) (serial : Serial) (limits : ApplicationLimits)

inductive FileStep : FileLife → FileLife → Prop where
  | opened (l : FileLife) (place : Except String Unit) (pid : ℕ) (fault : Fault) (d : Disk StateFile) (s : FileStateStore)
      (hdown : l.store=none) (hopen : FileStateStore.openStore codec serial limits place pid fault l.disk=(d,.ok s)) :
      FileStep l (l.opened d s)
  | failedOpen (l : FileLife) (place : Except String Unit) (pid : ℕ) (fault : Fault) (d : Disk StateFile) (e : String)
      (hdown : l.store=none) (hopen : FileStateStore.openStore codec serial limits place pid fault l.disk=(d,.error e)) :
      FileStep l {l with disk:=d}
  | commit (l : FileLife) (s : FileStateStore) (pid : ℕ) (fault : Fault) (expected : Option ℕ) (state : DesiredStateRecord)
      (hstore : l.store=some s) :
      FileStep l (l.committed (s.commit codec pid serial fault expected state l.disk) state s.failed)
  | exit (l : FileLife) : FileStep l {l with store:=none}
  | crash (l : FileLife) (kept : ℕ) (cut : ℕ → ℕ) : FileStep l {l with disk:=l.disk.crash kept cut,store:=none}

abbrev FileLived (l : FileLife) : Prop := Relation.ReflTransGen (FileStep codec serial limits) FileLife.start l

variable {codec serial limits} {l l' : FileLife} {s : FileStateStore} {r state : DesiredStateRecord} {d d' : Disk StateFile}
  {bytes : Bytes} {pid : ℕ} {fault : Fault} {expected : Option ℕ} {place : Except String Unit}

theorem boundedWrites_ok {written : Bytes} {chunks : List Bytes} (hw : written.length ≤ maxRecord)
    (h : boundedWrites written chunks=.ok bytes) : bytes=written++chunks.flatten ∧ bytes.length ≤ maxRecord := by
  induction chunks generalizing written with
  | nil =>
    cases h
    exact ⟨by simp,hw⟩
  | cons c chunks ih =>
    simp only [boundedWrites] at h
    split at h
    · contradiction
    · obtain ⟨heq,hlen⟩:=ih (by simp only [List.length_append]; omega) h
      exact ⟨by simp [heq],hlen⟩

theorem encode_ok (h : encode codec r=.ok bytes) :
    (codec.writes r).1.flatten=bytes ∧ (codec.writes r).2=none ∧ bytes.length ≤ maxRecord := by
  unfold encode at h
  cases hw : boundedWrites [] (codec.writes r).1 with
  | error e => simp [hw,Except.mapError,bind,Except.bind] at h
  | ok written =>
    obtain ⟨heq,hlen⟩:=boundedWrites_ok (by simp) hw
    simp only [hw,Except.mapError,bind,Except.bind] at h
    split at h
    · contradiction
    · rename_i hnone
      cases h
      exact ⟨by simpa using heq.symm,hnone,hlen⟩

def stateImage (bytes : Bytes) : Bytes := (stateChunks bytes).flatten

theorem loadState_image (hround : codec.RoundTrips) (hvalid : r.validate serial limits=.ok ())
    (h : encode codec r=.ok bytes) : loadState codec serial limits (stateImage bytes)=.ok r := by
  obtain ⟨hflat,hnone,hlen⟩:=encode_ok h
  have hdigest:=Sha256.digest_length bytes
  have hmagic : stateMagic.length=8 := rfl
  have himage : stateImage bytes=stateMagic++(Sha256.digest bytes++bytes) := by simp [stateImage,stateChunks]
  have htotal : (stateImage bytes).length=bytes.length+40 := by
    rw [himage]
    simp only [List.length_append,hdigest,hmagic]
    omega
  have htake : (stateImage bytes).take (maxRecord+41)=stateImage bytes := List.take_of_length_le (by omega)
  have hhead : (stateImage bytes).take 8=stateMagic := by
    rw [himage,List.take_append_of_le_length (by simp [hmagic]),← hmagic,List.take_length]
  have hmiddle : ((stateImage bytes).drop 8).take 32=Sha256.digest bytes := by
    rw [himage,List.drop_append_of_le_length (by simp [hmagic]),← hmagic,List.drop_length,List.nil_append,
      List.take_append_of_le_length (by omega),← hdigest,List.take_length]
  have hrest : (stateImage bytes).drop 40=bytes := by
    have hsplit : stateImage bytes=(stateMagic++Sha256.digest bytes)++bytes := by simp [himage]
    have hforty : (stateMagic++Sha256.digest bytes).length=40 := by simp [hdigest,hmagic]
    rw [hsplit,← hforty,List.drop_left]
  have hread : codec.read bytes=.ok r := by
    rw [← hflat]
    exact hround r _ (by rw [← hnone])
  unfold loadState
  simp only [htake,hhead,hmiddle,hrest,htotal]
  rw [if_neg (by simp; omega)]
  simp [hread,hvalid,Except.mapError,bind,Except.bind,pure,Except.pure]

def Early (d : Disk StateFile) : Prop :=
  (d.dir.lookup .next).isSome=true ∨ (d.dir.lookup .state).isSome=true ∨
    ∀ k, (d.view k).lookup .next=none ∧ (d.view k).lookup .state=none

def Publishing (e : Effect StateFile) : Prop :=
  e=.create .next ∨ (∃ bytes, e=.write .next bytes) ∨ e=.sync .next ∨ e=.rename .next .state ∨ e=.syncDir

theorem early_modify {name : StateFile} {f : File → File} (h : Early d) (hd : d.modify name f=some d') : Early d' := by
  obtain ⟨i,-,rfl⟩:=Option.map_eq_some_iff.mp hd
  exact h

theorem early_perform {e : Effect StateFile} (h : Early d) (he : Publishing e) (hd : d.perform e=some d') : Early d' := by
  rcases he with rfl | ⟨bytes,rfl⟩ | rfl | rfl | rfl
  · simp only [perform] at hd
    split at hd
    · contradiction
    · rename_i hnone
      rw [Bool.not_eq_true,Option.isSome_eq_false_iff,Option.isNone_iff_eq_none] at hnone
      cases hd
      refine .inl ?_
      rw [dir_snoc,lookup_link _ _ _ hnone]
      simp
  · simp only [perform] at hd
    exact early_modify h hd
  · simp only [perform] at hd
    exact early_modify h hd
  · simp only [perform] at hd
    split at hd
    · rename_i hsome
      cases hd
      refine .inr (.inl ?_)
      rw [dir_snoc,lookup_rename_dst _ (by decide)]
      exact hsome
    · contradiction
  · cases hd
    rcases h with h | h | h
    · exact .inl h
    · exact .inr (.inl h)
    · refine .inr (.inr fun k => ?_)
      rw [view_nil,dir_eq_view]
      exact h _

theorem early_stopped {effects : List (Effect StateFile)} (h : Early d) (hall : ∀ e∈effects, Publishing e)
    (hs : Stopped effects d d') : Early d' := by
  induction effects generalizing d with
  | nil =>
    obtain rfl : d'=d := hs
    exact h
  | cons e rest ih =>
    have he:=hall e (List.mem_cons_self ..)
    rcases hs with rfl | ⟨k,p,hp,hd⟩ | ⟨d1,hd1,h1⟩
    · exact h
    · rcases he with rfl | ⟨bytes,rfl⟩ | rfl | rfl | rfl
      · simp [Effect.part] at hp
      · cases hp
        exact early_perform h (.inr (.inl ⟨_,rfl⟩)) hd
      all_goals simp [Effect.part] at hp
    · exact ih (early_perform h he hd1) (fun x hx => hall x (List.mem_cons_of_mem _ hx)) h1

theorem replace_publishing (bytes : Bytes) : ∀ e∈replace StateFile.next .state (stateChunks bytes), Publishing e := by
  intro e he
  simp only [replace,List.mem_cons,List.mem_append,List.mem_map,List.not_mem_nil,or_false] at he
  rcases he with rfl | ⟨chunk,-,rfl⟩ | rfl | rfl | rfl
  · exact .inl rfl
  · exact .inr (.inl ⟨chunk,rfl⟩)
  · exact .inr (.inr (.inl rfl))
  · exact .inr (.inr (.inr (.inl rfl)))
  · exact .inr (.inr (.inr (.inr rfl)))

theorem early_crash (kept : ℕ) (cut : ℕ → ℕ) : Early (d.crash kept cut) := by
  have hdir : (d.crash kept cut).dir=d.view kept := rfl
  have hview (k : ℕ) : (d.crash kept cut).view k=d.view kept := view_nil _ _ _ _
  unfold Early
  simp only [hdir,hview]
  cases (d.view kept).lookup .next <;> cases (d.view kept).lookup .state <;> simp

theorem early_absent (h : Early d) (hnext : d.dir.lookup .next=none) (hstate : d.dir.lookup .state=none) (k : ℕ) :
    (d.view k).lookup .next=none ∧ (d.view k).lookup .state=none := by
  rcases h with h | h | h
  · simp [hnext] at h
  · simp [hstate] at h
  · exact h k

def Succeeds (current : Option DesiredStateRecord) (r : DesiredStateRecord) : Prop :=
  r.revision=(current.map DesiredStateRecord.revision).getD 0+1 ∧ ∀ c∈current, c.manifest.name=r.manifest.name

def Chained : List DesiredStateRecord → Prop
  | [] => True
  | r::rest => Succeeds rest.head? r ∧ Chained rest

variable (codec serial limits)

inductive Holds : Option DesiredStateRecord → Option Bytes → Prop where
  | none : Holds none none
  | some (r : DesiredStateRecord) (bytes : Bytes) (hvalid : r.validate serial limits=.ok ())
    (hencode : encode codec r=.ok bytes) : Holds (some r) (some (stateImage bytes))

def FileLife.Allowed (l : FileLife) (x : Option DesiredStateRecord) : Prop :=
  x=l.taken.head? ∨ ∃ r, x=some r ∧ l.interrupted=some r

def FileLife.Readable (l : FileLife) (o : Option Bytes) : Prop := ∃ x, l.Allowed x ∧ Holds codec serial limits x o

structure OwnerFine (l : FileLife) (s : FileStateStore) : Prop where
  limits : s.limits=limits
  latest : s.latest=l.taken.head?
  live : s.failed=false → l.interrupted=none ∧ l.disk.dir.lookup .next=none

structure FileFine (l : FileLife) : Prop where
  bounded : l.disk.Bounded
  settled : l.disk.Settled .state (l.Readable codec serial limits)
  chained : Chained l.taken
  follows : ∀ r, l.interrupted=some r → Succeeds l.taken.head? r
  early : l.taken=[] → Early l.disk
  untouched : l.taken=[] → l.interrupted=none → ∀ k, (l.disk.view k).lookup .next=none
  answered : ∀ r, l.answered=some r → r∈l.taken
  store : ∀ s, l.store=some s → OwnerFine limits l s

variable {codec serial limits}

theorem start_fine : FileFine codec serial limits .start := by
  refine ⟨empty_bounded,empty_settled ⟨none,.inl rfl,.none⟩,trivial,by simp [FileLife.start],fun _ => .inr (.inr ?_),?_,
    by simp [FileLife.start],by simp [FileLife.start]⟩
  · intro k
    simp [FileLife.start,empty,view]
  · intro _ _ k
    simp [FileLife.start,empty,view]

theorem checkTransition_follows {current : Option DesiredStateRecord} (h : checkTransition current expected r=.ok ()) :
    Succeeds current r := by
  unfold checkTransition at h
  split at h
  · contradiction
  · rename_i hexpected
    rw [not_not] at hexpected
    split at h
    · contradiction
    · rename_i revision hrevision
      split at h
      · contradiction
      · rename_i hok
        simp only [not_or,not_not,Bool.not_eq_true] at hok
        refine ⟨?_,fun c hc => ?_⟩
        · rw [hexpected,hok.1,(checkedAdd_eq_some.mp hrevision).1]
        · obtain rfl : current=some c := hc
          simpa using hok.2

theorem prepare_ok (h : s.prepare codec pid serial expected state=.ok bytes) :
    state.validate serial s.limits=.ok () ∧ s.failed=false ∧ Succeeds s.latest state ∧ encode codec state=.ok bytes := by
  unfold FileStateStore.prepare at h
  obtain ⟨_,_,h⟩:=bind_eq_ok.mp h
  obtain ⟨_,hvalid,h⟩:=bind_eq_ok.mp h
  obtain ⟨_,howner,h⟩:=bind_eq_ok.mp h
  obtain ⟨_,htransition,hencode⟩:=bind_eq_ok.mp h
  refine ⟨hvalid,?_,checkTransition_follows htransition,hencode⟩
  unfold FileStateStore.checkOwner at howner
  split at howner
  · contradiction
  · rename_i hok
    simpa using (not_or.mp hok).2

inductive Ended (codec : RecordCodec) (serial : Serial) (s : FileStateStore) (state : DesiredStateRecord) (d : Disk StateFile) :
    CommitOutcome → Prop where
  | refused (e : String) : Ended codec serial s state d ⟨d,s,.error e⟩
  | published (bytes : Bytes) (d' : Disk StateFile) (hvalid : state.validate serial s.limits=.ok ())
    (hlive : s.failed=false) (hfollows : Succeeds s.latest state) (hencode : encode codec state=.ok bytes)
    (hdisk : Completed (replace .next .state (stateChunks bytes)) d d') :
    Ended codec serial s state d ⟨d',{s with latest:=some state},.ok ()⟩
  | stopped (bytes : Bytes) (d' : Disk StateFile) (e : String) (hvalid : state.validate serial s.limits=.ok ())
    (hlive : s.failed=false) (hfollows : Succeeds s.latest state) (hencode : encode codec state=.ok bytes)
    (hdisk : Stopped (replace .next .state (stateChunks bytes)) d d') :
    Ended codec serial s state d ⟨d',{s with failed:=true},.error e⟩

theorem commit_ended : Ended codec serial s state d (s.commit codec pid serial fault expected state d) := by
  unfold FileStateStore.commit
  split
  · exact .refused _
  · rename_i bytes hprepare
    obtain ⟨hvalid,hlive,hfollows,hencode⟩:=prepare_ok hprepare
    unfold publishState
    cases hx : d.exec fault.budget (replace .next .state (stateChunks bytes)) with
    | mk d' left =>
      cases left with
      | none => exact .stopped bytes d' _ hvalid hlive hfollows hencode (exec_stopped hx)
      | some left => exact .published bytes d' hvalid hlive hfollows hencode (exec_completed hx)

theorem holds_chunks (hvalid : state.validate serial limits=.ok ()) (hencode : encode codec state=.ok bytes) :
    Holds codec serial limits (some state) (some (stateChunks bytes).flatten) := Holds.some state bytes hvalid hencode

theorem committed_fine (h : FileFine codec serial limits l) (hs : l.store=some s) {o : CommitOutcome}
    (ho : Ended codec serial s state l.disk o) : FileFine codec serial limits (l.committed o state s.failed) := by
  have hown:=h.store s hs
  cases ho with
  | refused e =>
    have heq : l.committed ⟨l.disk,s,.error e⟩ state s.failed=l := by
      obtain ⟨disk,store,taken,answered,interrupted⟩:=l
      obtain rfl : store=some s := hs
      simp [FileLife.committed]
    rw [heq]
    exact h
  | published bytes d' hvalid hlive hfollows hencode hdisk =>
    obtain ⟨hnone,-⟩:=hown.live hlive
    have hcommitted : l.committed ⟨d',{s with latest:=some state},.ok ()⟩ state s.failed =
        ⟨d',some {s with latest:=some state},state::l.taken,some state,none⟩ := by
      simp [FileLife.committed,hlive,hnone]
    rw [hcommitted]
    obtain ⟨hb,hsettled⟩:=replace_completed h.bounded h.settled (by decide) hdisk
    rw [hown.limits] at hvalid
    refine ⟨hb,hsettled.imp ?_,⟨hown.latest ▸ hfollows,h.chained⟩,by simp,by simp,by simp,by simp,?_⟩
    · rintro o rfl
      exact ⟨some state,.inl rfl,holds_chunks hvalid hencode⟩
    · intro s' hs'
      cases hs'
      exact ⟨hown.limits,rfl,fun _ => ⟨rfl,replace_clears (by decide) hdisk⟩⟩
  | stopped bytes d' e hvalid hlive hfollows hencode hdisk =>
    obtain ⟨hnone,-⟩:=hown.live hlive
    have hcommitted : l.committed ⟨d',{s with failed:=true},.error e⟩ state s.failed =
        ⟨d',some {s with failed:=true},l.taken,l.answered,some state⟩ := by
      simp [FileLife.committed,hlive]
    rw [hcommitted]
    obtain ⟨hb,hsettled⟩:=replace_stopped h.bounded h.settled (by decide) hdisk
    rw [hown.limits] at hvalid
    refine ⟨hb,hsettled.imp ?_,h.chained,?_,fun htaken => early_stopped (h.early htaken) (replace_publishing bytes) hdisk,
      by simp,h.answered,?_⟩
    · rintro o (⟨x,hx | ⟨r,-,hr⟩,hholds⟩ | rfl)
      · exact ⟨x,.inl hx,hholds⟩
      · simp [hnone] at hr
      · exact ⟨some state,.inr ⟨state,rfl,rfl⟩,holds_chunks hvalid hencode⟩
    · intro r hr
      cases hr
      exact hown.latest ▸ hfollows
    · intro s' hs'
      cases hs'
      exact ⟨hown.limits,hown.latest,by simp⟩

def tidy (d : Disk StateFile) : List (Effect StateFile) :=
  [.sync .state,.syncDir]++if (d.read .next).isSome then [.unlink .next,.syncDir] else []

theorem tidy_cost (d : Disk StateFile) : cost (tidy d)<5 := by
  unfold tidy
  split <;> decide

theorem syncDir_dir (h : d.perform .syncDir=some d') : d'.dir=d.dir := by
  cases h
  rfl

theorem tidy_completes {file : Bytes} (h : d.read .state=some file) :
    ∃ d', Completed (tidy d) d d' ∧ d'.dir.lookup .next=none := by
  obtain ⟨i,hi⟩ : ∃ i, d.dir.lookup .state=some i := by
    rw [← Option.isSome_iff_exists,← isSome_read,h]
    rfl
  obtain ⟨d1,h1,hdir1⟩:=modify_completes hi fun f => {f with synced:=f.data}
  obtain ⟨d2,h2⟩ : ∃ d2, d1.perform .syncDir=some d2 := ⟨_,rfl⟩
  have hdir2 : d2.dir=d.dir := (syncDir_dir h2).trans hdir1
  have hfirst : Completed [.sync .state,.syncDir] d d2 :=
    Option.bind_eq_some_iff.mpr ⟨d1,h1,Option.bind_eq_some_iff.mpr ⟨d2,h2,rfl⟩⟩
  unfold tidy
  split
  · rename_i hsome
    rw [isSome_read,← hdir2] at hsome
    have h3 : d2.perform (.unlink .next)=some {d2 with pending:=d2.pending++[.unlink .next]} := by
      simp only [perform,hsome,if_true]
    have h4 : Completed [.unlink .next,.syncDir] d2 _ :=
      Option.bind_eq_some_iff.mpr ⟨_,h3,Option.bind_eq_some_iff.mpr ⟨_,rfl,rfl⟩⟩
    refine ⟨_,completed_append.mpr ⟨d2,hfirst,h4⟩,?_⟩
    change (dir ⟨d2.inodes,d2.fresh,d2.durable,d2.pending++[.unlink .next]⟩).lookup StateFile.next=none
    rw [dir_snoc,lookup_unlink,if_pos rfl]
  · rename_i hnone
    rw [isSome_read,Bool.not_eq_true,Option.isSome_eq_false_iff,Option.isNone_iff_eq_none] at hnone
    exact ⟨d2,completed_append.mpr ⟨d2,hfirst,rfl⟩,by rw [hdir2]; exact hnone⟩

theorem tidy_housekeeping (d : Disk StateFile) : ∃ effects, tidy d=effects++[.syncDir] ∧
    ∀ e∈effects, Housekeeping StateFile.next .state e := by
  unfold tidy
  split
  · refine ⟨[.sync .state,.syncDir,.unlink .next],rfl,fun e he => ?_⟩
    simp only [List.mem_cons,List.not_mem_nil,or_false] at he
    rcases he with rfl | rfl | rfl
    · exact .inr (.inl rfl)
    · exact .inr (.inr rfl)
    · exact .inl rfl
  · refine ⟨[.sync .state],rfl,fun e he => ?_⟩
    obtain rfl:=List.mem_singleton.mp he
    exact .inr (.inl rfl)

inductive OpenEnded (codec : RecordCodec) (serial : Serial) (limits : ApplicationLimits) (l : FileLife) (place : Except String Unit)
    (pid : ℕ) (fault : Fault) : Disk StateFile × Except String FileStateStore → Prop where
  | unreached (e : String) (hplace : place=.error e) : OpenEnded codec serial limits l place pid fault (l.disk,.error e)
  | found (r : DesiredStateRecord) (bytes : Bytes) (d' : Disk StateFile) (hallowed : l.Allowed (some r))
    (hvalid : r.validate serial limits=.ok ()) (hencode : encode codec r=.ok bytes)
    (hread : l.disk.read .state=some (stateImage bytes)) (hdisk : Completed (tidy l.disk) l.disk d') :
    OpenEnded codec serial limits l place pid fault (d',.ok ⟨limits,pid,some r,false⟩)
  | empty (hallowed : l.Allowed none) (hstate : l.disk.dir.lookup .state=none) (hnext : l.disk.dir.lookup .next=none) :
    OpenEnded codec serial limits l place pid fault (l.disk,.ok ⟨limits,pid,none,false⟩)
  | refused (hallowed : l.Allowed none) (hstate : l.disk.read .state=none) (hnext : (l.disk.read .next).isSome=true) :
    OpenEnded codec serial limits l place pid fault (l.disk,.error "incomplete initial desired commit; refusing reset")
  | stopped (d' : Disk StateFile) (hbudget : fault.budget<5)
    (hdisk : d'=l.disk ∨ (l.disk.read .state).isSome=true ∧ Stopped (tidy l.disk) l.disk d') :
    OpenEnded codec serial limits l place pid fault (d',.error (stateError fault.text))

theorem openStore_ended (hround : codec.RoundTrips) (h : FileFine codec serial limits l) :
    OpenEnded codec serial limits l place pid fault (FileStateStore.openStore codec serial limits place pid fault l.disk) := by
  unfold FileStateStore.openStore
  cases hplace : place with
  | error e => exact .unreached e rfl
  | ok u =>
    obtain ⟨x,hallowed,hholds⟩:=h.settled.read
    cases hread : l.disk.read .state with
    | none =>
      rw [hread] at hholds
      cases hholds with
      | none =>
        simp only
        split
        · rename_i hnext
          exact .refused hallowed hread hnext
        · rename_i hnext
          unfold FileStateStore.syncParent
          split
          · rename_i heq
            obtain ⟨rfl,-⟩:=Prod.mk.inj heq
            refine .empty hallowed ?_ ?_
            · rw [← Option.isNone_iff_eq_none,← Option.isSome_eq_false_iff,← isSome_read,hread]
              rfl
            · rw [← Option.isNone_iff_eq_none,← Option.isSome_eq_false_iff,← isSome_read]
              simpa using hnext
          · rename_i hbudget heq
            cases heq
            refine .stopped _ ?_ (.inl rfl)
            cases hb : fault.budget with
            | zero => omega
            | succ n => exact absurd (congrArg some hb) (hbudget n)
    | some file =>
      rw [hread] at hholds
      cases hholds with
      | some r bytes hvalid hencode =>
        simp only [loadState_image hround hvalid hencode]
        obtain ⟨d1,hcompleted,-⟩:=tidy_completes hread
        have hcost:=tidy_cost l.disk
        change OpenEnded codec serial limits l _ pid fault (FileStateStore.syncParent fault ⟨limits,pid,some r,false⟩
          (l.disk.exec fault.budget (tidy l.disk)))
        cases hx : l.disk.exec fault.budget (tidy l.disk) with
        | mk d' left =>
          have hshort (hstop : left=none ∨ left=some 0) : fault.budget<5 := by
            by_contra hge
            rw [exec_of_completed hcompleted (by omega)] at hx
            obtain ⟨-,rfl⟩:=Prod.mk.inj hx
            rcases hstop with hstop | hstop
            · contradiction
            · have:=Option.some.inj hstop
              omega
          have hstopped : (l.disk.read .state).isSome=true ∧ Stopped (tidy l.disk) l.disk d' :=
            ⟨by rw [hread]; rfl,exec_stopped hx⟩
          cases left with
          | none => exact .stopped d' (hshort (.inl rfl)) (.inr hstopped)
          | some left =>
            cases left with
            | zero => exact .stopped d' (hshort (.inr rfl)) (.inr hstopped)
            | succ left => exact .found r bytes d' hallowed hvalid hencode hread (exec_completed hx)

theorem housekeeping_keeps {effects : List (Effect StateFile)} (h : (d.dir.lookup .state).isSome=true)
    (hall : ∀ e∈effects, Housekeeping StateFile.next .state e) (hs : Stopped effects d d') :
    (d'.dir.lookup .state).isSome=true := by
  induction effects generalizing d with
  | nil =>
    obtain rfl : d'=d := hs
    exact h
  | cons e rest ih =>
    have he:=hall e (List.mem_cons_self ..)
    rcases hs with rfl | ⟨k,p,hp,hd⟩ | ⟨d1,hd1,h1⟩
    · exact h
    · rcases he with rfl | rfl | rfl <;> simp [Effect.part] at hp
    · refine ih ?_ (fun x hx => hall x (List.mem_cons_of_mem _ hx)) h1
      rcases he with rfl | rfl | rfl
      · simp only [perform] at hd1
        split at hd1
        · cases hd1
          rw [dir_snoc,lookup_unlink,if_neg (by decide)]
          exact h
        · contradiction
      · simp only [perform] at hd1
        rw [modify_dir hd1]
        exact h
      · rw [syncDir_dir hd1]
        exact h

theorem tidy_stopped (h : FileFine codec serial limits l) (hs : Stopped (tidy l.disk) l.disk d') :
    d'.Bounded ∧ d'.Settled .state (l.Readable codec serial limits) ∧
      ((l.disk.dir.lookup .state).isSome=true → (d'.dir.lookup .state).isSome=true) := by
  obtain ⟨effects,heq,hall⟩:=tidy_housekeeping l.disk
  have hall' : ∀ e∈tidy l.disk, Housekeeping StateFile.next .state e := by
    intro e he
    rw [heq] at he
    rcases List.mem_append.mp he with he | he
    · exact hall e he
    · exact .inr (.inr (List.mem_singleton.mp he))
  obtain ⟨hb,hsettled⟩:=housekeeping_stopped h.bounded h.settled (by decide) hall' hs
  exact ⟨hb,hsettled,fun hsome => housekeeping_keeps hsome hall' hs⟩

theorem FileFine.absent (h : FileFine codec serial limits l) (htaken : l.taken=[]) (hnone : l.interrupted=none) :
    l.disk.read .state=none := by
  obtain ⟨x,hx,hholds⟩:=h.settled.read
  have hx : x=none := by
    rcases hx with hx | ⟨r,-,hr⟩
    · rw [hx,htaken]
      rfl
    · rw [hnone] at hr
      contradiction
  subst hx
  generalize l.disk.read .state=o at hholds ⊢
  cases hholds
  rfl

theorem failedOpen_fine (hround : codec.RoundTrips) (h : FileFine codec serial limits l) (hdown : l.store=none) {e : String}
    (hopen : FileStateStore.openStore codec serial limits place pid fault l.disk=(d,.error e)) :
    FileFine codec serial limits {l with disk:=d} := by
  have hended:=@openStore_ended codec serial limits l pid fault place hround h
  rw [hopen] at hended
  have hkeep : FileFine codec serial limits {l with disk:=l.disk} := h
  cases hended with
  | unreached | refused => exact hkeep
  | stopped d' hbudget hdisk =>
    rcases hdisk with rfl | ⟨hread,hs⟩
    · exact hkeep
    · obtain ⟨hb,hsettled,hsome⟩:=tidy_stopped h hs
      rw [isSome_read] at hread
      refine ⟨hb,hsettled,h.chained,h.follows,fun _ => .inr (.inl (hsome hread)),fun htaken hnone => ?_,h.answered,?_⟩
      · have:=h.absent htaken hnone
        rw [← isSome_read,this] at hread
        contradiction
      · intro s hs
        rw [hdown] at hs
        contradiction

theorem opened_fine (hround : codec.RoundTrips) (h : FileFine codec serial limits l)
    (hopen : FileStateStore.openStore codec serial limits place pid fault l.disk=(d,.ok s)) :
    FileFine codec serial limits (l.opened d s) ∧ s.failed=false ∧
      (s.latest=l.taken.head? ∨ ∃ r, l.interrupted=some r ∧ s.latest=some r) := by
  have hended:=@openStore_ended codec serial limits l pid fault place hround h
  rw [hopen] at hended
  cases hended with
  | found r bytes d' hallowed hvalid hencode hread hdisk =>
    have hlatest : some r=l.taken.head? ∨ ∃ r', l.interrupted=some r' ∧ some r=some r' := by
      rcases hallowed with heq | ⟨r',heq,hr'⟩
      · exact .inl heq
      · exact .inr ⟨r',hr',heq⟩
    refine ⟨?_,rfl,hlatest⟩
    obtain ⟨effects,heq,hall⟩:=tidy_housekeeping l.disk
    obtain ⟨d1,hcompleted,hfree⟩:=tidy_completes hread
    obtain rfl : d1=d := Option.some.inj (hcompleted.symm.trans hdisk)
    rw [heq] at hdisk
    obtain ⟨hb,hsettled⟩:=housekeeping_completed h.bounded h.settled (by decide) hall hdisk
    have hhead : (l.opened d1 ⟨limits,pid,some r,false⟩).taken.head? = some r := by
      simp only [FileLife.opened]
      split
      · rename_i heq
        exact heq.symm
      · rfl
    have hne : (l.opened d1 ⟨limits,pid,some r,false⟩).taken≠[] := by
      intro hnil
      rw [hnil] at hhead
      contradiction
    refine ⟨hb,hsettled.imp ?_,?_,by simp [FileLife.opened],fun hnil => absurd hnil hne,fun hnil => absurd hnil hne,?_,?_⟩
    · rintro o rfl
      rw [hread]
      exact ⟨some r,.inl hhead.symm,Holds.some r bytes hvalid hencode⟩
    · simp only [FileLife.opened]
      split
      · exact h.chained
      · rename_i hnew
        obtain ⟨r',hr',heq⟩:=hlatest.resolve_left hnew
        cases heq
        exact ⟨h.follows r hr',h.chained⟩
    · intro x hx
      simp only [FileLife.opened]
      split
      · exact h.answered x hx
      · exact List.mem_append_right _ (h.answered x hx)
    · intro s' hs'
      cases hs'
      exact ⟨rfl,hhead.symm,fun _ => ⟨rfl,hfree⟩⟩
  | empty hallowed hstate hnext =>
    have hnil : l.taken=[] := by
      rcases hallowed with heq | ⟨r,heq,-⟩
      · exact List.head?_eq_none_iff.mp heq.symm
      · contradiction
    have hopened : l.opened l.disk ⟨limits,pid,none,false⟩=⟨l.disk,some ⟨limits,pid,none,false⟩,[],l.answered,none⟩ := by
      simp [FileLife.opened,hnil]
    refine ⟨?_,rfl,.inl (by simp [hnil])⟩
    rw [hopened]
    have hviews:=early_absent (h.early hnil) hnext hstate
    refine ⟨h.bounded,?_,trivial,by simp,fun _ => h.early hnil,fun _ _ k => (hviews k).1,fun x hx => hnil ▸ h.answered x hx,?_⟩
    · intro k
      exact ⟨none,⟨none,.inl rfl,Holds.none⟩,by simp [(hviews k).2]⟩
    · intro s' hs'
      cases hs'
      exact ⟨rfl,rfl,fun _ => ⟨rfl,hnext⟩⟩

theorem FileFine.down (h : FileFine codec serial limits l) : FileFine codec serial limits {l with store:=none} :=
  ⟨h.bounded,h.settled,h.chained,h.follows,h.early,h.untouched,h.answered,by simp⟩

theorem step_fine (hround : codec.RoundTrips) (hstep : FileStep codec serial limits l l') (h : FileFine codec serial limits l) :
    FileFine codec serial limits l' := by
  cases hstep with
  | opened place pid fault d s hdown hopen => exact (opened_fine hround h hopen).1
  | failedOpen place pid fault d e hdown hopen => exact failedOpen_fine hround h hdown hopen
  | commit s pid fault expected state hstore => exact committed_fine h hstore commit_ended
  | exit => exact h.down
  | crash kept cut =>
    refine ⟨h.bounded.crash kept cut,h.settled.crash kept cut,h.chained,h.follows,fun _ => early_crash kept cut,?_,h.answered,by simp⟩
    intro htaken hnone k
    simp only [crash,view_nil]
    exact h.untouched htaken hnone kept

theorem lived_fine (hround : codec.RoundTrips) (h : FileLived codec serial limits l) : FileFine codec serial limits l := by
  induction h with
  | refl => exact start_fine
  | tail _ hstep ih => exact step_fine hround hstep ih

end config
end Parrot.App
