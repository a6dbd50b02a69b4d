import Parrot.App.Supervise

/-! # No update and no rollout is lost

What every commit keeps, over every order of the operations of any number of supervisors. -/

namespace Parrot.App
open Machine Threads

variable {serial : Serial} {limits : ApplicationLimits} {s : AppSupervisor} {r next : DesiredStateRecord}
  {latest : Except String (Option DesiredStateRecord)}

structure Recorded (serial : Serial) (sh : Shared) : Prop where
  latest : sh.store.latest=sh.commits.getLast?.map Commit.record
  revisions : sh.commits.map (fun c => c.record.revision)=List.range' 1 sh.commits.length
  replaces : (∀ c∈sh.commits.head?, c.base=none) ∧ sh.commits.IsChain fun a b => b.base=some a.record
  valid : ∀ c∈sh.commits, c.record.validate serial sh.store.limits=.ok ()
  pending : ∀ c∈sh.commits.getLast?, ∀ comp g, c.record.generation comp=some g ↔ Owed serial sh.commits comp g

def OwnerInv (serial : Serial) (sh : Shared) : Owner → Prop
  | .idle s _ => ∃ c∈sh.commits, c.record=s.state
  | .committing s cause next => (∃ c∈sh.commits, c.record=s.state) ∧ Follows serial s.state cause next
  | .opening _ _ next => next.pending=.empty
  | .refused _ => True

variable {sh sh' : Shared} {publish : Publish} {base : Option DesiredStateRecord} {cause : Cause}

theorem OwnerInv.grows {o : Owner} (h : OwnerInv serial sh o) (hsub : ∀ c∈sh.commits, c∈sh'.commits) : OwnerInv serial sh' o := by
  cases o with
  | idle s reply =>
    obtain ⟨c,hc,hs⟩:=h
    exact ⟨c,hsub c hc,hs⟩
  | committing s cause next =>
    obtain ⟨⟨c,hc,hs⟩,hfollows⟩:=h
    exact ⟨⟨c,hsub c hc,hs⟩,hfollows⟩
  | opening limits mirrorExecutor next => exact h
  | refused e => trivial

theorem checkTransition_ok {current : Option DesiredStateRecord} {expected : Option ℕ}
    (h : checkTransition current expected next=.ok ()) :
    current.map DesiredStateRecord.revision=expected ∧ next.revision=expected.getD 0+1 := by
  unfold checkTransition at h
  split at h
  · contradiction
  · rename_i hrev
    rw [not_not] at hrev
    split at h
    · contradiction
    · rename_i revision hadd
      split at h
      · contradiction
      · rename_i hok
        rw [not_or,not_not] at hok
        exact ⟨hrev,hok.1.trans (checkedAdd_eq_some.mp hadd).1⟩

structure Committed (serial : Serial) (sh : Shared) (base : Option DesiredStateRecord) (cause : Cause) (next : DesiredStateRecord)
    (sh' : Shared) : Prop where
  commits : sh'.commits=sh.commits++[⟨next,base,cause⟩]
  limits : sh'.store.limits=sh.store.limits
  latest : sh'.store.latest=some next
  valid : next.validate serial sh.store.limits=.ok ()
  expected : sh.store.latest.map DesiredStateRecord.revision=base.map DesiredStateRecord.revision
  revision : next.revision=(base.map DesiredStateRecord.revision).getD 0+1

theorem commit_ok (h : sh.commit serial publish base cause next=(sh',.ok ())) : Committed serial sh base cause next sh' := by
  unfold Shared.commit Store.commit at h
  cases hv : next.validate serial sh.store.limits with
  | error e => simp [hv] at h
  | ok u =>
    cases hr : sh.store.read none with
    | error e => simp [hv,hr] at h
    | ok latest =>
      have hlatest : latest=sh.store.latest := by
        unfold Store.read at hr
        simp only at hr
        split at hr
        · contradiction
        · exact (Except.ok.inj hr).symm
      subst hlatest
      cases ht : checkTransition sh.store.latest (base.map DesiredStateRecord.revision) next with
      | error e => simp [hv,hr,ht] at h
      | ok u =>
        obtain ⟨hexpected,hrevision⟩:=checkTransition_ok ht
        simp only [hv,hr,ht] at h
        cases publish with
        | refused | failed => simp at h
        | done =>
          obtain ⟨rfl,-⟩:=Prod.mk.inj h
          exact ⟨rfl,rfl,rfl,hv,hexpected,hrevision⟩

theorem commit_error {e : String} (h : sh.commit serial publish base cause next=(sh',.error e)) :
    sh'.commits=sh.commits ∧ sh'.store.latest=sh.store.latest ∧ sh'.store.limits=sh.store.limits ∧
      (sh'=sh ∨ (∃ e renamed, publish=.failed e renamed) ∧ sh'.store.failed=true) := by
  unfold Shared.commit Store.commit at h
  cases hv : next.validate serial sh.store.limits with
  | error e =>
    simp only [hv] at h
    obtain ⟨rfl,-⟩:=Prod.mk.inj h
    exact ⟨rfl,rfl,rfl,.inl rfl⟩
  | ok u =>
    cases hr : sh.store.read none with
    | error e =>
      simp only [hv,hr] at h
      obtain ⟨rfl,-⟩:=Prod.mk.inj h
      exact ⟨rfl,rfl,rfl,.inl rfl⟩
    | ok latest =>
      cases ht : checkTransition latest (base.map DesiredStateRecord.revision) next with
      | error e =>
        simp only [hv,hr,ht] at h
        obtain ⟨rfl,-⟩:=Prod.mk.inj h
        exact ⟨rfl,rfl,rfl,.inl rfl⟩
      | ok u =>
        simp only [hv,hr,ht] at h
        cases publish with
        | done => simp at h
        | refused e =>
          obtain ⟨rfl,-⟩:=Prod.mk.inj h
          exact ⟨rfl,rfl,rfl,.inl rfl⟩
        | failed e renamed =>
          obtain ⟨rfl,-⟩:=Prod.mk.inj h
          exact ⟨rfl,rfl,rfl,.inr ⟨⟨e,renamed,rfl⟩,rfl⟩⟩

section
variable (h : Recorded serial sh)
include h

theorem Recorded.unchanged (hcommits : sh'.commits=sh.commits)
    (hlatest : sh'.store.latest=sh.store.latest) (hlimits : sh'.store.limits=sh.store.limits) : Recorded serial sh' := by
  refine ⟨?_,?_,?_,?_,?_⟩
  · rw [hlatest,hcommits]
    exact h.latest
  · rw [hcommits]
    exact h.revisions
  · rw [hcommits]
    exact h.replaces
  · rw [hcommits,hlimits]
    exact h.valid
  · rw [hcommits]
    exact h.pending

theorem Recorded.revision_inj {a b : Commit} (ha : a∈sh.commits) (hb : b∈sh.commits)
    (heq : a.record.revision=b.record.revision) : a=b := by
  have hnodup : (sh.commits.map fun c => c.record.revision).Nodup := by
    rw [h.revisions]
    exact List.nodup_range'
  exact List.inj_on_of_nodup_map hnodup ha hb heq

theorem Recorded.base_last (hmem : ∃ c∈sh.commits, c.record=r)
    (hexpected : sh.store.latest.map DesiredStateRecord.revision=some r.revision) :
    ∃ commits last, sh.commits=commits++[last] ∧ last.record=r := by
  obtain ⟨c,hc,rfl⟩:=hmem
  rw [h.latest,Option.map_map] at hexpected
  obtain ⟨last,hlast,hrev⟩:=Option.map_eq_some_iff.mp hexpected
  obtain ⟨commits,hcommits⟩:=List.getLast?_eq_some_iff.mp hlast
  refine ⟨commits,last,hcommits,?_⟩
  rw [h.revision_inj (List.mem_of_getLast? hlast) hc hrev]

theorem Recorded.append (hmem : ∃ c∈sh.commits, c.record=r) (hfollows : Follows serial r cause next)
    (hc : Committed serial sh (some r) cause next sh') : Recorded serial sh' := by
  obtain ⟨commits,last,hcommits,rfl⟩:=h.base_last hmem hc.expected
  have hall : sh'.commits=commits++[last]++[⟨next,some last.record,cause⟩] := by rw [hc.commits,hcommits]
  have hrevision : last.record.revision=sh.commits.length := by
    have hlast:=congrArg List.getLast? h.revisions
    rw [hcommits,List.map_append,List.length_append,List.length_singleton,List.range'_concat] at hlast
    simp only [List.map_cons,List.map_nil,List.getLast?_append,List.getLast?_singleton,Option.some_or,Option.some.injEq] at hlast
    rw [hcommits,List.length_append,List.length_singleton]
    omega
  refine ⟨?_,?_,⟨?_,?_⟩,?_,?_⟩
  · rw [hall,hc.latest]
    simp
  · rw [hc.commits,List.map_append,h.revisions,List.length_append,List.length_singleton,List.range'_concat]
    simp only [List.map_cons,List.map_nil,hfollows.revision,hrevision]
    congr 2
    omega
  · intro c hhead
    refine h.replaces.1 c ?_
    rw [hall] at hhead
    rw [hcommits]
    cases commits with
    | nil | cons => simpa using hhead
  · rw [hc.commits]
    refine List.isChain_append.mpr ⟨h.replaces.2,by simp,?_⟩
    intro a ha b hb
    rw [hcommits,List.getLast?_append] at ha
    cases ha
    cases hb
    rfl
  · intro c hmem'
    rw [hc.limits]
    rw [hc.commits] at hmem'
    rcases List.mem_append.mp hmem' with hmem' | hmem'
    · exact h.valid c hmem'
    · rw [List.mem_singleton.mp hmem']
      exact hc.valid
  · intro c hlast comp g
    rw [hall,List.getLast?_concat] at hlast
    cases hlast
    rw [hall,owed_snoc,← hcommits,hfollows.pending,h.pending last (by rw [hcommits]; simp)]

theorem Recorded.first (hempty : next.pending=.empty)
    (hc : Committed serial sh none cause next sh') : Recorded serial sh' := by
  have hnil : sh.commits=[] := by
    have hexpected:=hc.expected
    rw [h.latest] at hexpected
    simpa using hexpected
  have hall : sh'.commits=[⟨next,none,cause⟩] := by rw [hc.commits,hnil,List.nil_append]
  refine ⟨?_,?_,⟨?_,?_⟩,?_,?_⟩
  · rw [hall,hc.latest]
    simp
  · have hrev:=hc.revision
    rw [hall]
    simpa using hrev
  · rw [hall]
    simp
  · rw [hall]
    simp
  · rw [hall,hc.limits]
    simpa using hc.valid
  · rw [hall]
    intro c hlast comp g
    cases hlast
    simp only [owed_single,iff_false]
    simp [DesiredStateRecord.generation,hempty]

end

structure PoolInv (serial : Serial) (p : Pool Shared Owner) : Prop where
  recorded : Recorded serial p.shared
  owners : ∀ o∈p.threads, OwnerInv serial p.shared o

variable {p p' : Pool Shared Owner} {a : Action Opening Turn} {o o' : Owner}

theorem read_ok {fault : Option String} {latest : Option DesiredStateRecord} (h : sh.store.read fault=.ok latest) :
    latest=sh.store.latest := by
  unfold Store.read at h
  split at h
  · contradiction
  · split at h
    · contradiction
    · exact (Except.ok.inj h).symm

theorem Recorded.read_mem (h : Recorded serial sh) {fault : Option String} (hread : sh.store.read fault=.ok (some r)) :
    ∃ c∈sh.commits, c.record=r := by
  have hlatest:=read_ok hread
  rw [h.latest] at hlatest
  obtain ⟨c,hc,rfl⟩:=Option.map_eq_some_iff.mp hlatest.symm
  exact ⟨c,List.mem_of_getLast? hc,rfl⟩

theorem refresh_read (h : s.refresh serial latest=.ok next) : latest=.ok (some next) := by
  simp only [AppSupervisor.refresh,bind,Except.bind,pure,Except.pure] at h
  cases latest with
  | error e => simp at h
  | ok current =>
    cases current with
    | none => simp at h
    | some current =>
      simp only at h
      split at h
      · contradiction
      · split at h
        · contradiction
        · split at h
          · contradiction
          · rw [Except.ok.inj h]

theorem withExecutor_read {manifest : AppManifest} {mirrorExecutor found : Bool}
    (h : AppSupervisor.withExecutor serial limits latest manifest mirrorExecutor=.ok (next,found)) :
    (found=true → latest=.ok (some next)) ∧ (found=false → next.pending=.empty) := by
  simp only [AppSupervisor.withExecutor,bind,Except.bind,pure,Except.pure] at h
  cases latest with
  | error e => simp at h
  | ok current =>
    cases current with
    | none =>
      simp only at h
      split at h
      · contradiction
      · split at h
        · contradiction
        · cases h
          exact ⟨by simp,fun _ => rfl⟩
    | some current =>
      simp only at h
      split at h
      · contradiction
      · split at h
        · contradiction
        · split at h
          · contradiction
          · cases h
            exact ⟨fun _ => rfl,by simp⟩

theorem begin_inv (h : Recorded serial sh) (hmem : ∃ c∈sh.commits, c.record=s.state) (fault : Option String) (q : Request) :
    OwnerInv serial sh (s.begin serial (sh.store.read fault) q) := by
  have hvalid : s.state.validate serial sh.store.limits=.ok () := by
    obtain ⟨c,hc,hs⟩:=hmem
    rw [← hs]
    exact h.valid c hc
  cases q with
  | submit m =>
    simp only [AppSupervisor.begin]
    split
    · exact hmem
    · exact hmem
    · exact ⟨hmem,submit_follows ‹_›⟩
  | finishUpgrade comp generation =>
    simp only [AppSupervisor.begin]
    split
    · exact hmem
    · exact hmem
    · exact ⟨hmem,finish_follows hvalid ‹_›⟩
  | commitMirrors mirrors =>
    simp only [AppSupervisor.begin]
    split
    · exact hmem
    · exact ⟨hmem,mirrors_follows hvalid ‹_›⟩
  | refresh =>
    simp only [AppSupervisor.begin]
    split
    · exact hmem
    · rename_i hrefresh
      exact h.read_mem (refresh_read hrefresh)

theorem enter_inv (h : PoolInv serial p) {e : Opening} {t : Option Owner} (henter : enter serial e p.shared=some (sh',t)) :
    PoolInv serial ⟨sh',p.threads++t.toList⟩ := by
  cases e with
  | new limits manifest mirrorExecutor fault =>
    simp only [enter] at henter
    have hnew {o : Owner} (ho : OwnerInv serial p.shared o) : PoolInv serial ⟨p.shared,p.threads++[o]⟩ := by
      refine ⟨h.recorded,fun o' ho' => ?_⟩
      rcases List.mem_append.mp ho' with ho' | ho'
      · exact h.owners o' ho'
      · rw [List.mem_singleton.mp ho']
        exact ho
    split at henter
    · cases henter
      exact hnew (o := .refused _) trivial
    · rename_i state hopen
      cases henter
      exact hnew (o := .idle _ _) (h.recorded.read_mem ((withExecutor_read hopen).1 rfl))
    · rename_i state hopen
      cases henter
      exact hnew (o := .opening _ _ _) ((withExecutor_read hopen).2 rfl)

theorem turn_inv {move : Turn} (h : Recorded serial sh) (ho : OwnerInv serial sh o)
    (hturn : turn serial move sh o=some (sh',o')) :
    Recorded serial sh' ∧ OwnerInv serial sh' o' ∧ ∀ c∈sh.commits, c∈sh'.commits := by
  cases move with
  | request q fault =>
    cases o with
    | idle s reply =>
      obtain ⟨rfl,rfl⟩:=Prod.mk.inj (Option.some.inj hturn)
      exact ⟨h,begin_inv h ho fault q,fun c hc => hc⟩
    | _ => contradiction
  | commit publish =>
    cases o with
    | committing s cause next =>
      simp only [turn] at hturn
      cases hc : sh.commit serial publish (some s.state) cause next with
      | mk sh₁ result =>
        cases result with
        | ok u =>
          have hcommitted:=commit_ok hc
          simp only [hc] at hturn
          obtain ⟨rfl,rfl⟩:=Prod.mk.inj (Option.some.inj hturn)
          refine ⟨h.append ho.1 ho.2 hcommitted,?_,?_⟩
          · exact ⟨⟨next,some s.state,cause⟩,by simp [hcommitted.commits],rfl⟩
          · exact fun c hmem => by simp [hcommitted.commits,hmem]
        | error e =>
          obtain ⟨hcommits,hlatest,hlimits,-⟩:=commit_error hc
          simp only [hc] at hturn
          obtain ⟨rfl,rfl⟩:=Prod.mk.inj (Option.some.inj hturn)
          have hsub : ∀ c∈sh.commits, c∈sh₁.commits := fun c hmem => hcommits ▸ hmem
          obtain ⟨c,hmem,hs⟩:=ho.1
          exact ⟨h.unchanged hcommits hlatest hlimits,⟨c,hsub c hmem,hs⟩,hsub⟩
    | opening limits mirrorExecutor next =>
      simp only [turn] at hturn
      cases hc : sh.commit serial publish none .bootstrap next with
      | mk sh₁ result =>
        cases result with
        | ok u =>
          have hcommitted:=commit_ok hc
          simp only [hc] at hturn
          obtain ⟨rfl,rfl⟩:=Prod.mk.inj (Option.some.inj hturn)
          refine ⟨h.first ho hcommitted,?_,?_⟩
          · exact ⟨⟨next,none,.bootstrap⟩,by simp [hcommitted.commits],rfl⟩
          · exact fun c hmem => by simp [hcommitted.commits,hmem]
        | error e =>
          obtain ⟨hcommits,hlatest,hlimits,-⟩:=commit_error hc
          simp only [hc] at hturn
          obtain ⟨rfl,rfl⟩:=Prod.mk.inj (Option.some.inj hturn)
          exact ⟨h.unchanged hcommits hlatest hlimits,trivial,fun c hmem => hcommits ▸ hmem⟩
    | _ => contradiction

theorem next_inv (h : PoolInv serial p) (hnext : (supervision serial).next p a=some p') : PoolInv serial p' := by
  obtain ⟨e,sh',t,-,he,rfl⟩ | ⟨move,l,o,r,sh',o',-,hl,ht,rfl⟩:=Program.next_cases hnext
  · exact enter_inv h he
  · have howners:=h.owners
    rw [hl] at howners
    obtain ⟨hrec,ho',hsub⟩:=turn_inv h.recorded (howners o (by simp)) ht
    refine ⟨hrec,fun x hx => ?_⟩
    simp only [List.mem_append,List.mem_cons] at hx howners
    rcases hx with hx | rfl | hx
    · exact (howners x (.inl hx)).grows hsub
    · exact ho'
    · exact (howners x (.inr (.inr hx))).grows hsub

def supervisionStart (limits : ApplicationLimits) : Pool Shared Owner := ⟨⟨.new limits,[]⟩,[]⟩

theorem run_inv {actions : List (Action Opening Turn)}
    (hrun : (supervision serial).run (supervisionStart limits) actions=some p) : PoolInv serial p := by
  refine Program.run_invariant (C := fun _ _ => True) (fun _ _ _ hp _ hnext => next_inv hp hnext) ?_ Program.along_true hrun
  refine ⟨⟨rfl,rfl,⟨by simp [supervisionStart],by simp [supervisionStart]⟩,?_,?_⟩,by simp [supervisionStart]⟩
  · simp [supervisionStart]
  · simp [supervisionStart]

def Owner.succeeded : Owner → Bool
  | .idle _ none | .idle _ (some (.ok true)) => true
  | _ => false

structure Lossless (serial : Serial) (p : Pool Shared Owner) : Prop where
  latest : p.shared.store.latest=p.shared.commits.getLast?.map Commit.record
  revisions : p.shared.commits.map (fun c => c.record.revision)=List.range' 1 p.shared.commits.length
  replaces : (∀ c∈p.shared.commits.head?, c.base=none) ∧ p.shared.commits.IsChain fun a b => b.base=some a.record
  valid : ∀ c∈p.shared.commits, c.record.validate serial p.shared.store.limits=.ok ()
  memory : ∀ o∈p.threads, ∀ s∈o.memory, ∃ c∈p.shared.commits, c.record=s.state
  /- A step that does not end an operation well changes no record; only a publication that
  fails leaves a mark, a closed store. -/
  kept : ∀ move o o' sh', o∈p.threads → turn serial move p.shared o=some (sh',o') → o'.succeeded=false →
    sh'.commits=p.shared.commits ∧ sh'.store.latest=p.shared.store.latest ∧ o'.memory=o.memory ∧
      (sh'=p.shared ∨ (∃ e renamed, move=.commit (.failed e renamed)) ∧ sh'.store.failed=true)
  pending : ∀ c∈p.shared.commits.getLast?, ∀ comp g, c.record.generation comp=some g ↔ Owed serial p.shared.commits comp g

theorem begin_kept (latest : Except String (Option DesiredStateRecord)) (q : Request)
    (h : (s.begin serial latest q).succeeded=false) : (s.begin serial latest q).memory=some s := by
  cases q with
  | submit | finishUpgrade | commitMirrors =>
    simp only [AppSupervisor.begin]
    split <;> rfl
  | refresh =>
    simp only [AppSupervisor.begin] at h ⊢
    split
    · rfl
    · rename_i next hrefresh
      simp [hrefresh,Owner.succeeded] at h

theorem turn_kept {move : Turn} (hturn : turn serial move sh o=some (sh',o')) (hfailed : o'.succeeded=false) :
    sh'.commits=sh.commits ∧ sh'.store.latest=sh.store.latest ∧ o'.memory=o.memory ∧
      (sh'=sh ∨ (∃ e renamed, move=.commit (.failed e renamed)) ∧ sh'.store.failed=true) := by
  cases move with
  | request q fault =>
    cases o with
    | idle s reply =>
      cases hturn
      exact ⟨rfl,rfl,begin_kept _ q hfailed,.inl rfl⟩
    | _ => contradiction
  | commit publish =>
    have hmark {base : Option DesiredStateRecord} {cause : Cause} {next : DesiredStateRecord} {e : String} {sh₁ : Shared}
        (hc : sh.commit serial publish base cause next=(sh₁,.error e)) :
        sh₁=sh ∨ (∃ e renamed, Turn.commit publish=.commit (.failed e renamed)) ∧ sh₁.store.failed=true := by
      rcases (commit_error hc).2.2.2 with heq | ⟨⟨e,renamed,rfl⟩,hclosed⟩
      · exact .inl heq
      · exact .inr ⟨⟨e,renamed,rfl⟩,hclosed⟩
    cases o with
    | committing | opening =>
      simp only [turn] at hturn
      split at hturn
      · cases hturn
        simp [Owner.succeeded] at hfailed
      · rename_i hc
        obtain ⟨hcommits,hlatest,-⟩:=commit_error hc
        cases hturn
        exact ⟨hcommits,hlatest,rfl,hmark hc⟩
    | _ => contradiction

/-- Over every order of operations of any number of supervisors, with a store that may fail. -/
theorem supervision_lossless (serial : Serial) (limits : ApplicationLimits) (actions : List (Action Opening Turn))
    (p : Pool Shared Owner) (hrun : (supervision serial).run (supervisionStart limits) actions=some p) :
    Lossless serial p := by
  have h:=run_inv hrun
  refine ⟨h.recorded.latest,h.recorded.revisions,h.recorded.replaces,h.recorded.valid,?_,?_,h.recorded.pending⟩
  · intro o ho s hs
    have hinv:=h.owners o ho
    cases o with
    | idle s' reply =>
      cases hs
      exact hinv
    | committing s' cause next =>
      cases hs
      exact hinv.1
    | opening | refused => contradiction
  · intro move o o' sh' _ hturn hfailed
    exact turn_kept hturn hfailed

def policyText : InstancePolicy → String
  | .singleton => "instances = \"Singleton\"\n"
  | .ephemeral => "instances = \"Ephemeral\"\n"
  | .sharded n => "instances = \x7b Sharded = "++toString n++" \x7d\n"
  | .pool n => "instances = \x7b Pool = "++toString n++" \x7d\n"

def componentText (c : ComponentSpec) : String :=
  "name = \""++c.name++"\"\nengine = \"parrot\"\n"++policyText c.instances++"\n[artifact.Props]\nfactory = \"app."++c.name++"\"\n"

/-- Texts of the samples below, whose components differ in name and instances only. -/
def asciiSerial : Serial where
  toHost := asciiHost
  journalJson _ := ⟨[2],none⟩
  textJson s := ⟨[s.utf8ByteSize+2],none⟩
  manifestToml m := .ok (m.components.foldl (fun text c => text++"\n[[components]]\n"++componentText c)
    ("name = \""++m.name++"\"\nversion = \""++m.version++"\"\n"))
  componentToml c := .ok (componentText c)
  tableToml _ := .ok ""
  debug errors := "["++toString errors.length++" errors]"

def firstManifest : AppManifest := sampleManifest [sampleComponent "a" .singleton [],sampleComponent "b" .singleton []]
def scaledManifest : AppManifest := sampleManifest [sampleComponent "a" (.pool 2) [],sampleComponent "b" .singleton []]
def reducedManifest : AppManifest := sampleManifest [sampleComponent "b" .singleton []]

/-- One supervisor opens the store and scales `a`. -/
def scaleActions : List (Action Opening Turn) :=
  [.enter (.new {} firstManifest false none),.step 0 (.commit .done),
    .step 0 (.request (.submit scaledManifest) none),.step 0 (.commit .done)]

theorem supervision_lossless_scaled : ∃ p,
    (supervision asciiSerial).run (supervisionStart {}) scaleActions=some p ∧ Lossless asciiSerial p ∧
      (p.shared.store.latest.bind fun r => r.generation "a")=some 2 := by
  have hsome : ((supervision asciiSerial).run (supervisionStart {}) scaleActions).isSome=true := by decide +kernel
  obtain ⟨p,hp⟩:=Option.isSome_iff_exists.mp hsome
  have hvalue : ((supervision asciiSerial).run (supervisionStart {}) scaleActions).map
      (fun p => p.shared.store.latest.bind fun r => r.generation "a")=some (some 2) := by decide +kernel
  rw [hp] at hvalue
  exact ⟨p,hp,supervision_lossless asciiSerial {} scaleActions p hp,Option.some.inj hvalue⟩

/-- `a` is scaled, removed and declared again. -/
def readdActions : List (Action Opening Turn) :=
  scaleActions++[.step 0 (.request (.submit reducedManifest) none),.step 0 (.commit .done),
    .step 0 (.request (.submit scaledManifest) none),.step 0 (.commit .done)]

/-- Scaling `a` fails after the file was replaced. -/
def faultActions : List (Action Opening Turn) :=
  [.enter (.new {} firstManifest false none),.step 0 (.commit .done),
    .step 0 (.request (.submit scaledManifest) none),.step 0 (.commit (.failed "desired storage: sync" true))]

instance changedDecidable (serial : Serial) (before after : DesiredStateRecord) (comp : String) :
    Decidable (Changed serial before after comp) :=
  match hb : before.manifest.component comp, ha : after.manifest.component comp with
  | some old, some new =>
    decidable_of_iff (after.manifest.version≠before.manifest.version ∨
        AppSupervisor.overlayText serial after.manifest.configOverlay ≠
          AppSupervisor.overlayText serial before.manifest.configOverlay ∨
        after.manifest.wiring≠before.manifest.wiring ∨ serial.componentToml new≠serial.componentToml old)
      ⟨fun h => ⟨old,new,hb,ha,h⟩,by
        rintro ⟨old',new',hb',ha',h⟩
        obtain rfl:=Option.some.inj (hb.symm.trans hb')
        obtain rfl:=Option.some.inj (ha.symm.trans ha')
        exact h⟩
  | none, _ => isFalse (by
      rintro ⟨old,new,hold,-⟩
      rw [hb] at hold
      contradiction)
  | some _, none => isFalse (by
      rintro ⟨old,new,-,hnew,-⟩
      rw [ha] at hnew
      contradiction)

/-- The second of four commits changes the component at revision 2, and none of the others does
or finishes it. -/
def forgottenCommits : List Commit → Bool
  | [c₁,c₂,c₃,c₄] => decide (c₂.record.revision=2 ∧ Changed asciiSerial c₁.record c₂.record "a" ∧
      ¬Changed asciiSerial c₂.record c₃.record "a" ∧ ¬Changed asciiSerial c₃.record c₄.record "a" ∧
      c₃.cause ≠ .finish "a" 2 ∧ c₄.cause ≠ .finish "a" 2)
  | _ => false

theorem forgottenCommits_owed {commits : List Commit} (h : forgottenCommits commits=true) :
    OwedEver asciiSerial commits "a" 2 := by
  unfold forgottenCommits at h
  split at h
  · rename_i c₁ c₂ c₃ c₄
    obtain ⟨hrev,hchanged,hthird,hfourth,hcause,hcause'⟩:=of_decide_eq_true h
    refine ⟨[],c₁,c₂,[c₃,c₄],rfl,hrev,hchanged,?_,?_⟩
    · simp [hthird,hfourth]
    · simp [hcause,hcause']
  · contradiction

/-- A removed component is not pending when it is declared again, and an operation that failed
may have replaced the file. -/
theorem readded_not_pending : (∃ p, (supervision asciiSerial).run (supervisionStart {}) readdActions=some p ∧
      OwedEver asciiSerial p.shared.commits "a" 2 ∧ ∃ r, p.shared.store.latest=some r ∧ r.generation "a" = none) ∧
    ∃ p, (supervision asciiSerial).run (supervisionStart {}) faultActions=some p ∧
      (p.shared.store.latest.map DesiredStateRecord.revision,p.shared.store.file.map DesiredStateRecord.revision) =
        (some 1,some 2) := by
  constructor
  · have hrun : ((supervision asciiSerial).run (supervisionStart {}) readdActions).any (fun p =>
        forgottenCommits p.shared.commits)=true := by decide +kernel
    have hlatest : ((supervision asciiSerial).run (supervisionStart {}) readdActions).any (fun p =>
        p.shared.store.latest.any fun r => (r.generation "a").isNone)=true := by decide +kernel
    have hsome : ((supervision asciiSerial).run (supervisionStart {}) readdActions).isSome=true := by decide +kernel
    obtain ⟨p,hp⟩:=Option.isSome_iff_exists.mp hsome
    rw [hp,Option.any_some] at hrun hlatest
    refine ⟨p,hp,forgottenCommits_owed hrun,?_⟩
    cases hr : p.shared.store.latest with
    | none => simp [hr] at hlatest
    | some r => exact ⟨r,rfl,by simpa [hr] using hlatest⟩
  · have hrun : ((supervision asciiSerial).run (supervisionStart {}) faultActions).map (fun p =>
        (p.shared.store.latest.map DesiredStateRecord.revision,p.shared.store.file.map DesiredStateRecord.revision)) =
        some (some 1,some 2) := by decide +kernel
    obtain ⟨p,hp,hvalue⟩:=Option.map_eq_some_iff.mp hrun
    exact ⟨p,hp,hvalue⟩

end Parrot.App
