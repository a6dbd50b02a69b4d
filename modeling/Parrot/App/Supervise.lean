import Mathlib.Data.List.Range
import Parrot.App.Desired
import Parrot.App.Paths

/-! # Supervisors of one application

Every operation of a supervisor reads the store and, later, commits to it; other supervisors
commit in between. -/

namespace Parrot.App
open Machine Threads

inductive Cause where
  | bootstrap
  | submit
  | finish (comp : String) (generation : ℕ)
  | mirrors
  deriving DecidableEq

structure Commit where
  record : DesiredStateRecord
  base : Option DesiredStateRecord
  cause : Cause

structure Shared where
  store : Store
  commits : List Commit

inductive Request where
  | submit (m : AppManifest)
  | finishUpgrade (comp : String) (generation : ℕ)
  | commitMirrors (mirrors : OrderedMap String MirrorIntent)
  | refresh

/-- A supervisor that is being opened, is idle with its last reply, is about to commit, or
could not be opened. -/
inductive Owner where
  | opening (limits : ApplicationLimits) (mirrorExecutor : Bool) (next : DesiredStateRecord)
  | idle (s : AppSupervisor) (reply : Option (Except String Bool))
  | committing (s : AppSupervisor) (cause : Cause) (next : DesiredStateRecord)
  | refused (e : String)

def Owner.memory : Owner → Option AppSupervisor
  | .idle s _ | .committing s _ _ => some s
  | .opening _ _ _ | .refused _ => none

inductive Opening where
  | new (limits : ApplicationLimits) (manifest : AppManifest) (mirrorExecutor : Bool) (fault : Option String)

inductive Turn where
  | request (r : Request) (fault : Option String)
  | commit (publish : Publish)

section
variable (serial : Serial)

def AppSupervisor.begin (s : AppSupervisor) (latest : Except String (Option DesiredStateRecord)) : Request → Owner
  | .submit m =>
    match s.submit serial latest m with
    | .error e => .idle s (some (.error e))
    | .ok none => .idle s (some (.ok true))
    | .ok (some next) => .committing s .submit next
  | .finishUpgrade comp generation =>
    match s.finishUpgrade latest comp generation with
    | .error e => .idle s (some (.error e))
    | .ok none => .idle s (some (.ok false))
    | .ok (some next) => .committing s (.finish comp generation) next
  | .commitMirrors mirrors =>
    match s.commitMirrors serial latest mirrors with
    | .error e => .idle s (some (.error e))
    | .ok next => .committing s .mirrors next
  | .refresh =>
    match s.refresh serial latest with
    | .error e => .idle s (some (.error e))
    | .ok next => .idle {s with state:=next} (some (.ok true))

def Shared.commit (sh : Shared) (publish : Publish) (base : Option DesiredStateRecord) (cause : Cause) (next : DesiredStateRecord) :
    Shared × Except String Unit :=
  match sh.store.commit serial publish (base.map DesiredStateRecord.revision) next with
  | (store,.ok ()) => (⟨store,sh.commits++[⟨next,base,cause⟩]⟩,.ok ())
  | (store,.error e) => (⟨store,sh.commits⟩,.error e)

def enter : Opening → Shared → Option (Shared × Option Owner)
  | .new limits manifest mirrorExecutor fault, sh =>
    match AppSupervisor.withExecutor serial limits (sh.store.read fault) manifest mirrorExecutor with
    | .error e => some (sh,some (.refused e))
    | .ok (state,true) => some (sh,some (.idle ⟨limits,state,mirrorExecutor⟩ none))
    | .ok (state,false) => some (sh,some (.opening limits mirrorExecutor state))

def turn : Turn → Shared → Owner → Option (Shared × Owner)
  | .request r fault, sh, .idle s _ => some (sh,s.begin serial (sh.store.read fault) r)
  | .commit publish, sh, .committing s cause next =>
    match sh.commit serial publish (some s.state) cause next with
    | (sh,.ok ()) => some (sh,.idle {s with state:=next} (some (.ok true)))
    | (sh,.error e) => some (sh,.idle s (some (.error e)))
  | .commit publish, sh, .opening limits mirrorExecutor next =>
    match sh.commit serial publish none .bootstrap next with
    | (sh,.ok ()) => some (sh,.idle ⟨limits,next,mirrorExecutor⟩ none)
    | (sh,.error e) => some (sh,.refused e)
  | _, _, _ => none

def supervision : Threads.Program Shared Owner Opening Turn := ⟨enter serial,turn serial⟩

/-- Declared before and after, and not the same: by its own definition, or by the version, the
overlay or the wiring. -/
def Changed (before after : DesiredStateRecord) (comp : String) : Prop :=
  ∃ old new, before.manifest.component comp=some old ∧ after.manifest.component comp=some new ∧
    (after.manifest.version≠before.manifest.version ∨
      AppSupervisor.overlayText serial after.manifest.configOverlay ≠
        AppSupervisor.overlayText serial before.manifest.configOverlay ∨
      after.manifest.wiring≠before.manifest.wiring ∨ serial.componentToml new≠serial.componentToml old)

/-- The commit of revision `g` was the last to change the component, which stayed declared, and
no completion of that revision followed. -/
def Owed (commits : List Commit) (comp : String) (g : ℕ) : Prop :=
  ∃ before prev change after, commits=before++prev::change::after ∧ change.record.revision=g ∧
    Changed serial prev.record change.record comp ∧
    (change::after).IsChain (fun a b => (b.record.manifest.component comp).isSome ∧ ¬Changed serial a.record b.record comp) ∧
    ∀ c∈after, c.cause ≠ .finish comp g

/-- The same, also where the component was removed since. -/
def OwedEver (commits : List Commit) (comp : String) (g : ℕ) : Prop :=
  ∃ before prev change after, commits=before++prev::change::after ∧ change.record.revision=g ∧
    Changed serial prev.record change.record comp ∧
    (change::after).IsChain (fun a b => ¬Changed serial a.record b.record comp) ∧ ∀ c∈after, c.cause ≠ .finish comp g
end

variable {serial : Serial} {before prev c : Commit} {commits : List Commit} {comp : String} {g : ℕ}

theorem owed_single : ¬Owed serial [c] comp g := by
  rintro ⟨before,prev,change,after,heq,-⟩
  have:=congrArg List.length heq
  simp only [List.length_cons,List.length_nil,List.length_append] at this
  omega

theorem owed_snoc : Owed serial (commits++[prev]++[c]) comp g ↔
    (c.record.revision=g ∧ Changed serial prev.record c.record comp) ∨
      (Owed serial (commits++[prev]) comp g ∧ (c.record.manifest.component comp).isSome ∧
        ¬Changed serial prev.record c.record comp ∧ c.cause ≠ .finish comp g) := by
  constructor
  · rintro ⟨before,prev',change,after,heq,hrev,hchanged,hchain,hcause⟩
    rcases List.eq_nil_or_concat after with rfl | ⟨after,d,rfl⟩
    · have hsplit : (commits++[prev])++[c]=(before++[prev'])++[change] := by
        rw [heq]
        simp
      obtain ⟨hprev,hc⟩:=List.append_inj' hsplit rfl
      obtain ⟨-,hp⟩:=List.append_inj' hprev rfl
      obtain rfl:=List.singleton_inj.mp hc
      obtain rfl:=List.singleton_inj.mp hp
      exact .inl ⟨hrev,hchanged⟩
    · have hsplit : (commits++[prev])++[c]=(before++prev'::change::after)++[d] := by
        rw [heq]
        simp
      obtain ⟨hrest,hc⟩:=List.append_inj' hsplit rfl
      obtain rfl:=List.singleton_inj.mp hc
      have hlast : (change::after).getLast? = some prev := by
        have:=congrArg List.getLast? hrest
        simpa [List.getLast?_append] using this.symm
      rw [List.concat_eq_append,← List.cons_append] at hchain
      obtain ⟨hchain,-,hstep⟩:=List.isChain_append.mp hchain
      obtain ⟨hdecl,hsame⟩:=hstep prev hlast c rfl
      refine .inr ⟨⟨before,prev',change,after,hrest,hrev,hchanged,hchain,?_⟩,hdecl,hsame,hcause c (by simp)⟩
      exact fun d hd => hcause d (by simp [hd])
  · rintro (⟨hrev,hchanged⟩ | ⟨⟨before,prev',change,after,heq,hrev,hchanged,hchain,hcause⟩,hdecl,hsame,hfinish⟩)
    · refine ⟨commits,prev,c,[],by simp,hrev,hchanged,by simp,by simp⟩
    · refine ⟨before,prev',change,after++[c],by rw [heq]; simp,hrev,hchanged,?_,?_⟩
      · have hlast : (change::after).getLast? = some prev := by
          have:=congrArg List.getLast? heq
          simpa [List.getLast?_append] using this.symm
        rw [← List.cons_append]
        refine List.isChain_append.mpr ⟨hchain,by simp,?_⟩
        intro a ha b hb
        obtain rfl:=Option.some.inj (hlast.symm.trans ha)
        cases hb
        exact ⟨hdecl,hsame⟩
      · intro d hd
        rcases List.mem_append.mp hd with hd | hd
        · exact hcause d hd
        · rw [List.mem_singleton.mp hd]
          exact hfinish

/-- The generation of the rollout that is under way. -/
def DesiredStateRecord.generation (r : DesiredStateRecord) (comp : String) : Option ℕ :=
  (r.pending.get comp).map PendingUpgrade.generation

structure Follows (serial : Serial) (base : DesiredStateRecord) (cause : Cause) (next : DesiredStateRecord) : Prop where
  revision : next.revision=base.revision+1
  pending : ∀ comp g, next.generation comp=some g ↔ (next.revision=g ∧ Changed serial base next comp) ∨
      (base.generation comp=some g ∧ (next.manifest.component comp).isSome ∧ ¬Changed serial base next comp ∧
        cause ≠ .finish comp g)

variable {limits : ApplicationLimits} {s : AppSupervisor} {r next : DesiredStateRecord} {m : AppManifest}
  {latest : Except String (Option DesiredStateRecord)}

theorem checkAll_ok {κ α : Type} {f : κ → α → Except String Unit} {l : List (κ × α)} (h : checkAll f l=.ok ()) :
    ∀ e∈l, f e.1 e.2=.ok () := by
  induction l with
  | nil => simp
  | cons e l ih =>
    obtain ⟨k,a⟩:=e
    simp only [checkAll,bind,Except.bind] at h
    cases hf : f k a with
    | error e => simp [hf] at h
    | ok u =>
      rw [hf] at h
      intro e he
      rcases List.mem_cons.mp he with rfl | he
      · exact hf
      · exact ih h e he

theorem validate_parts (h : r.validate serial limits=.ok ()) :
    validateWithLimits serial.toHost limits r.manifest=.ok () ∧ ∀ e∈r.pending.entries, r.checkPending e.1 e.2=.ok () := by
  simp only [DesiredStateRecord.validate,bind,Except.bind] at h
  cases hv : validateWithLimits serial.toHost limits r.manifest with
  | error e => simp [hv,Except.mapError] at h
  | ok u =>
    simp only [hv,Except.mapError] at h
    split at h
    · contradiction
    · cases hj : validateJournal serial limits r.mirrors with
      | error e => simp [hj] at h
      | ok u =>
        simp only [hj] at h
        exact ⟨rfl,checkAll_ok h⟩

theorem pending_declared (h : r.validate serial limits=.ok ()) {comp : String} {g : ℕ} (hg : r.generation comp=some g) :
    (r.manifest.component comp).isSome := by
  obtain ⟨u,hu,-⟩:=Option.map_eq_some_iff.mp hg
  have hcheck:=(validate_parts h).2 (comp,u) (OrderedMap.get_eq_some.mp hu)
  simp only [DesiredStateRecord.checkPending] at hcheck
  cases hc : r.manifest.component comp with
  | none => simp [hc] at hcheck
  | some c => rfl

theorem not_changed_same (h : next.manifest=r.manifest) : ¬Changed serial r next comp := by
  rintro ⟨old,new,hold,hnew,hdiff⟩
  rw [h,hold] at hnew
  cases hnew
  simp [h] at hdiff

theorem nextRevision_ok {revision : ℕ} (h : s.nextRevision=.ok revision) : revision=s.state.revision+1 := by
  unfold AppSupervisor.nextRevision at h
  cases hadd : checkedAdd s.state.revision 1 with
  | none => simp [hadd] at h
  | some n =>
    simp only [hadd,Except.ok.injEq] at h
    rw [← h]
    exact (checkedAdd_eq_some.mp hadd).1

theorem finish_follows (hvalid : s.state.validate serial limits=.ok ())
    (h : s.finishUpgrade latest comp g=.ok (some next)) : Follows serial s.state (.finish comp g) next := by
  simp only [AppSupervisor.finishUpgrade,bind,Except.bind,pure,Except.pure] at h
  cases hc : s.requireCurrent latest with
  | error e => simp [hc] at h
  | ok u =>
    simp only [hc] at h
    split at h
    · simp at h
    · rename_i hgen
      rw [not_not] at hgen
      cases hr : s.nextRevision with
      | error e => simp [hr] at h
      | ok revision =>
        simp only [hr,Except.ok.injEq,Option.some.injEq] at h
        subst h
        refine ⟨nextRevision_ok hr,fun x g' => ?_⟩
        have hsame : ¬Changed serial s.state {s.state with revision:=revision,pending:=s.state.pending.remove comp} x :=
          not_changed_same rfl
        simp only [hsame,and_false,false_or,not_false_eq_true,true_and]
        by_cases hx : x=comp
        · subst hx
          have hgen : s.state.generation x=some g := hgen
          simp only [DesiredStateRecord.generation,OrderedMap.get_remove_self,Option.map_none,reduceCtorEq,false_iff,not_and,
            not_not]
          intro hg' _
          obtain rfl:=Option.some.inj (hgen.symm.trans hg')
          rfl
        · have hget : ({s.state with revision:=revision,pending:=s.state.pending.remove comp} : DesiredStateRecord).generation x =
              s.state.generation x := by
            simp [DesiredStateRecord.generation,OrderedMap.get_remove_of_ne hx]
          rw [hget]
          constructor
          · exact fun hg' => ⟨hg',pending_declared hvalid hg',by simp [Ne.symm hx]⟩
          · exact fun hg' => hg'.1

theorem mirrors_follows (hvalid : s.state.validate serial limits=.ok ()) {mirrors : OrderedMap String MirrorIntent}
    (h : s.commitMirrors serial latest mirrors=.ok next) : Follows serial s.state .mirrors next := by
  simp only [AppSupervisor.commitMirrors,bind,Except.bind,pure,Except.pure] at h
  cases hc : s.requireCurrent latest with
  | error e => simp [hc] at h
  | ok u =>
    cases hr : s.nextRevision with
    | error e => simp [hc,hr] at h
    | ok revision =>
      simp only [hc,hr] at h
      split at h
      · simp at h
      · simp only [Except.ok.injEq] at h
        subst h
        refine ⟨nextRevision_ok hr,fun x g' => ?_⟩
        have hsame : ¬Changed serial s.state {s.state with revision:=revision,mirrors:=mirrors} x := not_changed_same rfl
        simp only [hsame,and_false,false_or,not_false_eq_true,true_and]
        constructor
        · exact fun hg' => ⟨hg',pending_declared hvalid hg',by simp⟩
        · exact fun hg' => hg'.1

variable {old : AppManifest}

theorem markPending_other {global : Bool} {revision : ℕ} {components : List ComponentSpec}
    {pending pending' : OrderedMap String PendingUpgrade} {x : String} (hx : x∉components.map ComponentSpec.name)
    (h : AppSupervisor.markPending serial old global revision components pending=.ok pending') :
    pending'.get x=pending.get x := by
  induction components generalizing pending with
  | nil =>
    cases h
    rfl
  | cons c components ih =>
    simp only [List.map_cons,List.mem_cons,not_or] at hx
    simp only [AppSupervisor.markPending] at h
    cases hold : old.component c.name with
    | none =>
      simp only [hold] at h
      exact ih hx.2 h
    | some before =>
      simp only [hold,bind,Except.bind] at h
      cases hb : AppSupervisor.componentChange serial global before c with
      | error e => simp [hb] at h
      | ok b =>
        simp only [hb] at h
        rw [ih hx.2 h]
        cases b with
        | false => rfl
        | true => exact OrderedMap.get_insert_of_ne hx.1

theorem markPending_get {global : Bool} {revision : ℕ} {components : List ComponentSpec}
    {pending pending' : OrderedMap String PendingUpgrade} (hnodup : (components.map ComponentSpec.name).Nodup)
    (h : AppSupervisor.markPending serial old global revision components pending=.ok pending') {c : ComponentSpec}
    (hc : c∈components) : (old.component c.name=none → pending'.get c.name=pending.get c.name) ∧ ∀ before,
    old.component c.name=some before → ∃ b, AppSupervisor.componentChange serial global before c=.ok b ∧
    pending'.get c.name=if b then some ⟨revision,c.upgrade⟩ else pending.get c.name := by
  induction components generalizing pending with
  | nil => simp at hc
  | cons d components ih =>
    simp only [List.map_cons,List.nodup_cons] at hnodup
    simp only [AppSupervisor.markPending] at h
    rcases List.mem_cons.mp hc with rfl | hmem
    · cases hold : old.component c.name with
      | none =>
        simp only [hold] at h
        exact ⟨fun _ => markPending_other hnodup.1 h,by simp⟩
      | some before =>
        simp only [hold,bind,Except.bind] at h
        cases hb : AppSupervisor.componentChange serial global before c with
        | error e => simp [hb] at h
        | ok b =>
          simp only [hb] at h
          refine ⟨by simp,?_⟩
          intro before' heq
          cases heq
          refine ⟨b,hb,?_⟩
          rw [markPending_other hnodup.1 h]
          cases b <;> simp
    · have hne : c.name≠d.name := by
        intro heq
        exact hnodup.1 (heq ▸ List.mem_map_of_mem hmem)
      cases hold : old.component d.name with
      | none =>
        simp only [hold] at h
        exact ih hnodup.2 h hmem
      | some before =>
        simp only [hold,bind,Except.bind] at h
        cases hb : AppSupervisor.componentChange serial global before d with
        | error e => simp [hb] at h
        | ok b =>
          simp only [hb] at h
          have hrest:=ih hnodup.2 h hmem
          have hget : (if b=true then pending.insert d.name ⟨revision,d.upgrade⟩ else pending).get c.name =
              pending.get c.name := by
            cases b with
            | false => rfl
            | true => exact OrderedMap.get_insert_of_ne hne
          rwa [hget] at hrest

theorem globalChange_ok {b : Bool} (h : AppSupervisor.globalChange serial old m=.ok b) : b=true ↔
    m.version≠old.version ∨ AppSupervisor.overlayText serial m.configOverlay≠AppSupervisor.overlayText serial
    old.configOverlay ∨ m.wiring≠old.wiring := by
  unfold AppSupervisor.globalChange at h
  split at h
  · rename_i hversion
    cases h
    simp [hversion]
  · rename_i hversion
    rw [not_not] at hversion
    simp only [bind,Except.bind,pure,Except.pure] at h
    cases hn : AppSupervisor.overlayText serial m.configOverlay with
    | error e => simp [hn] at h
    | ok new =>
      cases ho : AppSupervisor.overlayText serial old.configOverlay with
      | error e => simp [hn,ho] at h
      | ok before =>
        simp only [hn,ho,Except.ok.injEq] at h
        rw [← h]
        simp [hversion]

theorem componentChange_ok {global : Bool} {old c : ComponentSpec} {b : Bool}
    (h : AppSupervisor.componentChange serial global old c=.ok b) :
    b=true ↔ global=true ∨ serial.componentToml c≠serial.componentToml old := by
  unfold AppSupervisor.componentChange at h
  split at h
  · rename_i hglobal
    cases h
    simp [hglobal]
  · rename_i hglobal
    simp only [bind,Except.bind,pure,Except.pure] at h
    cases hn : serial.componentToml c with
    | error e => simp [hn] at h
    | ok new =>
      cases ho : serial.componentToml old with
      | error e => simp [hn,ho] at h
      | ok before =>
        simp only [hn,ho,Except.ok.injEq] at h
        rw [← h]
        simp [hglobal]

theorem component_some {c : ComponentSpec} (h : m.component comp=some c) : c∈m.components ∧ c.name=comp :=
  ⟨List.mem_of_find?_eq_some h,by simpa using List.find?_some h⟩

theorem replaceManifest_follows (h : s.replaceManifest serial m=.ok next) : Follows serial s.state .submit next := by
  simp only [AppSupervisor.replaceManifest,bind,Except.bind,pure,Except.pure] at h
  cases hr : s.nextRevision with
  | error e => simp [hr] at h
  | ok revision =>
    cases hg : AppSupervisor.globalChange serial s.state.manifest m with
    | error e => simp [hr,hg] at h
    | ok global =>
      cases hp : AppSupervisor.markPending serial s.state.manifest global revision m.components
          (s.state.pending.retain fun name _ => (m.component name).isSome) with
      | error e => simp [hr,hg,hp] at h
      | ok pending =>
        simp only [hr,hg,hp] at h
        split at h
        · simp at h
        · rename_i hvalid
          split at h
          · simp at h
          · cases h
            refine ⟨nextRevision_ok hr,fun x g => ?_⟩
            have hnames:=(validate_accepted (validate_parts hvalid).1).distinct
            simp only [DesiredStateRecord.generation]
            cases hnew : m.component x with
            | none =>
              -- Removed: its rollout goes with it.
              have hx : x∉m.components.map ComponentSpec.name := by
                intro hx
                obtain ⟨c,hc,rfl⟩:=List.mem_map.mp hx
                have:=List.find?_eq_none.mp hnew c hc
                simp at this
              rw [markPending_other hx hp,OrderedMap.get_retain]
              have hchanged : ¬Changed serial s.state ⟨revision,m,pending,s.state.mirrors⟩ x := by
                rintro ⟨old,new,-,hnew',-⟩
                rw [hnew] at hnew'
                contradiction
              cases s.state.pending.get x <;> simp [hnew,hchanged]
            | some c =>
              obtain ⟨hc,rfl⟩:=component_some hnew
              obtain ⟨hadded,hkept⟩:=markPending_get hnames hp hc
              have hretain : (s.state.pending.retain fun name _ => (m.component name).isSome).get c.name =
                  s.state.pending.get c.name := by
                rw [OrderedMap.get_retain]
                cases s.state.pending.get c.name <;> simp [hnew]
              rw [hretain] at hadded hkept
              cases hold : s.state.manifest.component c.name with
              | none =>
                have hchanged : ¬Changed serial s.state ⟨revision,m,pending,s.state.mirrors⟩ c.name := by
                  rintro ⟨old,new,hold',-⟩
                  rw [hold] at hold'
                  contradiction
                rw [hadded hold]
                simp [hchanged]
              | some old =>
                obtain ⟨b,hb,hget⟩:=hkept old hold
                have hiff : Changed serial s.state ⟨revision,m,pending,s.state.mirrors⟩ c.name ↔ b=true := by
                  rw [componentChange_ok hb,globalChange_ok hg]
                  constructor
                  · rintro ⟨old',new',hold',hnew',hdiff⟩
                    obtain rfl:=Option.some.inj (hold.symm.trans hold')
                    obtain rfl:=Option.some.inj (hnew.symm.trans hnew')
                    simpa [or_assoc] using hdiff
                  · intro hdiff
                    exact ⟨old,c,hold,hnew,by simpa [or_assoc] using hdiff⟩
                rw [hget]
                cases b with
                | true | false => simp [hiff]

theorem submit_follows (h : s.submit serial latest m=.ok (some next)) : Follows serial s.state .submit next := by
  simp only [AppSupervisor.submit,bind,Except.bind,pure,Except.pure] at h
  split at h
  · simp at h
  · split at h
    · simp at h
    · split at h
      · simp at h
      · split at h
        · simp at h
        · split at h
          · simp at h
          · rename_i hreplace
            simp only [Except.ok.injEq,Option.some.injEq] at h
            subst h
            exact replaceManifest_follows hreplace

end Parrot.App
