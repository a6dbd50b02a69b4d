import Mathlib.Algebra.BigOperators.Intervals
import Parrot.App.Paths
import Parrot.Lib.Kahn

/-! # The planner (`planner.rs:17-263`, `limits.rs:232-328`)

An accepted manifest is put in the order of its dependencies, and every component gets its paths
and the nodes it runs on. -/

namespace Parrot.App
open Function (update)
open List (mem_cons_self map_append map_map foldlM_cons map_cons sum_cons reverseRecOn)
open Finset (Ico sum_congr Ico_eq_empty sum_empty)
open Machine

/-- `load` is the bit pattern of the `f32`. -/
structure CandidateNode where
  nodeId : String
  role : String
  labels : List String
  load : ℕ

/-- Finite and in `0..=1`; the zero may be negative. -/
def CandidateNode.sound (node : CandidateNode) : Bool := decide (node.load≤0x3F800000)||node.load==0x80000000

/-- The order of `total_cmp`. -/
def CandidateNode.rank (node : CandidateNode) : ℤ := if node.load<2^31 then node.load else 2^31-1-node.load

structure PlannedComponent where
  spec : ComponentSpec
  shardPlan : Option (List String)
  nodes : List String

structure Plan where
  order : List PlannedComponent
  warnings : List String

inductive PlanError where
  | admission (e : AdmissionError)
  | manifest (errs : List ManifestError)
  | unplaceable (comp reason : String)

/-- The topology, the size of a candidate and the bytes that a plan is serialised to. -/
structure TopologyView where
  candidates : PlacementConstraint → List CandidateNode
  candidateSize : ℕ
  planJson : Plan → Writes

structure Planned where
  plan : Plan
  expanded : ℕ

def ofAdmission {α : Type} (result : Except AdmissionError α) : Except PlanError α := result.mapError .admission

section
variable (host : Host) (limits : ApplicationLimits) (topology : TopologyView)

def addTexts (resource : String) (limit total : ℕ) (texts : List String) : Except AdmissionError ℕ :=
  texts.foldlM (fun total text => addTo resource total (text.utf8ByteSize+host.stringSize) limit) total

def admitCandidate (c : ComponentSpec) (bytes : ℕ) (node : CandidateNode) : Except PlanError ℕ := do
  let bytes ← ofAdmission (addTo "candidate bytes" bytes topology.candidateSize limits.maxCandidateBytes)
  let bytes ← ofAdmission (addTexts host "candidate bytes" limits.maxCandidateBytes bytes (node.nodeId::node.role::node.labels))
  if node.sound then .ok bytes else .error (.unplaceable c.name "candidate load must be finite and in 0..=1")

/-- The text of `{:?}`. -/
def debugOption : Option String → String
  | none => "None"
  | some s => "Some("++host.quote s++")"

def ComponentSpec.spreads (c : ComponentSpec) : Bool := c.placement.antiAffinity&&decide (1<c.instances.instanceCount)

/-- How many of `n` instances a round over `len` nodes gives to the node `i`. -/
def nodeCopies (n len i : ℕ) : ℕ := n/len+if i<n%len then 1 else 0

def chargeNodes (c : ComponentSpec) (first : CandidateNode) (cands : List CandidateNode) (expanded : ℕ) : Except AdmissionError ℕ :=
  if c.spreads then
    ((first::cands).take c.instances.instanceCount).zipIdx.foldlM (fun expanded node => do
      let charge ← product "expanded bytes" (node.1.nodeId.utf8ByteSize+host.stringSize)
        (nodeCopies c.instances.instanceCount (first::cands).length node.2)
      addTo "expanded bytes" expanded charge limits.maxExpandedBytes) expanded
  else addTo "expanded bytes" expanded (first.nodeId.utf8ByteSize+host.stringSize) limits.maxExpandedBytes

def assignNodes (c : ComponentSpec) (first : CandidateNode) (cands : List CandidateNode) : List String :=
  if c.spreads then
    (List.range c.instances.instanceCount).map fun i => ((first::cands).getD (i%(first::cands).length) first).nodeId
  else [first.nodeId]

def shardPaths (c : ComponentSpec) : Except PlanError (Option (List String)) :=
  match c.instances with
  | .sharded _ | .pool _ => ofAdmission ((c.instancePathsWithLimits host limits).map some)
  | _ => .ok none

def planComponent (p : Planned) (c : ComponentSpec) : Except PlanError Planned := do
  let cands:=topology.candidates c.placement
  ofAdmission (check "topology candidates" cands.length limits.maxCandidates)
  let _ ← cands.foldlM (admitCandidate host limits topology c) 0
  match cands.mergeSort fun a b => decide (a.rank≤b.rank) with
  | [] => .error (.unplaceable c.name ("no candidate node for constraint (role="++debugOption host c.placement.role++
      ", realm="++debugOption host c.placement.realm++", label="++debugOption host c.placement.label++")"))
  | first::cands => do
    let expanded ← ofAdmission (chargeNodes host limits c first cands p.expanded)
    let shardPlan ← shardPaths host limits c
    let warnings:=if c.spreads&&decide (cands.length+1<c.instances.instanceCount) then
      ["component "++host.quote c.name++": anti_affinity requested "++toString c.instances.instanceCount++" nodes but only "++
        toString (cands.length+1)++" candidates — reusing nodes"] else []
    return ⟨⟨p.plan.order++[⟨c,shardPlan,assignNodes c first cands⟩],p.plan.warnings++warnings⟩,expanded⟩

/-- The tables of the order: what a name waits for, and who waits for it. -/
structure Tables where
  indegree : String → Option ℕ
  dependents : String → List String

def Tables.edge (t : Tables) (name dep : String) : Tables where
  indegree := update t.indegree name (some ((t.indegree name).getD 0+1))
  dependents := update t.dependents dep (t.dependents dep++[name])

def Tables.node (t : Tables) (name : String) : Tables :=
  {t with indegree:=update t.indegree name (some ((t.indegree name).getD 0))}

def Tables.enter (t : Tables) (c : ComponentSpec) : Tables := c.deps.foldl (fun t dep => t.edge c.name dep) (t.node c.name)

def indexDeps (components : List ComponentSpec) : Tables := components.foldl Tables.enter ⟨fun _ => none,fun _ => []⟩

def AppManifest.tables (m : AppManifest) : Tables := indexDeps m.components

def AppManifest.start (m : AppManifest) : Kahn.State String :=
  ⟨m.tables.indegree,m.names.toFinset.filter fun name => m.tables.indegree name=some 0⟩

def AppManifest.byName (m : AppManifest) (name : String) : Option ComponentSpec :=
  m.components.reverse.find? fun c => c.name=name

/-- There is no result where the source would panic, or would not be done with this fuel. -/
def planLoop (m : AppManifest) (dependents : String → List String) :
    ℕ → Kahn.State String → Planned → Option (Except PlanError Planned)
  | 0, s, p => if s.ready=∅ then some (.ok p) else none
  | fuel+1, s, p =>
    match s.ready.min with
    | none => some (.ok p)
    | some name => do
      let c ← m.byName name
      match planComponent host limits topology p c with
      | .error e => some (.error e)
      | .ok p => do
        let s ← Kahn.leave dependents name s
        planLoop m dependents fuel s p

def planned (m : AppManifest) : Option (Except PlanError Planned) :=
  match validateWithLimits host limits m with
  | .error errs => some (.error (.manifest errs))
  | .ok _ =>
    match m.components.foldlM (fun expanded c => do
      addTo "expanded bytes" expanded (← limits.pathBytes host c) limits.maxExpandedBytes) 0 with
    | .error e => some (.error (.admission e))
    | .ok expanded =>
      planLoop host limits topology m m.tables.dependents m.components.length m.start ⟨⟨[],[]⟩,expanded⟩

structure PlanTotals where
  instances : ℕ
  dependencies : ℕ
  expanded : ℕ
  nodes : ℕ
  paths : ℕ
  values : ℕ

/-- The count of all paths, and the bytes of these. -/
def countPaths (paths : ℕ) : Option (List String) → Except AdmissionError (ℕ × ℕ)
  | some shards => do
    let paths ← addTo "planned paths" paths shards.length limits.maxInstances
    let supplied ← addTexts host "expanded bytes" limits.maxExpandedBytes 0 shards
    return (paths,supplied)
  | none => .ok (paths,0)

def countPlanned (t : PlanTotals) (c : PlannedComponent) : Except AdmissionError PlanTotals := do
  let instances ← addTo "instances" t.instances c.spec.instances.instanceCount limits.maxInstances
  let dependencies ← addTo "dependencies" t.dependencies c.spec.deps.length limits.maxDependencies
  let values ← limits.componentValues c.spec t.values
  let (paths,supplied) ← countPaths host limits t.paths c.shardPlan
  let bytes ← limits.pathBytes host c.spec
  let expanded ← addTo "expanded bytes" t.expanded (max supplied bytes) limits.maxExpandedBytes
  let nodes ← addTo "planned nodes" t.nodes c.nodes.length limits.maxInstances
  let expanded ← addTexts host "expanded bytes" limits.maxExpandedBytes expanded c.nodes
  return ⟨instances,dependencies,expanded,nodes,paths,values⟩

def checkPlan (plan : Plan) : Except AdmissionError Unit := do
  check "planned components" plan.order.length limits.maxComponents
  let _ ← plan.order.foldlM (countPlanned host limits) ⟨0,0,0,0,0,0⟩
  limits.checkMetadata (topology.planJson plan)

def planWithLimits (m : AppManifest) : Option (Except PlanError Plan) :=
  (planned host limits topology m).map fun result => do
    let p ← result
    ofAdmission (checkPlan host limits topology p.plan)
    return p.plan

end

variable {host : Host} {limits : ApplicationLimits} {topology : TopologyView} {m : AppManifest} {p p' : Planned} {c : ComponentSpec}

variable {resource : String}

theorem check_ok {n limit : ℕ} {u : Unit} : check resource n limit=.ok u ↔ n≤limit := by
  unfold check
  split <;> simp
  all_goals omega

theorem addTo_ok {total amount limit b : ℕ} :
    addTo resource total amount limit=.ok b ↔ b=total+amount ∧ b≤limit ∧ b≤u64Max := by
  unfold addTo
  cases h : checkedAdd total amount with
  | none =>
    have hlarge : ¬total+amount≤u64Max := by simpa [checkedAdd] using h
    simp
    omega
  | some n =>
    obtain ⟨rfl,hle⟩:=checkedAdd_eq_some.mp h
    simp only [bind_eq_ok,check_ok]
    simp [pure,Except.pure]
    omega

theorem product_ok {a b c : ℕ} : product resource a b=.ok c ↔ c=a*b ∧ c≤u64Max := by
  unfold product
  cases h : checkedMul a b with
  | none =>
    have hlarge : ¬a*b≤u64Max := by simpa [checkedMul] using h
    simp
    omega
  | some n =>
    obtain ⟨rfl,hle⟩:=checkedMul_eq_some.mp h
    simp
    omega

theorem size_ascii {l : List Char} (h : ∀ c∈l, c.utf8Size=1) : (String.ofList l).utf8ByteSize=l.length := by
  induction l with
  | nil => rfl
  | cons c l ih =>
    have hone : (String.ofList [c]).utf8ByteSize=1 := by
      rw [← String.singleton_eq_ofList,String.utf8ByteSize_singleton,h c (mem_cons_self ..)]
    rw [← List.singleton_append,String.ofList_append,String.utf8ByteSize_append,hone,
      ih fun c hc => h c (List.mem_cons_of_mem _ hc),List.singleton_append,List.length_cons,Nat.add_comm]

def digits (i : ℕ) : ℕ := (toString i).utf8ByteSize

theorem digits_eq (i : ℕ) : digits i=(Nat.toDigits 10 i).length := by
  have hlist : toString i=String.ofList (Nat.toDigits 10 i) := by
    rw [← String.toList_inj,String.toList_ofList]
    exact Nat.toList_repr
  rw [digits,hlist,size_ascii]
  intro c hc
  have hdigit:=Nat.isDigit_of_mem_toDigits (by omega) (by omega) hc
  simp only [Char.isDigit,Bool.and_eq_true,decide_eq_true_eq] at hdigit
  exact Char.utf8Size_eq_one_iff.mpr (UInt32.le_trans hdigit.2 (by decide))

def digitsBound (k : ℕ) : ℕ := if k=0 then 0 else min (10^k) u64Max

theorem digitsBound_succ (k : ℕ) : min (digitsBound (k+1)*10) u64Max=digitsBound (k+2) := by
  simp only [digitsBound,Nat.add_eq_zero_iff,one_ne_zero,OfNat.ofNat_ne_zero,and_false,if_false]
  rw [pow_succ 10 (k+1)]
  omega

theorem digitsBound_le (k : ℕ) : digitsBound k≤digitsBound (k+1) := by
  have hpow : 10^k≤10^(k+1) := Nat.pow_le_pow_right (by omega) (by omega)
  simp only [digitsBound,Nat.add_eq_zero_iff,one_ne_zero,and_false,if_false]
  split <;> omega

theorem digits_of_digitsBound {i k : ℕ} (hi : i<u64Max) (hlow : digitsBound k ≤ i) (hhigh : i<digitsBound (k+1)) : digits i=k+1 := by
  rw [digits_eq]
  have hle : (Nat.toDigits 10 i).length≤k+1 :=
    (Nat.length_toDigits_le_iff (by omega) (by omega)).mpr (hhigh.trans_le (by simp [digitsBound]))
  have hpos : 0<(Nat.toDigits 10 i).length := Nat.length_toDigits_pos
  by_cases hk : k=0
  · omega
  · have hlt : ¬(Nat.toDigits 10 i).length≤k := by
      rw [Nat.length_toDigits_le_iff (by omega) (by omega)]
      simp only [digitsBound,if_neg hk] at hlow
      omega
    omega

def digitsFrom (n k : ℕ) : ℕ := ∑ i∈Ico (digitsBound k) n, digits i

theorem digitsFrom_eq {n k : ℕ} (hn : n≤u64Max) :
    digitsFrom n k=(min n (digitsBound (k+1))-digitsBound k)*(k+1)+digitsFrom n (k+1) := by
  have hle:=digitsBound_le k
  have hfirst : ∑ i∈Ico (digitsBound k) (min n (digitsBound (k+1))), digits i=(min n (digitsBound (k+1))-digitsBound k)*(k+1) := by
    rw [sum_congr rfl fun i hi => ?_,Finset.sum_const,Nat.card_Ico,nsmul_eq_mul,Nat.cast_id]
    obtain ⟨hlow,hhigh⟩:=Finset.mem_Ico.mp hi
    exact digits_of_digitsBound (by omega) hlow (by omega)
  rw [← hfirst]
  unfold digitsFrom
  by_cases hmore : digitsBound (k+1)≤n
  · rw [min_eq_right hmore,Finset.sum_Ico_consecutive _ hle hmore]
  · rw [min_eq_left (by omega),Ico_eq_empty (a := digitsBound (k+1)) (by omega),sum_empty,Nat.add_zero]

theorem digitBytes_ok {n fuel k bytes b : ℕ} (hn : n≤u64Max) (hfuel : 20≤fuel+k) (hfits : bytes≤limits.maxExpandedBytes ∧ bytes≤u64Max) :
    limits.digitBytes n fuel (digitsBound k) (digitsBound (k+1)) (k+1) bytes=.ok b ↔
      b=bytes+digitsFrom n k ∧ b≤limits.maxExpandedBytes ∧ b≤u64Max := by
  induction fuel generalizing k bytes with
  | zero =>
    have hlast : n≤digitsBound k := by
      have hpow : 10^20≤10^k := Nat.pow_le_pow_right (by omega) (by omega)
      have hlarge : u64Max<10^20 := by decide
      simp only [digitsBound,if_neg (by omega : ¬k=0)]
      omega
    have hnone : digitsFrom n k=0 := by rw [digitsFrom,Ico_eq_empty (by omega),sum_empty]
    simp [ApplicationLimits.digitBytes,hnone]
    omega
  | succ fuel ih =>
    unfold ApplicationLimits.digitBytes
    split
    · rename_i hlt
      have hfrom : digitsFrom n k=_ := digitsFrom_eq hn
      generalize hamount : (min n (digitsBound (k+1))-digitsBound k)*(k+1)=amount at hfrom ⊢
      simp only [bind_eq_ok,product_ok,addTo_ok,digitsBound_succ,hamount]
      constructor
      · rintro ⟨_,⟨rfl,-⟩,_,⟨rfl,hle⟩,hrest⟩
        have hb:=(ih (by omega) hle).mp hrest
        omega
      · rintro ⟨rfl,hle⟩
        have hfits' : bytes+amount≤limits.maxExpandedBytes ∧ bytes+amount≤u64Max := by omega
        exact ⟨amount,⟨rfl,by omega⟩,bytes+amount,⟨rfl,hfits'⟩,(ih (by omega) hfits').mpr (by omega)⟩
    · have hnone : digitsFrom n k=0 := by rw [digitsFrom,Ico_eq_empty (by omega),sum_empty]
      simp [hnone]
      omega

def textBytes (host : Host) (texts : List String) : ℕ := (texts.map fun text => text.utf8ByteSize+host.stringSize).sum

def pathSum (host : Host) (c : ComponentSpec) : ℕ := textBytes host c.instancePaths

theorem pathSum_eq (c : ComponentSpec) :
    pathSum host c=c.instances.instanceCount*(c.name.utf8ByteSize+(6+host.stringSize))+
      match c.instances with
      | .pool n | .sharded n => n+digitsFrom n 0
      | _ => 0 := by
  have hroot : ("/user/"++c.name).utf8ByteSize=6+c.name.utf8ByteSize := by
    rw [String.utf8ByteSize_append]
    rfl
  have hmember (i : ℕ) : ("/user/"++c.name++"-"++toString i).utf8ByteSize=7+c.name.utf8ByteSize+digits i := by
    rw [String.utf8ByteSize_append,String.utf8ByteSize_append,hroot]
    change 6+c.name.utf8ByteSize+1+digits i=_
    omega
  have hsum (n : ℕ) : ((List.range n).map fun i => ("/user/"++c.name++"-"++toString i).utf8ByteSize+host.stringSize).sum=
      n*(c.name.utf8ByteSize+(6+host.stringSize))+(n+digitsFrom n 0) := by
    simp only [hmember]
    induction n with
    | zero => simp [digitsFrom,digitsBound]
    | succ n ih =>
      have hfrom : digitsFrom (n+1) 0=digitsFrom n 0+digits n := Finset.sum_Ico_succ_top (Nat.zero_le n) _
      rw [List.range_succ,map_append,List.sum_append,ih,hfrom,List.map_singleton,List.sum_singleton,Nat.succ_mul]
      omega
  unfold pathSum textBytes ComponentSpec.instancePaths
  cases hc : c.instances with
  | singleton | ephemeral =>
    simp [InstancePolicy.instanceCount,hroot]
    omega
  | sharded n | pool n =>
    simp only [map_map]
    exact hsum n

theorem pathBytes_eq {b : ℕ} : limits.pathBytes host c=.ok b ↔ c.name.utf8ByteSize+(6+host.stringSize)≤u64Max ∧
    c.instances.instanceCount≤limits.maxInstances ∧ b=pathSum host c ∧ b≤limits.maxExpandedBytes ∧ b≤u64Max := by
  have hpos : 0<c.name.utf8ByteSize+(6+host.stringSize) := by omega
  rw [pathSum_eq]
  unfold ApplicationLimits.pathBytes
  generalize hsize : c.name.utf8ByteSize+(6+host.stringSize)=head at hpos ⊢
  by_cases hhead : head≤u64Max
  · have hadd : checkedAdd c.name.utf8ByteSize (6+host.stringSize)=some head := by simp [checkedAdd,hsize,hhead]
    simp only [hadd,hhead,true_and]
    cases c.instances with
    | singleton | ephemeral =>
      simp only [bind_eq_ok,check_ok,product_ok]
      simp [pure,Except.pure]
      omega
    | sharded n | pool n =>
      simp only [bind_eq_ok,check_ok,product_ok,addTo_ok]
      simp [pure,Except.pure,InstancePolicy.instanceCount]
      intro _
      constructor
      · rintro ⟨hproduct,hfits,hdigits,-⟩
        have hn : n≤u64Max := (Nat.le_mul_of_pos_right n hpos).trans hproduct
        have hb:=(digitBytes_ok (k := 0) hn (by omega) hfits).mp hdigits
        omega
      · rintro ⟨rfl,hle⟩
        have hn : n≤u64Max := (Nat.le_mul_of_pos_right n hpos).trans (by omega)
        have hfits : n*head+n≤limits.maxExpandedBytes ∧ n*head+n≤u64Max := by omega
        exact ⟨by omega,hfits,(digitBytes_ok (k := 0) hn (by omega) hfits).mpr (by omega),hle.1⟩
  · have hadd : checkedAdd c.name.utf8ByteSize (6+host.stringSize)=none := by simp [checkedAdd,hsize,hhead]
    simp only [hadd,hhead,false_and,iff_false,bind_eq_ok]
    simp

theorem foldlM_sum {α ε : Type} {f : ℕ → α → Except ε ℕ} {g : α → ℕ} {n : ℕ} {l : List α} (hf : ∀ a∈l, ∀ t t',
    f t a=.ok t' → t'=t+g a ∧ t'≤n) {t t' : ℕ} (h : l.foldlM f t=.ok t') : t'=t+(l.map g).sum ∧ (t≤n → t'≤n) := by
  induction l generalizing t with
  | nil =>
    cases h
    exact ⟨rfl,fun h => h⟩
  | cons a l ih =>
    rw [foldlM_cons,bind_eq_ok] at h
    obtain ⟨u,hu,h⟩:=h
    obtain ⟨rfl,hle⟩:=hf a (mem_cons_self ..) t u hu
    obtain ⟨rfl,hrest⟩:=ih (fun a ha => hf a (List.mem_cons_of_mem _ ha)) h
    rw [map_cons,sum_cons]
    exact ⟨by omega,fun _ => hrest hle⟩

theorem addTexts_ok {limit total total' : ℕ} {texts : List String}
    (h : addTexts host resource limit total texts=.ok total') : total'=total+textBytes host texts ∧ (total≤limit → total'≤limit) :=
  foldlM_sum (fun text _ t t' ht => by
    obtain ⟨rfl,hle,-⟩:=addTo_ok.mp ht
    exact ⟨rfl,hle⟩) h

theorem sum_rounds (f : ℕ → ℕ) {len : ℕ} (hlen : 0<len) (n : ℕ) :
    ∑ j∈Finset.range n, f (j%len)=∑ i∈Finset.range len, f i*nodeCopies n len i := by
  induction n with
  | zero => simp [nodeCopies]
  | succ n ih =>
    have hcopies : ∀ i∈Finset.range len, f i*nodeCopies (n+1) len i=f i*nodeCopies n len i+if i=n%len then f i else 0 := by
      intro i hi
      have hi:=Finset.mem_range.mp hi
      have hmod:=Nat.mod_lt n hlen
      have hstep : nodeCopies (n+1) len i=nodeCopies n len i+if i=n%len then 1 else 0 := by
        have hsplit:=Nat.mod_add_div n len
        unfold nodeCopies
        by_cases hlast : n%len+1=len
        · obtain ⟨hdiv,hrest⟩:=(Nat.div_mod_unique (a := n+1) (d := n/len+1) (c := 0) hlen).mpr ⟨by rw [Nat.mul_add]; omega,hlen⟩
          rw [hdiv,hrest]
          split_ifs <;> omega
        · obtain ⟨hdiv,hrest⟩:=(Nat.div_mod_unique (a := n+1) (d := n/len) (c := n%len+1) hlen).mpr ⟨by omega,by omega⟩
          rw [hdiv,hrest]
          split_ifs <;> omega
      rw [hstep,Nat.mul_add]
      split <;> simp
    rw [Finset.sum_range_succ,ih,sum_congr rfl hcopies,Finset.sum_add_distrib,Finset.sum_ite_eq' ..,
      if_pos (Finset.mem_range.mpr (Nat.mod_lt n hlen))]

theorem sum_zipIdx {α : Type} (g : α → ℕ → ℕ) (d : α) (l : List α) :
    (l.zipIdx.map fun x => g x.1 x.2).sum=∑ i∈Finset.range l.length, g (l.getD i d) i := by
  induction l using reverseRecOn with
  | nil => rfl
  | append_singleton l a ih =>
    rw [List.zipIdx_append,map_append,List.sum_append,ih,List.length_append,List.length_singleton,Finset.sum_range_succ]
    congr 1
    · refine sum_congr rfl fun i hi => ?_
      rw [List.getD_eq_getElem?_getD,List.getD_eq_getElem?_getD,List.getElem?_append_left (Finset.mem_range.mp hi)]
    · simp

theorem sum_copies (w : CandidateNode → ℕ) (first : CandidateNode) (cands : List CandidateNode) (n : ℕ) :
    (((first::cands).take n).zipIdx.map fun node => w node.1*nodeCopies n (first::cands).length node.2).sum=
      ((List.range n).map fun i => w ((first::cands).getD (i%(first::cands).length) first)).sum := by
  have hlen : 0<(first::cands).length := Nat.succ_pos _
  generalize first::cands=nodes at hlen ⊢
  have hround : ((List.range n).map fun i => w (nodes.getD (i%nodes.length) first)).sum=
      ∑ i∈Finset.range nodes.length, w (nodes.getD i first)*nodeCopies n nodes.length i :=
    sum_rounds (fun i => w (nodes.getD i first)) hlen n
  rw [hround,sum_zipIdx (fun node i => w node*nodeCopies n nodes.length i) first,List.length_take]
  have htaken : ∀ i∈Finset.range (min n nodes.length), w ((nodes.take n).getD i first)*nodeCopies n nodes.length i=
      w (nodes.getD i first)*nodeCopies n nodes.length i := by
    intro i hi
    have hi:=Finset.mem_range.mp hi
    rw [List.getD_eq_getElem?_getD,List.getElem?_take_of_lt (by omega),← List.getD_eq_getElem?_getD]
  rw [sum_congr rfl htaken]
  refine Finset.sum_subset (Finset.range_mono (Nat.min_le_right ..)) fun i hi hnot => ?_
  -- Where there are more nodes than instances, those beyond get none.
  simp only [Finset.mem_range,not_lt] at hi hnot
  have hfew : n<nodes.length := by omega
  rw [nodeCopies,Nat.div_eq_of_lt hfew,Nat.mod_eq_of_lt hfew,if_neg (by omega),Nat.mul_zero]

theorem chargeNodes_ok {first : CandidateNode} {cands : List CandidateNode} {expanded expanded' : ℕ}
    (h : chargeNodes host limits c first cands expanded=.ok expanded') :
    expanded'=expanded+textBytes host (assignNodes c first cands) ∧ (expanded≤limits.maxExpandedBytes → expanded'≤limits.maxExpandedBytes) := by
  unfold chargeNodes at h
  unfold assignNodes
  split at h
  · rename_i hspreads
    rw [if_pos hspreads]
    obtain ⟨rfl,hle⟩:=foldlM_sum (g := fun node : CandidateNode × ℕ => (node.1.nodeId.utf8ByteSize+host.stringSize)*
      nodeCopies c.instances.instanceCount (first::cands).length node.2) (fun node _ t t' ht => by
        obtain ⟨_,hcharge,ht⟩:=bind_eq_ok.mp ht
        obtain ⟨rfl,-⟩:=product_ok.mp hcharge
        obtain ⟨rfl,hle,-⟩:=addTo_ok.mp ht
        exact ⟨rfl,hle⟩) h
    refine ⟨congrArg (expanded + ·) ?_,hle⟩
    rw [sum_copies fun node => node.nodeId.utf8ByteSize+host.stringSize,textBytes,map_map]
    rfl
  · rename_i hspreads
    obtain ⟨rfl,hle,-⟩:=addTo_ok.mp h
    rw [if_neg hspreads]
    exact ⟨by simp [textBytes],fun _ => hle⟩

structure Placed (c : PlannedComponent) : Prop where
  paths : c.shardPlan=match c.spec.instances with
    | .sharded _ | .pool _ => some c.spec.instancePaths
    | _ => none
  nodes : c.nodes.length=if c.spec.spreads then c.spec.instances.instanceCount else 1

theorem ofAdmission_ok {α : Type} {result : Except AdmissionError α} {a : α} : ofAdmission result=.ok a ↔ result=.ok a := by
  cases result with
  | error | ok => simp [ofAdmission,Except.mapError]

theorem shardPaths_ok {paths : Option (List String)} (h : shardPaths host limits c=.ok paths) :
    paths=match c.instances with
      | .sharded _ | .pool _ => some c.instancePaths
      | _ => none := by
  unfold shardPaths at h
  cases hc : c.instances with
  | singleton | ephemeral =>
    rw [hc] at h
    cases h
    rfl
  | sharded n | pool n =>
    simp only [hc,ofAdmission_ok] at h
    cases hlimits : c.instancePathsWithLimits host limits with
    | error e => simp [hlimits,Except.map] at h
    | ok paths =>
      rw [hlimits] at h
      cases h
      simp [instancePathsWithLimits_ok hlimits]

theorem planComponent_ok (h : planComponent host limits topology p c=.ok p') : ∃ planned : PlannedComponent,
    p'.plan.order=p.plan.order++[planned] ∧ planned.spec=c ∧ Placed planned ∧
    p'.expanded=p.expanded+textBytes host planned.nodes ∧ (p.expanded≤limits.maxExpandedBytes → p'.expanded≤limits.maxExpandedBytes) := by
  simp only [planComponent,bind_eq_ok,ofAdmission_ok] at h
  obtain ⟨_,-,_,-,h⟩:=h
  split at h
  · contradiction
  · rename_i first cands _
    simp only [bind_eq_ok,ofAdmission_ok] at h
    obtain ⟨expanded,hcharge,shardPlan,hpaths,h⟩:=h
    cases h
    obtain ⟨hexpanded,hle⟩:=chargeNodes_ok hcharge
    refine ⟨_,rfl,rfl,⟨?_,?_⟩,hexpanded,hle⟩
    · exact shardPaths_ok hpaths
    · simp only [assignNodes]
      split <;> simp

theorem plans_ok {l : List ComponentSpec} (h : l.foldlM (planComponent host limits topology) p=.ok p') :
    ∃ added : List PlannedComponent, p'.plan.order=p.plan.order++added ∧ added.map PlannedComponent.spec=l ∧
      (∀ c∈added, Placed c) ∧ p'.expanded=p.expanded+(added.map fun c => textBytes host c.nodes).sum ∧
      (p.expanded≤limits.maxExpandedBytes → p'.expanded≤limits.maxExpandedBytes) := by
  induction l generalizing p with
  | nil =>
    cases h
    exact ⟨[],by simp,rfl,by simp,by simp,fun h => h⟩
  | cons c l ih =>
    rw [foldlM_cons,bind_eq_ok] at h
    obtain ⟨q,hq,h⟩:=h
    obtain ⟨planned,horder,rfl,hplaced,hexpanded,hle⟩:=planComponent_ok hq
    obtain ⟨added,horder',hspecs,hall,hexpanded',hle'⟩:=ih h
    refine ⟨planned::added,by rw [horder',horder]; simp,by rw [map_cons,hspecs],?_,?_,fun hp => hle' (hle hp)⟩
    · exact List.forall_mem_cons.mpr ⟨hplaced,hall⟩
    · rw [hexpanded',hexpanded,map_cons,sum_cons]
      omega

theorem planLoop_eq {dependents : String → List String} {fuel : ℕ} {s : Kahn.State String} {names : List String}
    (horder : Kahn.order dependents fuel s=some names) (hnames : ∀ name∈names, (m.byName name).isSome) :
    planLoop host limits topology m dependents fuel s p=
      some ((names.filterMap m.byName).foldlM (planComponent host limits topology) p) := by
  induction fuel generalizing s p names with
  | zero =>
    simp only [Kahn.order] at horder
    split at horder
    · rename_i hempty
      cases horder
      simp [planLoop,hempty]
      rfl
    · contradiction
  | succ fuel ih =>
    simp only [Kahn.order] at horder
    simp only [planLoop]
    rcases hmin : s.ready.min with _ | name
    · rw [hmin] at horder
      cases horder
      rfl
    · simp only [hmin,bind,Option.bind_eq_some_iff] at horder
      obtain ⟨s',hleave,rest,hrest,horder⟩:=horder
      cases horder
      obtain ⟨c,hc⟩:=Option.isSome_iff_exists.mp (hnames name (mem_cons_self ..))
      rw [List.filterMap_cons_some hc,foldlM_cons]
      simp only [hc,bind,Option.bind_some]
      cases planComponent host limits topology p c with
      | error e => rfl
      | ok p' =>
        simp only [hleave,Option.bind_some]
        exact ih hrest fun name hname => hnames name (List.mem_cons_of_mem _ hname)

variable (components : List ComponentSpec)

def declaredDeps (name : String) : List String :=
  (components.filter fun c => c.name=name).flatMap ComponentSpec.deps

theorem declaredDeps_append (c : ComponentSpec) (name : String) :
    declaredDeps (components++[c]) name=declaredDeps components name++if c.name=name then c.deps else [] := by
  unfold declaredDeps
  rw [List.filter_append,List.flatMap_append]
  congr 1
  by_cases hc : c.name=name <;> simp [hc]

theorem declaredDeps_none {components : List ComponentSpec} {name : String} (h : name∉components.map ComponentSpec.name) :
    declaredDeps components name=[] := by
  rw [declaredDeps,List.filter_eq_nil_iff.mpr,List.flatMap_nil]
  intro c hc
  have hne : c.name≠name := fun heq => h (heq ▸ List.mem_map_of_mem hc)
  simpa using hne

theorem foldl_edge {name : String} {n : ℕ} (deps : List String) {t : Tables} (hn : t.indegree name=some n) :
    (deps.foldl (fun t dep => t.edge name dep) t).indegree=update t.indegree name (some (n+deps.length)) ∧
    ∀ dep x, ((deps.foldl (fun t dep => t.edge name dep) t).dependents dep).count x=
      (t.dependents dep).count x+if name=x then deps.count dep else 0 := by
  induction deps generalizing n t with
  | nil =>
    refine ⟨?_,fun dep x => by simp⟩
    rw [List.length_nil,Nat.add_zero,← hn,Function.update_eq_self]
    rfl
  | cons d deps ih =>
    rw [List.foldl_cons]
    obtain ⟨hfirst,hsecond⟩:=ih (n := n+1) (t := t.edge name d) (by simp [Tables.edge,hn])
    refine ⟨?_,fun dep x => ?_⟩
    · rw [hfirst,Tables.edge,Function.update_idem,List.length_cons,Nat.add_assoc,Nat.add_comm 1]
    · rw [hsecond,Tables.edge]
      by_cases hd : dep=d
      · subst hd
        by_cases hx : name=x <;> simp [hx,List.count_append]
        omega
      · simp [Function.update_of_ne hd,List.count_cons_of_ne (Ne.symm hd)]

theorem indexDeps_eq : (∀ name, (indexDeps components).indegree name=
    if name∈components.map ComponentSpec.name then some (declaredDeps components name).length else none) ∧ ∀ dep name,
    ((indexDeps components).dependents dep).count name=(declaredDeps components name).count dep := by
  induction components using reverseRecOn with
  | nil => exact ⟨fun name => rfl,fun dep name => rfl⟩
  | append_singleton components c ih =>
    obtain ⟨hfirst,hsecond⟩:=ih
    have hstep : indexDeps (components++[c])=(indexDeps components).enter c := by
      rw [indexDeps,List.foldl_append]
      rfl
    obtain ⟨hindegree,hdependents⟩:=foldl_edge c.deps (t := (indexDeps components).node c.name) (Function.update_self ..)
    rw [hstep]
    refine ⟨fun name => ?_,fun dep name => ?_⟩
    · rw [Tables.enter,hindegree,Tables.node,Function.update_idem,declaredDeps_append]
      by_cases hname : c.name=name
      · subst hname
        have hmem : c.name∈(components++[c]).map ComponentSpec.name := by simp
        rw [Function.update_self,hfirst,if_pos hmem,if_pos rfl,List.length_append]
        by_cases hold : c.name∈components.map ComponentSpec.name
        · rw [if_pos hold]
          rfl
        · rw [if_neg hold,declaredDeps_none hold]
          rfl
      · simp [hfirst,hname,Ne.symm hname]
    · rw [Tables.enter,hdependents,Tables.node,hsecond,declaredDeps_append,List.count_append]
      split <;> simp

theorem declaredDeps_eq (hdistinct : m.names.Nodup) (name : String) : declaredDeps m.components name=m.depsOf name := by
  unfold AppManifest.depsOf
  unfold AppManifest.names at hdistinct
  generalize m.components=components at hdistinct ⊢
  induction components using reverseRecOn with
  | nil => rfl
  | append_singleton components c ih =>
    rw [map_append,List.nodup_append] at hdistinct
    obtain ⟨hnodup,-,hfree⟩:=hdistinct
    rw [declaredDeps_append,List.reverse_append,List.reverse_singleton,List.singleton_append,List.find?_cons]
    by_cases hname : c.name=name
    · subst hname
      rw [declaredDeps_none fun hmem => hfree _ hmem _ (List.mem_singleton_self _) rfl]
      simp
    · simp [hname,ih hnodup]

/-- A list of all the names, each after those it depends on. -/
def Topological (m : AppManifest) (l : List String) : Prop :=
  l.Perm m.names ∧ ∀ before name after, l=before++name::after → ∀ d∈m.depsOf name, d∈before

theorem topological_iff {l : List String} (hdistinct : m.names.Nodup) :
    Topological m l ↔ Kahn.Ordering m.names.toFinset m.depsOf [] l := by
  constructor
  · rintro ⟨hperm,hbefore⟩
    refine ⟨Kahn.keeps_of_before (hperm.nodup_iff.mpr hdistinct) (by simp) fun before name after heq d hd =>
      .inl (hbefore before name after heq d hd),fun name => ?_⟩
    simp [hperm.mem_iff]
  · intro h
    refine ⟨(List.perm_ext_iff_of_nodup h.keeps.nodup.1 hdistinct).mpr fun name => by simp [h.mem],fun before name after heq d hd => ?_⟩
    subst heq
    simpa using h.keeps.before d hd

theorem mem_depsOf (h : Accepted host m) {name d : String} (hd : d∈m.depsOf name) : name∈m.names ∧ d∈m.names := by
  rw [← declaredDeps_eq h.distinct,declaredDeps] at hd
  obtain ⟨c,hc,hd⟩:=List.mem_flatMap.mp hd
  obtain ⟨hc,hname⟩:=List.mem_filter.mp hc
  exact ⟨of_decide_eq_true hname ▸ List.mem_map_of_mem hc,h.deps c hc d hd⟩

theorem mem_keys {name : String} : name∈m.keys ↔ name∈m.names := by
  rw [AppManifest.keys,List.mem_insertionSort,List.mem_dedup]

theorem order_accepted (h : Accepted host m) : ∃ names, Kahn.order m.tables.dependents m.components.length m.start=some names ∧
    Topological m names ∧ ∀ l, Topological m l → List.Lex (·<·) names l ∨ l=names := by
  obtain ⟨hindegree,hdependents⟩ : (∀ name, m.tables.indegree name=
      if name∈m.names then some (declaredDeps m.components name).length else none) ∧ _ := indexDeps_eq m.components
  obtain ⟨rank,hrank⟩:=Dfs.findCycle_none h.acyclic
  have hzero : ∀ name∈m.names, m.tables.indegree name=some 0 ↔ m.depsOf name=[] := by
    intro name hname
    rw [hindegree,if_pos hname,declaredDeps_eq h.distinct,Option.some.injEq,List.length_eq_zero_iff]
  have hinv : Kahn.Inv m.names.toFinset m.depsOf [] m.start := by
    refine ⟨fun name => ?_,fun name => ?_,by simp⟩
    · change m.tables.indegree name=_
      rw [hindegree,declaredDeps_eq h.distinct]
      simp
    · rw [AppManifest.start,Finset.mem_filter,List.mem_toFinset]
      refine and_congr_right fun hname => ?_
      rw [hzero name hname]
      simp [List.eq_nil_iff_forall_not_mem]
  have hedges : ∀ name∈m.names.toFinset, ∀ d∈m.depsOf name, d∈m.names.toFinset ∧ rank d<rank name := by
    intro name hname d hd
    obtain ⟨hmem,hdmem⟩:=mem_depsOf h hd
    exact ⟨List.mem_toFinset.mpr hdmem,hrank name (mem_keys.mpr hmem) d hd (mem_keys.mpr hdmem)⟩
  have hcount : ∀ d name, (m.tables.dependents d).count name=
      if name∈m.names.toFinset then (m.depsOf name).count d else 0 := by
    intro d name
    rw [AppManifest.tables,hdependents,declaredDeps_eq h.distinct]
    split
    · rfl
    · rename_i hname
      exact List.count_eq_zero.mpr fun hd => hname (List.mem_toFinset.mpr (mem_depsOf h hd).1)
  have hfuel : (m.names.toFinset \ ([] : List String).toFinset).card ≤ m.components.length := by
    simpa [AppManifest.names] using List.toFinset_card_le m.names
  obtain ⟨names,horder,hordering,hleast⟩:=Kahn.order_least hinv hedges hcount hfuel
  exact ⟨names,horder,(topological_iff h.distinct).mpr hordering,fun l hl => hleast l ((topological_iff h.distinct).mp hl)⟩

theorem byName_eq (hdistinct : m.names.Nodup) (hc : c∈m.components) : m.byName c.name=some c := by
  obtain ⟨d,hd⟩:=Option.isSome_iff_exists.mp (List.find?_isSome.mpr ⟨c,List.mem_reverse.mpr hc,by simp⟩ :
    (m.components.reverse.find? fun d => d.name=c.name).isSome)
  have hname : d.name=c.name := by simpa using List.find?_some hd
  rwa [eq_of_name hdistinct (List.mem_reverse.mp (List.mem_of_find?_eq_some hd)) hc hname] at hd

variable (limits topology) in
theorem planLoop_accepted (h : Accepted host m) (p : Planned) : ∃ names, Topological m names ∧
    (∀ l, Topological m l → List.Lex (·<·) names l ∨ l=names) ∧
    (names.filterMap m.byName).Perm m.components ∧ (names.filterMap m.byName).map ComponentSpec.name=names ∧
    planLoop host limits topology m m.tables.dependents m.components.length m.start p=
      some ((names.filterMap m.byName).foldlM (planComponent host limits topology) p) := by
  obtain ⟨names,horder,htopological,hleast⟩:=order_accepted h
  have hfound : ∀ name∈names, ∃ c∈m.components, m.byName name=some c ∧ c.name=name := by
    intro name hname
    obtain ⟨c,hc,rfl⟩:=List.mem_map.mp (htopological.1.mem_iff.mp hname)
    exact ⟨c,hc,byName_eq h.distinct hc,rfl⟩
  have hcomponents : m.names.filterMap m.byName=m.components := by
    rw [AppManifest.names,List.filterMap_map]
    exact (List.filterMap_congr fun c hc => byName_eq h.distinct hc).trans List.filterMap_some
  have hnames : (names.filterMap m.byName).map ComponentSpec.name=names := by
    rw [List.map_filterMap,List.filterMap_congr (g := some),List.filterMap_some]
    intro name hname
    obtain ⟨c,-,hc,hcname⟩:=hfound name hname
    rw [hc,Option.map_some,hcname]
  refine ⟨names,htopological,hleast,hcomponents ▸ htopological.1.filterMap _,hnames,planLoop_eq horder fun name hname => ?_⟩
  obtain ⟨c,-,hc,-⟩:=hfound name hname
  rw [hc]
  rfl

def DependsOn (m : AppManifest) (a b : String) : Prop := a∈m.names ∧ b∈m.depsOf a ∧ b∈m.names

theorem depsOf_declared {name d : String} (hd : d∈m.depsOf name) : name∈m.names := by
  unfold AppManifest.depsOf at hd
  cases hfind : m.components.reverse.find? fun c => c.name=name with
  | none => simp [hfind] at hd
  | some c =>
    have hname : c.name=name := by simpa using List.find?_some hfind
    exact hname ▸ List.mem_map_of_mem (List.mem_reverse.mp (List.mem_of_find?_eq_some hfind))

theorem findCycle_path {path : List String} (h : findCycle m=some path) :
    path.IsChain (DependsOn m) ∧ ∃ name inner, path=name::inner++[name] := by
  obtain ⟨hchain,name,inner,hpath⟩:=Dfs.findCycle_some h
  refine ⟨?_,name,inner,hpath⟩
  have hfirst : ∀ a∈name::inner, a∈m.names := fun a ha => by
    obtain ⟨b,hb⟩:=Dfs.exists_next (hpath ▸ hchain) a ha
    exact depsOf_declared hb
  have hall : ∀ a∈path, a∈m.names := by
    intro a ha
    rw [hpath] at ha
    rcases List.mem_append.mp ha with ha | ha
    · exact hfirst a ha
    · exact List.mem_singleton.mp ha ▸ hfirst name (mem_cons_self ..)
  exact hchain.imp_of_mem_imp fun a b ha hb hedge => ⟨hall a ha,hedge,hall b hb⟩

theorem findCycle_isSome : (findCycle m).isSome ↔ ∃ name, Relation.TransGen (DependsOn m) name name := by
  constructor
  · intro h
    obtain ⟨path,hpath⟩:=Option.isSome_iff_exists.mp h
    obtain ⟨hchain,name,inner,rfl⟩:=findCycle_path hpath
    exact ⟨name,Dfs.transGen_of_isChain hchain⟩
  · rintro ⟨name,hcycle⟩
    by_contra hnone
    obtain ⟨rank,hrank⟩:=Dfs.findCycle_none (Option.not_isSome_iff_eq_none.mp hnone)
    have hless : ∀ a b, Relation.TransGen (DependsOn m) a b → rank b < rank a := by
      intro a b hab
      induction hab with
      | single hedge => exact hrank a (mem_keys.mpr hedge.1) _ hedge.2.1 (mem_keys.mpr hedge.2.2)
      | tail _ hedge ih => exact (hrank _ (mem_keys.mpr hedge.1) _ hedge.2.1 (mem_keys.mpr hedge.2.2)).trans ih
    exact lt_irrefl _ (hless name name hcycle)

theorem planned_ok (h : planned host limits topology m=some (.ok p)) : Accepted host m ∧
    ∃ expanded, expanded=(m.components.map (pathSum host)).sum ∧ expanded≤limits.maxExpandedBytes ∧
      planLoop host limits topology m m.tables.dependents m.components.length m.start ⟨⟨[],[]⟩,expanded⟩=some (.ok p) := by
  unfold planned at h
  split at h
  · cases h
  · rename_i hvalid
    refine ⟨validate_accepted hvalid,?_⟩
    split at h
    · cases h
    · rename_i expanded hpaths
      obtain ⟨hsum,hle⟩:=foldlM_sum (n := limits.maxExpandedBytes) (fun c _ t t' ht => by
        obtain ⟨b,hb,ht⟩:=bind_eq_ok.mp ht
        obtain ⟨-,-,rfl,-⟩:=pathBytes_eq.mp hb
        obtain ⟨rfl,hle,-⟩:=addTo_ok.mp ht
        exact ⟨rfl,hle⟩) hpaths
      exact ⟨expanded,by omega,hle (Nat.zero_le _),h⟩

theorem planned_total : planned host limits topology m≠none := by
  unfold planned
  split
  · simp
  · rename_i hvalid
    split
    · simp
    · rename_i expanded _
      obtain ⟨names,-,-,-,-,hloop⟩:=planLoop_accepted limits topology (validate_accepted hvalid) ⟨⟨[],[]⟩,expanded⟩
      simp [hloop]

theorem planned_order (h : planned host limits topology m=some (.ok p)) :
    (p.plan.order.map PlannedComponent.spec).Perm m.components ∧
    Topological m (p.plan.order.map fun c => c.spec.name) ∧
    (∀ l, Topological m l → List.Lex (·<·) (p.plan.order.map fun c => c.spec.name) l ∨ l=p.plan.order.map fun c => c.spec.name) ∧
    (∀ c∈p.plan.order, Placed c) ∧ p.expanded≤limits.maxExpandedBytes ∧
    p.expanded=(p.plan.order.map fun c => pathSum host c.spec+textBytes host c.nodes).sum := by
  obtain ⟨haccepted,expanded,hsum,hle,hloop⟩:=planned_ok h
  obtain ⟨names,htopological,hleast,hperm,hnames,heq⟩:=planLoop_accepted limits topology haccepted ⟨⟨[],[]⟩,expanded⟩
  obtain ⟨added,horder,hspecs,hplaced,hexpanded,hle'⟩:=plans_ok (Option.some.inj (heq.symm.trans hloop))
  rw [List.nil_append] at horder
  subst horder
  have hlist : (p.plan.order.map fun c => c.spec.name)=names := by
    rw [← hnames,← hspecs,map_map]
    rfl
  rw [hlist]
  refine ⟨hspecs ▸ hperm,htopological,hleast,hplaced,hle' hle,?_⟩
  have hpaths : expanded=(p.plan.order.map fun c => pathSum host c.spec).sum := by
    rw [hsum,← (hperm.map (pathSum host)).sum_eq,← hspecs,map_map]
    rfl
  rw [hexpanded,hpaths]
  exact (List.sum_map_add ..).symm

theorem planWithLimits_ok {plan : Plan} (h : planWithLimits host limits topology m=some (.ok plan)) :
    ∃ p, planned host limits topology m=some (.ok p) ∧ p.plan=plan ∧ checkPlan host limits topology plan=.ok () := by
  obtain ⟨result,hplanned,h⟩:=Option.map_eq_some_iff.mp h
  simp only [bind_eq_ok,ofAdmission_ok] at h
  obtain ⟨p,rfl,_,hcheck,h⟩:=h
  cases h
  exact ⟨p,hplanned,rfl,hcheck⟩

theorem countPlanned_ok {t t' : PlanTotals} {c : PlannedComponent} (hplaced : Placed c) (h : countPlanned host limits t c=.ok t') :
    t'.expanded=t.expanded+(pathSum host c.spec+textBytes host c.nodes) := by
  simp only [countPlanned,bind_eq_ok] at h
  obtain ⟨_,-,_,-,_,-,⟨paths,supplied⟩,hsupplied,bytes,hbytes,_,hexpanded,_,-,_,hnodes,h⟩:=h
  cases h
  obtain ⟨-,-,rfl,-⟩:=pathBytes_eq.mp hbytes
  obtain ⟨rfl,-⟩:=addTo_ok.mp hexpanded
  obtain ⟨rfl,-⟩:=addTexts_ok hnodes
  have hmax : max supplied (pathSum host c.spec)=pathSum host c.spec := by
    refine max_eq_right ?_
    rw [hplaced.paths] at hsupplied
    cases hc : c.spec.instances with
    | singleton | ephemeral =>
      rw [hc] at hsupplied
      cases hsupplied
      exact Nat.zero_le _
    | sharded n | pool n =>
      simp only [hc,countPaths,bind_eq_ok] at hsupplied
      obtain ⟨_,-,_,htexts,h⟩:=hsupplied
      cases h
      obtain ⟨rfl,-⟩:=addTexts_ok htexts
      exact (Nat.zero_add _).le
  change t.expanded+max supplied (pathSum host c.spec)+textBytes host c.nodes=_
  rw [hmax,Nat.add_assoc]

theorem counted_ok {order : List PlannedComponent} {t t' : PlanTotals} (hplaced : ∀ c∈order, Placed c)
    (h : order.foldlM (countPlanned host limits) t=.ok t') :
    t'.expanded=t.expanded+(order.map fun c => pathSum host c.spec+textBytes host c.nodes).sum := by
  induction order generalizing t with
  | nil =>
    cases h
    rfl
  | cons c order ih =>
    rw [foldlM_cons,bind_eq_ok] at h
    obtain ⟨u,hu,h⟩:=h
    obtain ⟨hc,horder⟩:=List.forall_mem_cons.mp hplaced
    rw [ih horder h,countPlanned_ok hc hu,map_cons,sum_cons,Nat.add_assoc]

/-- Cycles are found exactly where there are any; a manifest that is planned at all comes in the
least order of its components, which its list of components and repeated dependencies do not
decide, and no lookup or count of the source fails. -/
theorem planning_order (host : Host) (limits : ApplicationLimits) (topology : TopologyView) :
    (∀ m, ((findCycle m).isSome ↔ ∃ name, Relation.TransGen (DependsOn m) name name) ∧ ∀ path, findCycle m=some path →
    path.IsChain (DependsOn m) ∧ ∃ name inner, path=name::inner++[name]) ∧
    (∀ m, planWithLimits host limits topology m≠none) ∧ ∀ m plan,
    planWithLimits host limits topology m=some (.ok plan) → (plan.order.map PlannedComponent.spec).Perm m.components ∧
    Topological m (plan.order.map fun c => c.spec.name) ∧ (∀ l, Topological m l →
    List.Lex (·<·) (plan.order.map fun c => c.spec.name) l ∨ l=plan.order.map fun c => c.spec.name) ∧
    ∀ host' limits' topology' m' plan', planWithLimits host' limits' topology' m'=some (.ok plan') →
    (∀ name, name∈m'.names ↔ name∈m.names) → (∀ name d, d∈m'.depsOf name ↔ d∈m.depsOf name) →
    (plan'.order.map fun c => c.spec.name)=plan.order.map fun c => c.spec.name := by
  refine ⟨fun m => ⟨findCycle_isSome,fun path => findCycle_path⟩,fun m => ?_,fun m plan h => ?_⟩
  · simpa [planWithLimits] using planned_total
  · obtain ⟨p,hplanned,rfl,-⟩:=planWithLimits_ok h
    obtain ⟨hperm,htopological,hleast,-⟩:=planned_order hplanned
    refine ⟨hperm,htopological,hleast,fun host' limits' topology' m' plan' h' hnames hdeps => ?_⟩
    obtain ⟨p',hplanned',rfl,-⟩:=planWithLimits_ok h'
    obtain ⟨-,htopological',hleast',-⟩:=planned_order hplanned'
    have hsame : m'.names.Perm m.names :=
      (List.perm_ext_iff_of_nodup (planned_ok hplanned').1.distinct (planned_ok hplanned).1.distinct).mpr hnames
    have hmoved (l : List String) : Topological m' l ↔ Topological m l := by
      simp only [Topological,hdeps]
      exact and_congr_left fun _ => ⟨fun h => h.trans hsame,fun h => h.trans hsame.symm⟩
    rcases hleast _ ((hmoved _).mp htopological') with hless | heq
    · rcases hleast' _ ((hmoved _).mpr htopological) with hless' | heq'
      · exact absurd hless' (asymm hless)
      · exact heq'.symm
    · exact heq

/-- The charge for the paths of a component is exactly what they take, and what was charged for
a plan before it was built is what it takes and what the check counts. -/
theorem expansion_budgets (host : Host) (limits : ApplicationLimits) (topology : TopologyView) (hsize : host.stringSize=24) :
    (∀ c : ComponentSpec, c.name.utf8ByteSize<2^63 → ∀ b, limits.pathBytes host c=.ok b ↔
      c.instances.instanceCount≤limits.maxInstances ∧ b=(c.instancePaths.map fun path => path.utf8ByteSize+host.stringSize).sum ∧
        b≤limits.maxExpandedBytes ∧ b≤u64Max) ∧
    ∀ m p, planned host limits topology m=some (.ok p) →
      p.expanded=(p.plan.order.map fun c => pathSum host c.spec+textBytes host c.nodes).sum ∧
      p.expanded≤limits.maxExpandedBytes ∧ (∀ c∈p.plan.order, Placed c) ∧
      ∀ t, p.plan.order.foldlM (countPlanned host limits) ⟨0,0,0,0,0,0⟩=.ok t → t.expanded=p.expanded := by
  refine ⟨fun c hname b => ?_,fun m p h => ?_⟩
  · have hhead : c.name.utf8ByteSize+(6+host.stringSize)≤u64Max := by
      have hlarge : 2^63+30≤u64Max := by decide
      omega
    rw [pathBytes_eq]
    exact and_iff_right hhead
  · obtain ⟨-,-,-,hplaced,hle,hsum⟩:=planned_order h
    refine ⟨hsum,hle,hplaced,fun t ht => ?_⟩
    rw [counted_ok hplaced ht,hsum,Nat.zero_add]

def localTopology : TopologyView where
  candidates _ := [⟨"local","normal",[],0⟩]
  candidateSize := 80
  planJson _ := ⟨[0],none⟩

theorem expansion_budgets_pool : ({} : ApplicationLimits).pathBytes asciiHost (sampleComponent "a" (.pool 11) [])=.ok 364 :=
  ((expansion_budgets asciiHost {} localTopology rfl).1 (sampleComponent "a" (.pool 11) []) (by decide) 364).mpr (by decide +kernel)

end Parrot.App
