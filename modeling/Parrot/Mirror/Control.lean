import Parrot.Lib.Threads
import Parrot.Mirror.Registry

/-! # Mirror sessions (`mirror_control.rs`)

A session holds the policies of one owner. -/

namespace Parrot.Mirror
open Machine

structure MirrorSessionId where
  incarnation : BitVec 128
  sequence : ℕ
  deriving DecidableEq

inductive MirrorControl where
  | openSession (owner : String)
  | apply (session : MirrorSessionId) (revision : ℕ) (policies : List MirrorPolicySpec)
  | status (session : MirrorSessionId)
  | close (session : MirrorSessionId)
  | candidate
  | allocate (owner : String) (session : MirrorSessionId)

inductive MirrorSessionPhase where
  | empty
  | active
  | superseded
  | closing

inductive MirrorControlReply where
  | session (session : MirrorSessionId) (owner : String) (revision : ℕ) (phase : MirrorSessionPhase)
      (policies : List MirrorPolicySpec)
  | retired (session : MirrorSessionId)
  | candidate (session : MirrorSessionId)

def MirrorControlReply.id : MirrorControlReply → MirrorSessionId
  | .session id _ _ _ _ | .retired id | .candidate id => id

def validOwner (owner : String) : Except String Unit :=
  if owner.isEmpty||decide (owner.utf8ByteSize>128)||owner.toList.any isControl then
    .error "mirror owner must contain 1..128 bytes without control characters"
  else .ok ()

def checkSources : List MirrorPolicySpec → List String → Except String Unit
  | [], _ => .ok ()
  | policy::policies, sources => do
    let _ ← policy.expand
    if policy.sourcePath∈sources then .error "duplicate mirror source"
    else checkSources policies (policy.sourcePath::sources)

def MirrorControl.validate : MirrorControl → Except String Unit
  | .openSession owner | .allocate owner _ => validOwner owner
  | .apply _ revision policies =>
    if revision=0 ∨ policies=[] ∨ policies.length>64 then
      .error "mirror apply requires a positive revision and 1..64 policies"
    else checkSources policies []
  | _ => .ok ()

def MirrorControl.accepts : MirrorControl → MirrorControlReply → Bool
  | .candidate, .candidate session => session.sequence != 0
  | .allocate owner session, .session id actual _ _ _ => owner==actual&&session==id
  | .openSession owner, .session session actual _ _ _ => owner==actual&&session.sequence != 0
  | .apply session revision policies, .session actual _ applied .active installed =>
    session==actual&&revision==applied&&policies==installed
  | .status session, .session actual _ _ _ _ => session==actual
  | .status session, .retired actual => session==actual
  | .close session, .retired actual => session==actual
  | _, _ => false

structure Session where
  owner : String
  revision : ℕ
  policies : List MirrorPolicySpec
  group : Option Group
  retiring : List Group
  closing : Bool

def Session.new (owner : String) : Session := ⟨owner,0,[],none,[],false⟩

def Session.groups (s : Session) : List Group := s.group.toList++s.retiring

/-- The store of a node with the registry it works on. -/
structure Node where
  incarnation : BitVec 128
  opened : Bool
  issued : ℕ
  sessions : OrderedMap ℕ Session
  registry : Registry

def phase (r : Registry) (s : Session) : MirrorSessionPhase :=
  if s.closing then .closing
  else
    match s.group with
    | some group => if r.isCurrent group then .active else .superseded
    | none => .empty

def cancelAll (r : Registry) (groups : List Group) : Registry := groups.foldl Registry.cancel r

/-- What the part of `execute` under the store's lock ends with: a reply, or the groups whose
retirement a `Close` waits for. -/
inductive Outcome where
  | replied (result : Except String MirrorControlReply)
  | retiring (session : MirrorSessionId) (groups : List Group)

namespace Node

def new (incarnation : BitVec 128) (node : Option String) : Node := ⟨incarnation,true,0,.empty,.new node⟩

variable (n : Node)

def snapshot (sequence : ℕ) (s : Session) : MirrorControlReply :=
  .session ⟨n.incarnation,sequence⟩ s.owner s.revision (phase n.registry s) s.policies

variable (session : MirrorSessionId)

def check : Except String Unit :=
  if session.incarnation≠n.incarnation ∨ session.sequence=0 ∨ session.sequence>n.issued then
    .error "unknown mirror session incarnation or sequence"
  else .ok ()

/-- `MirrorControlStore::close`. -/
def close : Node :=
  {n with
    opened := false
    sessions := n.sessions.mapValues fun _ s => {s with closing:=true}
    registry := cancelAll n.registry (n.sessions.entries.flatMap fun e => e.2.groups)}

def create (owner : String) (sequence : ℕ) : Node × Outcome :=
  let value:=Session.new owner
  ({n with sessions:=n.sessions.insert sequence value,issued:=sequence},.replied (.ok (n.snapshot sequence value)))

def candidate : Node × Outcome :=
  match checkedAdd n.issued 1 with
  | none => (n,.replied (.error "mirror session sequence exhausted"))
  | some sequence => (n,.replied (.ok (.candidate ⟨n.incarnation,sequence⟩)))

def allocate (owner : String) (session : MirrorSessionId) : Node × Outcome :=
  if session.incarnation≠n.incarnation ∨ session.sequence=0 then
    (n,.replied (.error "unknown mirror allocation incarnation or sequence"))
  else
    match n.sessions.get session.sequence with
    | some value =>
      if value.owner≠owner then (n,.replied (.error "mirror allocation slot belongs to another owner"))
      else (n,.replied (.ok (n.snapshot session.sequence value)))
    | none =>
      if checkedAdd n.issued 1≠some session.sequence then
        (n,.replied (.error "mirror allocation slot is retired or not next"))
      else if n.sessions.size≥64 then (n,.replied (.error "at most 64 live mirror sessions are allowed"))
      else n.create owner session.sequence

def openSession (owner : String) : Node × Outcome :=
  match n.sessions.entries.find? fun e => e.2.owner=owner with
  | some (sequence,value) => (n,.replied (.ok (n.snapshot sequence value)))
  | none =>
    if n.sessions.size≥64 then (n,.replied (.error "at most 64 live mirror sessions are allowed"))
    else
      match checkedAdd n.issued 1 with
      | none => (n,.replied (.error "mirror session sequence exhausted"))
      | some sequence => n.create owner sequence

def status : Node × Outcome :=
  match n.check session with
  | .error e => (n,.replied (.error e))
  | .ok () =>
    match n.sessions.get session.sequence with
    | some value => (n,.replied (.ok (n.snapshot session.sequence value)))
    | none => (n,.replied (.ok (.retired session)))

/-- The registry has a lock of its own: `during` happens between the last change or reading
of it and the snapshot. -/
def meanwhile (during : List RegistryEvent) : Node :=
  {n with registry:=during.foldl RegistryEvent.apply n.registry}

/-- The new group takes the place of the session's, which is kept until it has retired. -/
def install (sequence : ℕ) (value : Session) (revision : ℕ) (policies : List MirrorPolicySpec)
    (registry : Registry) (group : Group) : Node :=
  let value:={value with
    group := some group,retiring := value.retiring++value.group.toList,revision := revision,policies := policies}
  {n with sessions:=n.sessions.insert sequence value,registry:=registry}

def apply (during : List RegistryEvent) (session : MirrorSessionId) (revision : ℕ)
    (policies : List MirrorPolicySpec) : Node × Outcome :=
  match n.check session with
  | .error e => (n,.replied (.error e))
  | .ok () =>
    match n.sessions.get session.sequence with
    | none => (n,.replied (.error "mirror session is retired"))
    | some value =>
      if value.closing then (n,.replied (.error "mirror session is closing"))
      else if revision=value.revision then
        if policies≠value.policies ∨ (value.group.any fun group => n.registry.isCurrent group)=false then
          (n,.replied (.error "mirror revision conflict or superseded policy"))
        else
          let n:=n.meanwhile during
          (n,.replied (.ok (n.snapshot session.sequence value)))
      else if checkedAdd value.revision 1≠some revision then
        (n,.replied (.error "mirror revision must advance exactly once"))
      else
        -- Groups that have retired are let go of, also where the policies are refused below.
        let value:={value with retiring:=value.retiring.filter fun group => !n.registry.isFinished group}
        let n:={n with sessions:=n.sessions.insert session.sequence value}
        match policies.mapM MirrorPolicySpec.expand with
        | .error e => (n,.replied (.error e))
        | .ok expanded =>
          match n.registry.replaceGroup value.group expanded with
          | .error e => (n,.replied (.error e.text))
          | .ok (registry,group) =>
            let n:=(n.install session.sequence value revision policies registry group).meanwhile during
            match n.sessions.get session.sequence with
            | some value => (n,.replied (.ok (n.snapshot session.sequence value)))
            | none => (n,.replied (.error "mirror session is retired"))

def fence : Node × Outcome :=
  match n.check session with
  | .error e => (n,.replied (.error e))
  | .ok () =>
    match n.sessions.get session.sequence with
    | none => (n,.replied (.ok (.retired session)))
    | some value =>
      ({n with
        sessions := n.sessions.insert session.sequence {value with closing:=true}
        registry := cancelAll n.registry value.groups},.retiring session value.groups)

/-- `execute` up to the end of its section. -/
def execute (during : List RegistryEvent) (command : MirrorControl) : Node × Outcome :=
  match command.validate with
  | .error e => (n,.replied (.error e))
  | .ok () =>
    if !n.opened then (n,.replied (.error "mirror control is shut down"))
    else
      match command with
      | .candidate => n.candidate
      | .allocate owner session => n.allocate owner session
      | .openSession owner => n.openSession owner
      | .status session => n.status session
      | .apply session revision policies => n.apply during session revision policies
      | .close session => n.fence session

/-- All groups were closed once more and have retired: the session goes, and with it the last
hold on its groups. -/
def finish (groups : List Group) : Option Node :=
  let registry:=cancelAll n.registry groups
  if groups.all registry.isFinished then
    some {n with
      sessions := n.sessions.remove session.sequence
      registry := cancelAll registry (((n.sessions.get session.sequence).map Session.groups).getD [])}
  else none

end Node

inductive Call where
  | replied (command : MirrorControl) (result : Except String MirrorControlReply)
  | retiring (session : MirrorSessionId) (groups : List Group)
  /- The requester is gone; the session stays closing. -/
  | abandoned

def Outcome.call (command : MirrorControl) : Outcome → Call
  | .replied result => .replied command result
  | .retiring session groups => .retiring session groups

inductive Event where
  | call (command : MirrorControl) (during : List RegistryEvent)
  | close
  | registry (event : RegistryEvent)

inductive Move where
  | finish
  | timeout
  | abandon

def enter : Event → Node → Option (Node × Option Call)
  | .call command during, n =>
    let (n,outcome):=n.execute during command
    some (n,some (outcome.call command))
  | .close, n => some (n.close,none)
  | .registry event, n => some ({n with registry:=event.apply n.registry},none)

def step : Move → Node → Call → Option (Node × Call)
  | .finish, n, .retiring session groups =>
    (n.finish session groups).map fun n => (n,.replied (.close session) (.ok (.retired session)))
  | .timeout, n, .retiring session _ =>
    some (n,.replied (.close session) (.error "mirror retirement timed out; retry close"))
  | .abandon, n, .retiring _ _ => some (n,.abandoned)
  | _, _, .replied _ _ | _, _, .abandoned => none

def program : Threads.Program Node Call Event Move := ⟨enter,step⟩

end Parrot.Mirror
