import Parrot.Raft.Storage

/-! # Directory commands and their state machine
(`roles/directory.rs:29-205`, `directory/command.rs`, `directory/request.rs`)

A log entry of a directory group is a plain command, a command under a client's request
identity, or a read barrier. -/

namespace Parrot.Directory
open Function (update)
open Machine Parrot.Raft

structure DirEntry where
  endpoints : List String
  version : ℕ
  ttlS : ℕ

inductive DirCmd where
  | upsert (node : String) (endpoints : List String)
  | remove (node : String)
  | borderDeclare (pre : String) (node : String)
  | keyAggregate (key : String) (nodes : List String)

inductive DirQuery where
  | resolve (prefixOrNode : String)
  | borderFor (pre : String)
  | nodesForKey (key : String)

inductive DirectoryApplyError where
  | invalid (reason : String)
  | capacity
  | revisionExhausted
  deriving DecidableEq

def DirectoryApplyError.message : DirectoryApplyError → String
  | .invalid reason => "invalid directory command: "++reason
  | .capacity => "directory command capacity exceeded"
  | .revisionExhausted => "directory revision exhausted"

def validateQuery (query : DirQuery) : Except DirectoryApplyError ℕ :=
  let text:=match query with
    | .resolve s => s
    | .borderFor s => s
    | .nodesForKey s => s
  if text.utf8ByteSize>4096 then .error .capacity else .ok text.utf8ByteSize

structure DirectorySm where
  nodes : String → Option DirEntry
  borders : String → Option String
  keyIndex : String → Option (List String)
  version : ℕ

namespace DirectorySm

def default : DirectorySm := ⟨fun _ => none,fun _ => none,fun _ => none,0⟩

variable (sm : DirectorySm)

/-- The caller has validated the command and reserved a revision. -/
def applyValidated : DirCmd → DirectorySm
  | .upsert node endpoints =>
    {sm with
      version := sm.version+1
      nodes := update sm.nodes node
        (some ⟨endpoints,sm.version+1,((sm.nodes node).map DirEntry.ttlS).getD 3600⟩)}
  | .remove node =>
    {sm with
      version := sm.version+1
      nodes := update sm.nodes node none
      borders := fun p => (sm.borders p).filter fun b => b≠node
      keyIndex := fun k => (sm.keyIndex k).bind fun nodes =>
        let rest:=nodes.filter fun n => n≠node
        if rest=[] then none else some rest}
  | .borderDeclare pre node =>
    {sm with version:=sm.version+1,borders:=update sm.borders pre (some node)}
  | .keyAggregate key nodes =>
    {sm with version:=sm.version+1,keyIndex:=update sm.keyIndex key (some nodes)}

@[simp] theorem applyValidated_version (cmd : DirCmd) : (sm.applyValidated cmd).version=sm.version+1 := by
  cases cmd <;> rfl

/-- The declared prefixes of `pre` are among its own initial segments, and two of
one length are equal: the longest is found by trying them from the end. -/
def longestBorder (pre : String) : Option String :=
  pre.toList.inits.reverse.findSome? fun p => sm.borders (String.ofList p)

def query : DirQuery → Option DirEntry
  | .resolve prefixOrNode => sm.nodes prefixOrNode
  | .borderFor pre => (sm.longestBorder pre).map fun node => ⟨["parrot://"++node],sm.version,60⟩
  | .nodesForKey key => (sm.keyIndex key).map fun nodes =>
    ⟨nodes.map fun n => "parrot://"++n,sm.version,30⟩

end DirectorySm

def maxCommandBytes : ℕ := 1024*1024
def maxMembers : ℕ := 4096

def validateText (s : String) (max : ℕ) : Except DirectoryApplyError Unit :=
  if s.isEmpty||decide (s.utf8ByteSize>max)||s.toList.any isControl then
    .error (.invalid "empty, oversized or control-containing field")
  else .ok ()

def validateMembers (items : List String) (max : ℕ) : Except DirectoryApplyError Unit :=
  if items.length>maxMembers then .error .capacity
  else items.forM fun s => validateText s max

def DirCmd.validate : DirCmd → Except DirectoryApplyError Unit
  | .upsert node endpoints => do
    validateText node 1024
    validateMembers endpoints 4096
  | .remove node => validateText node 1024
  | .borderDeclare pre node => do
    validateText pre 1024
    validateText node 1024
  | .keyAggregate key nodes => do
    validateText key 1024
    validateMembers nodes 1024

structure RequestCommand where
  client : String
  id : String
  command : DirCmd

inductive StoredCommand where
  | readBarrier
  | plain (command : DirCmd)
  | request (request : RequestCommand)

inductive DirectoryRequestStatus where
  | unknown
  | pending (index : ℕ) (term : ℕ)
  | applied (index : ℕ) (term : ℕ) (revision : ℕ)
  | conflict
  deriving DecidableEq

/-- `bincode` over commands and requests, read under the limits of the two
`decode` functions, and SHA-256. Nothing is assumed of them: a replica depends on
its log only through these functions. -/
structure DirectoryCodec where
  encodeCmd : DirCmd → Bytes
  decodeCmd : Bytes → Except String DirCmd
  encodeRequest : RequestCommand → Bytes
  decodeRequest : Bytes → Except String RequestCommand
  digest : Bytes → Bytes

/-- The fields of each variant of `DirCmd`. -/
def cmdFields : ℕ → Type
  | 0 => String × List String
  | 1 => String
  | 2 => String × String
  | 3 => String × List String
  | _ => Empty

def cmdCodec : Bincode.Codec DirCmd :=
  (Bincode.Codec.variant (γ := cmdFields) fun
    | 0 => Bincode.string.pair Bincode.string.list
    | 1 => Bincode.string
    | 2 => Bincode.string.pair Bincode.string
    | 3 => Bincode.string.pair Bincode.string.list
    | _+4 => Bincode.never).via
    (fun
      | .upsert node endpoints => ⟨0,node,endpoints⟩
      | .remove node => ⟨1,node⟩
      | .borderDeclare pre node => ⟨2,pre,node⟩
      | .keyAggregate key nodes => ⟨3,key,nodes⟩)
    (fun
      | ⟨0,node,endpoints⟩ => some (.upsert node endpoints)
      | ⟨1,node⟩ => some (.remove node)
      | ⟨2,pre,node⟩ => some (.borderDeclare pre node)
      | ⟨3,key,nodes⟩ => some (.keyAggregate key nodes)
      | ⟨_+4,_⟩ => none)
    (by intro cmd; cases cmd <;> rfl)

def requestCodec : Bincode.Codec RequestCommand :=
  (Bincode.string.pair (Bincode.string.pair cmdCodec)).via (fun r => (r.client,r.id,r.command))
    (fun p => some ⟨p.1,p.2.1,p.2.2⟩) fun _ => rfl

def decodeWhole {α : Type} (x : Bincode.Codec α) (bytes : Bytes) : Except String α :=
  match x.decode bytes with
  | some (a,[]) => .ok a
  | _ => .error "directory codec"

def DirectoryCodec.standard : DirectoryCodec where
  encodeCmd := cmdCodec.encode
  decodeCmd := decodeWhole cmdCodec
  encodeRequest := requestCodec.encode
  decodeRequest := decodeWhole requestCodec
  digest := Sha256.digest

def requestMagic : Bytes := [0xff,0x44,0x49,0x52,0x01]
def readBarrierBytes : Bytes := [0xff,0x44,0x49,0x52,0x02]

def isWhitespace (c : Char) : Bool :=
  let v:=c.val
  (9≤v&&v≤13)||v==0x20||v==0x85||v==0xa0||v==0x1680 ||
    (0x2000≤v&&v≤0x200a)||v==0x2028||v==0x2029||v==0x202f||v==0x205f ||
    v==0x3000

/-- `parrot_config::endpoint::validate_node_id`. -/
def validateNodeId (value : String) : Except String Unit :=
  if value.isEmpty||decide (value.utf8ByteSize>65535)||value.toList.any (fun c =>
      isWhitespace c||isControl c||c == '/'||c == '@'||c == '?'||c == '#') then
    .error "node identity must be nonempty, fit the wire length, and contain no whitespace, control or path delimiters"
  else .ok ()

def identity (client id : String) : Except DirectoryApplyError Unit :=
  match validateNodeId client with
  | .error e => .error (.invalid e)
  | .ok () =>
    if decide (client.utf8ByteSize>1024)||id.isEmpty||decide (id.utf8ByteSize>128) ||
        id.toList.any isControl then .error (.invalid "invalid request identity")
    else .ok ()

section codec
variable (codec : DirectoryCodec)

def DirCmd.encode (cmd : DirCmd) : Except DirectoryApplyError Bytes := do
  cmd.validate
  if (codec.encodeCmd cmd).length>maxCommandBytes then .error .capacity
  else .ok (codec.encodeCmd cmd)

def DirCmd.decode (bytes : Bytes) : Except DirectoryApplyError DirCmd :=
  if bytes.length>maxCommandBytes then .error .capacity
  else
    match codec.decodeCmd bytes with
    | .error e => .error (.invalid e)
    | .ok cmd => do
      cmd.validate
      return cmd

def directoryCommandDigest (cmd : DirCmd) : Except DirectoryApplyError Bytes :=
  (cmd.encode codec).map codec.digest

def encodeRequest (client id : String) (cmd : DirCmd) : Except DirectoryApplyError Bytes := do
  identity client id
  let _ ← cmd.encode codec
  let body:=codec.encodeRequest ⟨client,id,cmd⟩
  if requestMagic.length+body.length>maxCommandBytes then .error .capacity
  else .ok (requestMagic++body)

/-- `request::decode`. -/
def decodeStored (bytes : Bytes) : Except DirectoryApplyError StoredCommand :=
  if bytes=readBarrierBytes then .ok .readBarrier
  else if bytes.length>maxCommandBytes then .error .capacity
  else if bytes.take requestMagic.length=requestMagic then
    match codec.decodeRequest (bytes.drop requestMagic.length) with
    | .error e => .error (.invalid e)
    | .ok r => do
      identity r.client r.id
      let _ ← r.command.encode codec
      return .request r
  else (DirCmd.decode codec bytes).map .plain

theorem decode_request {bytes : Bytes} {r : RequestCommand} (h : decodeStored codec bytes=.ok (.request r)) :
    identity r.client r.id=.ok () ∧ ∃ d, directoryCommandDigest codec r.command=.ok d := by
  unfold decodeStored at h
  split at h
  · simp at h
  · split at h
    · contradiction
    · split at h
      · split at h
        · contradiction
        · rename_i x hreq
          cases hid : identity x.client x.id with
          | error e => simp [hid,bind,Except.bind] at h
          | ok u =>
            cases henc : x.command.encode codec with
            | error e => simp [hid,henc,bind,Except.bind] at h
            | ok bytes =>
              simp only [hid,henc,bind,Except.bind,pure,Except.pure,Except.ok.injEq,
                StoredCommand.request.injEq] at h
              subst h
              exact ⟨hid,codec.digest bytes,by simp [directoryCommandDigest,henc,Except.map]⟩
      · cases hd : DirCmd.decode codec bytes with
        | error | ok => simp [hd,Except.map] at h

end codec
end Parrot.Directory
