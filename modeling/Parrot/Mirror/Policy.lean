import Parrot.Directory.Command
import Parrot.Lib.Text

/-! # Mirror policies (`mirror.rs:26-127`, `mirror_control.rs:13-49`)

A policy sends a copy of what reaches a source path to a shadow, which is a local path or a
path on another node. -/

namespace Parrot.Mirror
open Machine Parrot.Directory Text

inductive WireMirrorError where
  | invalidPolicy
  | remoteUnavailable
  | invalidOptions
  | noRuntime
  | closed
  | registryFull
  | conflict

def WireMirrorError.text : WireMirrorError → String
  | .invalidPolicy =>
    "mirror requires a canonical source and distinct local or qualified shadow path of at most 4096 bytes"
  | .remoteUnavailable => "remote shadow requires a bound remote system and another node identity"
  | .invalidOptions => "invalid mirror capacity, byte budget or timeout"
  | .noRuntime => "mirror registration requires a Tokio runtime"
  | .closed => "mirror registry is closed"
  | .registryFull =>
    "at most 64 registered policies and 64 unfinished workers, including retiring policies, are allowed"
  | .conflict => "mirror group contains a duplicate or already registered source prefix"

structure WireMirrorPolicy where
  sourcePath : String
  shadowPath : String

structure WireMirrorOptions where
  capacity : ℕ
  maxMessageBytes : ℕ
  maxPendingBytes : ℕ
  deliveryTimeout : ℕ

def canonical (path : String) : Bool :=
  decide (path.utf8ByteSize≤4096)&&startsWith "/" path &&
    !(path.toList.any fun c => isControl c||c == '?'||c == '#') &&
    (path == "/" || (split '/' (String.ofList (path.toList.drop 1))).all fun s => !s.isEmpty&&s != "." && s != "..")

/-- The node and the local path of a `parrot://node/path`. -/
def remoteShadow (path : String) : Option (String × String) := do
  let qualified ← stripPrefix "parrot://" path
  let (node,tail) ← splitOnce '/' qualified
  let rest := "/"++tail
  if decide (path.utf8ByteSize>4096)||(validateNodeId node).toOption.isNone||!canonical rest||rest == "/" then none
  else some (node,rest)

def WireMirrorPolicy.validate (p : WireMirrorPolicy) : Except WireMirrorError Unit :=
  if !canonical p.sourcePath||(!canonical p.shadowPath&&(remoteShadow p.shadowPath).isNone) ||
      p.shadowPath == "/" || p.sourcePath==p.shadowPath then .error .invalidPolicy
  else .ok ()

def WireMirrorOptions.validate (o : WireMirrorOptions) : Except WireMirrorError Unit :=
  if o.capacity=0 ∨ o.capacity>65536 ∨ o.maxMessageBytes=0 ∨ o.maxMessageBytes>o.maxPendingBytes ∨
      o.maxPendingBytes>64*1024*1024 ∨ o.deliveryTimeout=0 ∨ o.deliveryTimeout>60*1000 then .error .invalidOptions
  else .ok ()

structure MirrorPolicySpec where
  sourcePath : String
  shadowPath : String
  capacity : ℕ
  maxMessageBytes : ℕ
  maxPendingBytes : ℕ
  deliveryTimeoutMs : ℕ
  deriving DecidableEq

def MirrorPolicySpec.new (source shadow : String) : MirrorPolicySpec :=
  ⟨source,shadow,256,1024*1024,8*1024*1024,100⟩

def MirrorPolicySpec.expand (spec : MirrorPolicySpec) : Except String (WireMirrorPolicy × WireMirrorOptions) := do
  let policy : WireMirrorPolicy := ⟨spec.sourcePath,spec.shadowPath⟩
  let options : WireMirrorOptions := ⟨spec.capacity,spec.maxMessageBytes,spec.maxPendingBytes,spec.deliveryTimeoutMs⟩
  policy.validate.mapError WireMirrorError.text
  options.validate.mapError WireMirrorError.text
  return (policy,options)

end Parrot.Mirror
