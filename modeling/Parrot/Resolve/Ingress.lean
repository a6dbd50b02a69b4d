import Parrot.Link.Callbacks
import Parrot.Resolve.Authority

/-! # The resolve side of the ingress (`ingress.rs:770-801`, `ingress.rs:920-1157`, `ingress.rs:2525-2545`)

Lookups in flight, the responses and invalidations that come for them, and the cache they fill.
-/

namespace Parrot.Resolve
open Machine Parrot.Wire
open Bincode (Bytes)
open Directory (DirEntry)
open Link (ErrCode ReplyPayload newHeader)

/-- `identity` tells apart two lookups of one correlation id; the reply channel goes with it. -/
structure ResolvePending where
  identity : ℕ
  connection : ℕ
  key : String
  cacheKey : String
  minVersion : ℕ
  invalidated : Bool
  deriving DecidableEq

/-- Connections are numbers; `peers` says who is at the other end of each. `replies` is
what the channels got, newest first. -/
structure Ingress where
  controlPolicy : ControlPolicy
  peers : ℕ → Peer
  resolvePending : OrderedMap ℕ ResolvePending
  resolveCache : ResolveCache
  askCancel : Bool
  closed : List ℕ
  registered : ℕ
  replies : List (ℕ × ReplyPayload)

inductive RemoteError where
  | transport (detail : String)
  | codec (detail : String)

namespace Ingress

def start (policy : ControlPolicy) (peers : ℕ → Peer) (cache : ResolveCache) : Ingress :=
  ⟨policy,peers,OrderedMap.empty,cache,false,[],0,[]⟩

def pendingLimit : ℕ := 64

variable (g : Ingress)

/-- The first part of `resolve_remote`: the lookup is in the table and its query is ready. -/
def register (sender : ℕ) (key : String) (minVersion : ℕ) (cid : UInt64) :
    Except RemoteError (Frame × Ingress) :=
  if g.controlPolicy.allowsCluster (g.peers sender)=false then
    .error (.transport "resolve peer is not authorized")
  else
    match encodeQuery ⟨key,minVersion⟩ with
    | .error e => .error (.codec e.text)
    | .ok payload =>
      if g.askCancel then .error (.transport "resolve ingress closed")
      else if g.resolvePending.size≥pendingLimit ∨ g.resolvePending.contains cid.toNat ∨ cid=0 then
        .error (.transport "resolve pending limit or correlation collision")
      else .ok (⟨newHeader FrameType.resolveQ cid,key,responseKey,payload⟩,{g with
        resolvePending := g.resolvePending.insert cid.toNat
          ⟨g.registered,sender,key,resolveCacheKey (g.peers sender) key,minVersion,false⟩
        registered := g.registered+1})

/-- `ResolvePendingLease`: the caller has gone. -/
def dropLease (cid : UInt64) (identity : ℕ) : Ingress :=
  if (g.resolvePending.get cid.toNat).any fun slot => slot.identity=identity then
    {g with resolvePending:=g.resolvePending.remove cid.toNat}
  else g

def resolveReply (key : String) : ReplyPayload → Except RemoteError (Option DirEntry)
  | .ok bytes _ =>
    match decodeResponse bytes with
    | .error e => .error (.codec e.text)
    | .ok response =>
      if response.key≠key then .error (.codec "resolve response key does not match request")
      else .ok response.entry
  | .err code detail => .error (.codec (code.name++": "++detail))

def cachedResolve (authority : ℕ) (key : String) (now : ℕ) :
    Ingress × Option (List String × CacheState) :=
  if g.controlPolicy.allowsCluster (g.peers authority)=false then (g,none)
  else
    let (cache,answer):=g.resolveCache.get (resolveCacheKey (g.peers authority) key) now
    ({g with resolveCache:=cache},answer)

def allowsResolve (f : Frame) (source : ℕ) : Bool :=
  g.controlPolicy.allowsCluster (g.peers source) &&
    (g.controlPolicy=.insecureDevelopment||(g.peers source).authentication ≠ .unauthenticated) &&
    f.header.hopCount=0

def close (source : ℕ) : Ingress := {g with closed:=source::g.closed}

variable (slot : ResolvePending)

def reply (payload : ReplyPayload) : Ingress :=
  {g with replies:=(slot.identity,payload)::g.replies}

/-- The response in a frame, if it is one for this lookup. -/
def validResponse (f : Frame) : Option Response :=
  match decodeResponse f.payload with
  | .error _ => none
  | .ok response =>
    if f.path=response.key ∧ f.typeKey=responseKey ∧ slot.key=response.key ∧ f.header.flags=0 ∧
        f.header.seq=seqNone ∧ f.header.correlationId≠0 then some response
    else none

def stale (response : Response) : Bool :=
  slot.invalidated||response.entry.any fun entry => entry.version<slot.minVersion

/-- The cache write. An absence must not leave an earlier route usable. -/
def publish (cache : ResolveCache) (cacheKey : String) (now choice : ℕ) : Option DirEntry → ResolveCache
  | some entry => cache.putWithTtl cacheKey entry.endpoints entry.version (seconds entry.ttlS) now choice
  | none => cache.invalidate cacheKey

/-- A lookup leaves the table with the response that came for it. -/
def consume (f : Frame) (now choice : ℕ) : Ingress :=
  match validResponse slot f with
  | none => g.reply slot (.err .protocolViolation "invalid resolve response or request binding")
  | some response =>
    if stale slot response then
      g.reply slot (.err .directoryStale "resolve result invalidated or older than requested version")
    else
      {g with resolveCache:=publish g.resolveCache slot.cacheKey now choice response.entry}.reply slot
        (.ok f.payload responseKey)

def onResolveResponse (f : Frame) (source now choice : ℕ) : Ingress :=
  if g.allowsResolve f source=false then g.close source
  else
    match g.resolvePending.get f.header.correlationId.toNat with
    | none => g
    | some slot =>
      if slot.connection≠source then g
      else {g with resolvePending:=g.resolvePending.remove f.header.correlationId.toNat}.consume slot f now choice

/-- A `REPLY_ERR` with the correlation id of a lookup. -/
def failResolve (cid : UInt64) (source : ℕ) (code : ErrCode) (detail : String) : Ingress :=
  match g.resolvePending.get cid.toNat with
  | none => g
  | some slot =>
    if slot.connection≠source then g
    else {g with resolvePending:=g.resolvePending.remove cid.toNat}.reply slot (.err code detail)

/-- The invalidation in a frame, if it is well formed. -/
def validInvalidate (f : Frame) : Option Invalidate :=
  match decodeInvalidate f.payload with
  | .error _ => none
  | .ok value =>
    if f.path≠value.key ∨ f.typeKey≠responseKey then none
    else if f.header.flags≠0 ∨ f.header.seq≠seqNone ∨ f.header.correlationId≠0 then none
    else some value

/-- Every lookup under the cache key learns that its answer is too old. -/
def mark (cacheKey : String) (slot : ResolvePending) : ResolvePending :=
  if slot.cacheKey=cacheKey then {slot with invalidated:=true} else slot

def onInvalidate (f : Frame) (source choice : ℕ) : Ingress :=
  if g.allowsResolve f source=false then g.close source
  else
    match validInvalidate f with
    | none => g
    | some value =>
      let cacheKey:=resolveCacheKey (g.peers source) value.key
      {g with
        resolvePending := g.resolvePending.mapValues fun _ => mark cacheKey
        resolveCache := g.resolveCache.invalidateVersioned cacheKey value.version choice}

def failAll (lost : ResolvePending → Bool) (code : ErrCode) (detail : String) : Ingress :=
  {g with
    resolvePending := g.resolvePending.retain fun _ slot => !lost slot
    replies := ((g.resolvePending.entries.filter fun e => lost e.2).map fun e =>
      (e.2.identity,ReplyPayload.err code detail))++g.replies}

def connectionClosed (connection : ℕ) : Ingress :=
  g.failAll (fun slot => slot.connection=connection) .connectionLost "connection lost"

def closeAsks : Ingress := {g with askCancel:=true}

def shutdown : Ingress :=
  g.closeAsks.failAll (fun _ => true) .stopped "resolve ingress closed"

inductive Event where
  | register (sender : ℕ) (key : String) (minVersion : ℕ) (cid : UInt64)
  | dropLease (cid : UInt64) (identity : ℕ)
  | cachedResolve (authority : ℕ) (key : String) (now : ℕ)
  | response (f : Frame) (source now choice : ℕ)
  | replyErr (cid : UInt64) (source : ℕ) (code : ErrCode) (detail : String)
  | invalidate (f : Frame) (source choice : ℕ)
  | connectionClosed (connection : ℕ)
  | closeAsks
  | shutdown

def next : Event → Ingress
  | .register sender key minVersion cid =>
    match g.register sender key minVersion cid with
    | .ok (_,g') => g'
    | .error _ => g
  | .dropLease cid identity => g.dropLease cid identity
  | .cachedResolve authority key now => (g.cachedResolve authority key now).1
  | .response f source now choice => g.onResolveResponse f source now choice
  | .replyErr cid source code detail => g.failResolve cid source code detail
  | .invalidate f source choice => g.onInvalidate f source choice
  | .connectionClosed connection => g.connectionClosed connection
  | .closeAsks => g.closeAsks
  | .shutdown => g.shutdown

def run (events : List Event) : Ingress := events.foldl next g

def Event.source : Event → Option ℕ
  | .register sender .. => some sender
  | .cachedResolve authority .. => some authority
  | .response _ source .. => some source
  | .replyErr _ source .. => some source
  | .invalidate _ source _ => some source
  | .connectionClosed connection => some connection
  | _ => none

end Ingress
end Parrot.Resolve
