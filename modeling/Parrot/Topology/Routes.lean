import Mathlib.Data.Finmap
import Mathlib.Data.List.MinMax
import Mathlib.Data.Prod.Lex
import Mathlib.Data.String.Basic
import Parrot.Lib.Bincode

/-! # Route tables (`topology.rs:54-311`)

Routes are keyed by the prefix of the paths they serve. -/

namespace Parrot.Topology
open Bincode (Bytes leBytes utf8)

structure RouteEntry where
  targetPrefix : String
  nextHop : String
  cost : ℕ
  version : ℕ
  deriving DecidableEq

namespace RouteEntry

def rank (e : RouteEntry) : ℕᵒᵈ ×ₗ ℕ ×ₗ String := toLex (OrderDual.toDual e.version,toLex (e.cost,e.nextHop))

def preferredTo (e other : RouteEntry) : Bool := decide (e.rank<other.rank)

def serves (e : RouteEntry) (path : String) : Bool := e.targetPrefix.toList.isPrefixOf path.toList

end RouteEntry

def fnvPrime : UInt64 := 0x100000001b3
def fnvOffset : UInt64 := 0xcbf29ce484222325

def mix64 (z : UInt64) : UInt64 :=
  let z:=(z ^^^ (z >>> 30))*0xbf58476d1ce4e5b9
  let z:=(z ^^^ (z >>> 27))*0x94d049bb133111eb
  z ^^^ (z >>> 31)

def RouteEntry.bytes (e : RouteEntry) : Bytes :=
  leBytes 8 e.targetPrefix.utf8ByteSize++(utf8 e.targetPrefix++(leBytes 8 e.nextHop.utf8ByteSize++
    (utf8 e.nextHop++(leBytes 4 e.cost++leBytes 8 e.version))))

def RouteEntry.hash (e : RouteEntry) : UInt64 :=
  mix64 (e.bytes.foldl (fun h b => (h ^^^ b.toUInt64)*fnvPrime) fnvOffset)

def routeDigest (entries : List RouteEntry) : UInt64 := entries.foldl (fun d e => d ^^^ e.hash) 0

abbrev Routes := Finmap fun _ : String => RouteEntry

/-- `values()`, in any of the map's orders. -/
def Routes.Values (t : Routes) (l : List RouteEntry) : Prop := (l : Multiset RouteEntry)=t.entries.map Sigma.snd

structure RouteTable where
  entries : Routes

namespace RouteTable

def new : RouteTable := ⟨∅⟩

/- Whether a table or a reflector that holds `cur` takes `e` for it. -/
def takes (cur : Option RouteEntry) (e : RouteEntry) : Bool :=
  match cur with
  | some cur => e.preferredTo cur
  | none => true

/-- One turn of `merge`, with the number of entries taken so far. -/
def mergeOne (acc : RouteTable × ℕ) (e : RouteEntry) : RouteTable × ℕ :=
  if takes (acc.1.entries.lookup e.targetPrefix) e then (⟨acc.1.entries.insert e.targetPrefix e⟩,acc.2+1) else acc

def merge (t : RouteTable) (entries : List RouteEntry) : RouteTable × ℕ := entries.foldl mergeOne (t,0)

/- A longer prefix goes first, then the lower cost, then the smaller prefix. -/
def selection (e : RouteEntry) : ℕᵒᵈ ×ₗ ℕ ×ₗ String :=
  toLex (OrderDual.toDual e.targetPrefix.utf8ByteSize,toLex (e.cost,e.targetPrefix))

def resolve (values : List RouteEntry) (path : String) : Option RouteEntry :=
  (values.filter (·.serves path)).argmin selection

end RouteTable

abbrev Buckets := Finmap fun _ : String => List RouteEntry

abbrev Bucket := (_ : String) × List RouteEntry

structure SupernetReport where
  before : ℕ
  after : ℕ
  ratioPermille : ℕ

structure SupernetAggregator where
  aggregated : Buckets
  lastReport : SupernetReport

def supernetThreshold : ℕ := 10000

/-- The candidate a bucket answers with: the first of the smallest. -/
def select (candidates : List RouteEntry) : Option RouteEntry :=
  candidates.argmin fun e => toLex (e.cost,e.nextHop)

/-- `target[..end]` at every character boundary, longest first. -/
def boundaries (target : String) : List String := target.toList.inits.reverse.map String.ofList

def resolveEntries (entries : Buckets) (target : String) : Option RouteEntry :=
  (boundaries target).findSome? fun s => (entries.lookup s).bind select

def RouteEntry.route (e : RouteEntry) : String × ℕ × ℕ := (e.nextHop,e.cost,e.version)

namespace SupernetAggregator

def fill (buckets : Buckets) (e : RouteEntry) : Buckets :=
  buckets.insert e.targetPrefix ((buckets.lookup e.targetPrefix).getD []++[e])

def buckets (entries : List RouteEntry) : Buckets := entries.foldl fill ∅

/- One turn of the loop over the buckets, shorter prefixes first. The source expects a
bucket to be nonempty. -/
def admitBucket (out : Buckets) (b : Bucket) : Buckets :=
  match select b.2,resolveEntries out b.1 with
  | some selected,some covering => if covering.route=selected.route then out else out.insert b.1 b.2
  | _,_ => out.insert b.1 b.2

def ordered (iterated : List Bucket) : List Bucket :=
  iterated.mergeSort fun a b => decide (a.1.utf8ByteSize≤b.1.utf8ByteSize)

/- `iterated` is what the buckets yield by `into_iter`. -/
def compact (iterated : List Bucket) (entries : List RouteEntry) : SupernetAggregator :=
  if entries.length ≤ supernetThreshold then ⟨buckets entries,entries.length,entries.length,1000⟩
  else
    let out:=(ordered iterated).foldl admitBucket ∅
    let after:=(out.entries.map fun b => b.2.length).sum
    ⟨out,entries.length,after,after*1000/entries.length⟩

def resolve (agg : SupernetAggregator) (path : String) : Option RouteEntry := resolveEntries agg.aggregated path

end SupernetAggregator
end Parrot.Topology
