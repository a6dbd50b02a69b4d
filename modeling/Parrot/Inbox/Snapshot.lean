import Parrot.Inbox.Durable
import Parrot.Lib.Limited

/-! # Snapshots that reopen (`durable/inbox.rs:60-78`, `durable/inbox.rs:382-413`, `durable/inbox.rs:449-475`)

The writer bounds a snapshot by its bytes, the reader also by the values it visits. -/

namespace Parrot.Inbox
open Machine CrashFs
open Bincode (Limited Fields scalar leBytes ofLeBytes)
open Wal (checksum)

/-- `InboxLimits::validate`, without the two limits of the command queue. -/
def InboxLimits.validate (limits : InboxLimits) : Except InboxError Unit :=
  if [limits.maxStateBytes,limits.maxSnapshotBytes,limits.maxStreams,limits.maxStreamBytes].any
      (fun n => decide (n=0 ∨ n>u64Max/8)) ∨ limits.maxSnapshotBytes>16*1024*1024 ∨
      limits.maxStateBytes>limits.maxSnapshotBytes then
    .error (.invalid "invalid limits")
  else .ok ()

def streamFields : Fields ((Bincode.string.pair Bincode.string).pair Bincode.u64) :=
  .cons (Limited.struct (.cons (scalar Bincode.string) (.one (scalar Bincode.string)))) (.one (scalar Bincode.u64))

def savedLimited : Limited savedCodec :=
  (Limited.struct (.cons (scalar Bincode.u8) (.cons (scalar Bincode.string) (.cons (scalar Bincode.string)
    (.cons (scalar Bincode.u64) (.cons (scalar Bincode.bytes)
    (.one (Limited.map streamFields (by decide))))))))).via

def decodeLimits (limits : InboxLimits) : Bincode.Limits :=
  ⟨limits.maxSnapshotBytes,min limits.maxStreams limits.maxSnapshotBytes*4+7,64⟩

def InboxCodec.bounded : InboxCodec where
  encode := savedCodec.encode
  decode limits := savedLimited.decode (decodeLimits limits)
  decode_encode := by
    intro limits s s' h
    have hdec:=(Limited.decode_sound h).2
    have henc:=savedCodec.decode_encode s []
    rw [List.append_nil,hdec] at henc
    split at henc
    · exact congrArg Prod.fst (Option.some.inj henc)
    · contradiction

structure Sound (limits : InboxLimits) (node path : String) (s : Saved) : Prop where
  version : s.version=1
  node : s.node=node
  path : s.path=path
  revision : s.revision≤u64Max
  valid : s.validate limits=.ok ()
  sequences : ∀ e∈s.streams, e.2≤u64Max
  sorted : SortedMap.Sorted s.streams

variable {limits : InboxLimits} {node path : String} {s : Saved}

theorem validate_snapshot (h : limits.validate=.ok ()) : limits.maxSnapshotBytes<256^8 := by
  unfold InboxLimits.validate at h
  split at h
  · contradiction
  · rename_i hbad
    push Not at hbad
    omega

theorem checkStreams_ok {streams : List (StreamKey × ℕ)} {size n : ℕ} (h : checkStreams streams size=.ok n) :
    ∀ e∈streams, (ofLex e.1).1.utf8ByteSize≤1024 ∧ (ofLex e.1).2.utf8ByteSize≤1024 := by
  induction streams generalizing size with
  | nil =>
    intro e he
    contradiction
  | cons x rest ih =>
    obtain ⟨key,seq⟩:=x
    simp only [checkStreams] at h
    split at h
    · contradiction
    · rename_i hbad
      push Not at hbad
      split at h
      · contradiction
      · intro e he
        rcases List.mem_cons.mp he with rfl | he
        · dsimp only
          omega
        · exact ih h e he

theorem validate_cases (h : s.validate limits=.ok ()) : (∀ e∈s.streams, (ofLex e.1).1.utf8ByteSize≤1024 ∧
    (ofLex e.1).2.utf8ByteSize≤1024) ∧ s.state.length≤limits.maxStateBytes ∧ s.streams.length≤limits.maxStreams := by
  obtain ⟨size,hsize,h⟩:=bind_eq_ok.mp h
  split at h
  · contradiction
  · rename_i hbad
    push Not at hbad
    exact ⟨checkStreams_ok hsize,hbad.1,hbad.2.1⟩

theorem saved_length (s : Saved) : (savedCodec.encode s).length =
    1+((Bincode.string.encode s.node).length+((Bincode.string.encode s.path).length+
      ((Bincode.u64.encode s.revision).length+((Bincode.bytes.encode s.state).length+
      (((Bincode.string.pair Bincode.string).pair Bincode.u64).list.encode
        (s.streams.map fun e => (ofLex e.1,e.2))).length)))) := by
  simp only [savedCodec,Bincode.Codec.via,Bincode.Codec.pair,List.length_append]
  rfl

theorem streams_length (streams : List (StreamKey × ℕ)) : streams.length ≤
    (((Bincode.string.pair Bincode.string).pair Bincode.u64).list.encode
      (streams.map fun e => (ofLex e.1,e.2))).length := by
  have hentries : ∀ l : List (StreamKey × ℕ), l.length ≤
      ((l.map fun e => (ofLex e.1,e.2)).flatMap ((Bincode.string.pair Bincode.string).pair Bincode.u64).encode).length := by
    intro l
    induction l with
    | nil => exact Nat.zero_le _
    | cons e l ih =>
      have hpos:=Bincode.u64_pos e.2
      simp only [List.map_cons,List.flatMap_cons,List.length_append,List.length_cons,Bincode.Codec.pair] at ih ⊢
      omega
  have hall:=hentries streams
  simp only [Bincode.Codec.list,List.length_append]
  omega

theorem saved_fits (hs : Sound limits node path s) (hmax : limits.maxSnapshotBytes<256^8)
    (hlen : 12+(savedCodec.encode s).length≤limits.maxSnapshotBytes) : savedCodec.fits s=true := by
  rw [saved_length,Bincode.string_length,Bincode.string_length,Bincode.bytes_length] at hlen
  have hcount:=streams_length s.streams
  obtain ⟨hstreams,-,-⟩:=validate_cases hs.valid
  have hnode : Bincode.string.fits s.node=true := Bincode.string_fits (by omega)
  have hpath : Bincode.string.fits s.path=true := Bincode.string_fits (by omega)
  have hrevision : Bincode.u64.fits s.revision=true := Bincode.u64_fits (hs.revision.trans_lt (by decide))
  have hstate : Bincode.bytes.fits s.state=true := Bincode.bytes_fits (by omega)
  have hmap : ((Bincode.string.pair Bincode.string).pair Bincode.u64).list.fits
      (s.streams.map fun e => (ofLex e.1,e.2))=true := by
    simp only [Bincode.Codec.list,Bool.and_eq_true,List.all_eq_true]
    refine ⟨Bincode.u64_fits (by rw [List.length_map]; omega),?_⟩
    intro x hx
    obtain ⟨e,he,rfl⟩:=List.mem_map.mp hx
    obtain ⟨hsource,hsession⟩:=hstreams e he
    have hseq : Bincode.u64.fits e.2=true := Bincode.u64_fits ((hs.sequences e he).trans_lt (by decide))
    simp only [Bincode.Codec.pair,Bincode.string_fits (hsource.trans_lt (by decide)),
      Bincode.string_fits (hsession.trans_lt (by decide)),hseq,Bool.and_self]
  have hfits : savedCodec.fits s=(true&&(Bincode.string.fits s.node&&(Bincode.string.fits s.path &&
      (Bincode.u64.fits s.revision&&(Bincode.bytes.fits s.state &&
      ((Bincode.string.pair Bincode.string).pair Bincode.u64).list.fits
        (s.streams.map fun e => (ofLex e.1,e.2))))))) := rfl
  rw [hfits,hnode,hpath,hrevision,hstate,hmap]
  rfl

theorem saved_cost (s : Saved) : 1+savedLimited.cost s=s.streams.length*4+7 := by
  have hentries : ∀ l : List (StreamKey × ℕ), streamFields.costs (l.map fun e => (ofLex e.1,e.2))=l.length*4 := by
    intro l
    induction l with
    | nil => rfl
    | cons e l ih =>
      have hcost : streamFields.cost (ofLex e.1,e.2)=4 := rfl
      simp only [Fields.costs,List.map_cons,List.sum_cons,List.length_cons] at ih ⊢
      rw [hcost,ih]
      omega
  have hcost : savedLimited.cost s=(1+0)+((1+0)+((1+0)+((1+0)+((1+0)+
      (1+streamFields.costs (s.streams.map fun e => (ofLex e.1,e.2))))))) := rfl
  rw [hcost,hentries]
  omega

theorem bounded_decode (hlimits : limits.validate=.ok ()) (hs : Sound limits node path s)
    (hlen : 12+(savedCodec.encode s).length≤limits.maxSnapshotBytes) :
    InboxCodec.bounded.decode limits (InboxCodec.bounded.encode s)=.ok s := by
  obtain ⟨-,-,hcount⟩:=validate_cases hs.valid
  have hcost:=saved_cost s
  have hbytes : s.streams.length≤limits.maxSnapshotBytes := by
    have hstreams:=streams_length s.streams
    rw [saved_length] at hlen
    omega
  have hheight : savedLimited.height<64 := by decide
  have hdepth : 64≤128 := by decide
  refine savedLimited.decode_encode (saved_fits hs (validate_snapshot hlimits) hlen) ?_ ?_ hheight hdepth
  · dsimp only [decodeLimits]
    omega
  · dsimp only [decodeLimits]
    omega

structure Written (limits : InboxLimits) (node path : String) (s : Saved) : Prop where
  sound : Sound limits node path s
  size : 12+(savedCodec.encode s).length≤limits.maxSnapshotBytes

theorem load_written (hlimits : limits.validate=.ok ()) (h : Written limits node path s) :
    load .bounded limits (image .bounded s)=.ok s := by
  have hdecode:=bounded_decode hlimits h.sound h.size
  have heq:=image_eq .bounded s
  have hbody:=image_body .bounded s
  have hrest : (image .bounded s).drop 8 =
      leBytes 4 (checksum (InboxCodec.bounded.encode s))++InboxCodec.bounded.encode s := by
    rw [heq]
    exact List.drop_left' rfl
  have hmagic : (image .bounded s).take 8=magic := by
    rw [heq]
    exact List.take_left' rfl
  have hcheck : ((image .bounded s).drop 8).take 4=leBytes 4 (checksum (InboxCodec.bounded.encode s)) := by
    rw [hrest]
    exact List.take_left' (Bincode.leBytes_length ..)
  have hlen : (image .bounded s).length=12+(savedCodec.encode s).length := by
    rw [heq,List.length_append,List.length_append,Bincode.leBytes_length,show magic.length=8 from rfl]
    change 8+(4+(savedCodec.encode s).length)=_
    omega
  have hsize:=h.size
  unfold load
  rw [if_neg,hbody,hdecode]
  rw [hbody,hcheck,hmagic,hlen,Bincode.ofLeBytes_leBytes (Wal.checksum_lt _)]
  simp only [ne_eq,not_true_eq_false,or_false]
  omega

theorem accept_written (hlimits : limits.validate=.ok ()) (h : Written limits node path s) :
    accept .bounded limits node path (image .bounded s)=.ok s := by
  unfold accept
  rw [load_written hlimits h]
  simp only [bind,Except.bind]
  rw [if_neg (by simp [h.sound.version,h.sound.node,h.sound.path]),h.sound.valid]
  rfl

theorem tidy_completes {d : Disk InboxFile} {b : Bytes} (hread : d.read .state=some b) :
    ∃ d', Disk.Completed ((if (d.read .next).isSome then [Effect.unlink InboxFile.next,.syncDir] else [])++
      [.sync .state,.syncDir]) d d' := by
  obtain ⟨i,hi⟩ : ∃ i, d.dir.lookup .state=some i := by
    rw [← Option.isSome_iff_exists,← Disk.isSome_read,hread]
    rfl
  have hrest : ∀ x : Disk InboxFile, x.dir.lookup .state=some i →
      ∃ d', Disk.Completed [.sync .state,.syncDir] x d' := by
    intro x hx
    obtain ⟨x1,h1,-⟩:=Disk.modify_completes hx fun f => {f with synced:=f.data}
    exact ⟨_,Option.bind_eq_some_iff.mpr ⟨x1,h1,Option.bind_eq_some_iff.mpr ⟨_,rfl,rfl⟩⟩⟩
  split
  · rename_i hsome
    rw [Disk.isSome_read] at hsome
    have hun : d.perform (.unlink .next)=some {d with pending:=d.pending++[.unlink .next]} := by
      simp only [Disk.perform,hsome,if_true]
    have hne : InboxFile.state ≠ .next := by decide
    obtain ⟨d',hd'⟩:=hrest
      {d with durable := Disk.dir {d with pending:=d.pending++[.unlink .next]},pending := []}
      (by
        change (Disk.dir {d with pending:=d.pending++[.unlink .next]}).lookup .state=_
        rw [Disk.dir_snoc,lookup_unlink,if_neg hne]
        exact hi)
    refine ⟨d',Disk.completed_append.mpr ⟨_,?_,hd'⟩⟩
    exact Option.bind_eq_some_iff.mpr ⟨_,hun,Option.bind_eq_some_iff.mpr ⟨_,rfl,rfl⟩⟩
  · exact hrest d hi

theorem open_written (hlimits : limits.validate=.ok ()) (h : Written limits node path s) {d : Disk InboxFile}
    (hread : d.read .state=some (image .bounded s)) (initial : Bytes) {budget : ℕ} (hbudget : 4≤budget) :
    ∃ d', Store.open .bounded limits node path initial budget d=(d',.ok ⟨s,false⟩) := by
  obtain ⟨d',hrun⟩:=tidy_completes hread
  refine ⟨d',?_⟩
  have hcost : Disk.cost ((if (d.read .next).isSome then [Effect.unlink InboxFile.next,.syncDir] else [])++
      [.sync .state,.syncDir])≤budget := by
    refine Nat.le_trans ?_ hbudget
    split
    · exact Nat.le_refl 4
    · exact (show (2 : ℕ)≤4 by decide)
  unfold Store.open
  rw [hread]
  dsimp only
  rw [accept_written hlimits h]
  dsimp only
  rw [Disk.exec_of_completed hrun hcost]

end Parrot.Inbox
