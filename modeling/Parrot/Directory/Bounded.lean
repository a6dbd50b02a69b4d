import Parrot.Directory.Command
import Parrot.Lib.Limited

/-! # Commands under the decoder's limits
(`directory/command.rs:17-103`, `directory/request.rs:42-98`, `remote_decode.rs`)

The encoder bounds bytes, members and field lengths, the decoder bytes, visited values and
depth. -/

namespace Parrot.Directory
open Machine Parrot.Raft
open Bincode (Limited Fields Limits scalar)

def cmdVariants : ∀ k, Fields ((fun
    | 0 => Bincode.string.pair Bincode.string.list
    | 1 => Bincode.string
    | 2 => Bincode.string.pair Bincode.string
    | 3 => Bincode.string.pair Bincode.string.list
    | _+4 => Bincode.never : ∀ k, Bincode.Codec (cmdFields k)) k)
  | 0 => .cons (scalar Bincode.string) (.one (scalar Bincode.string).list)
  | 1 => .one (scalar Bincode.string)
  | 2 => .cons (scalar Bincode.string) (.one (scalar Bincode.string))
  | 3 => .cons (scalar Bincode.string) (.one (scalar Bincode.string).list)
  | _+4 => .never

theorem cmdVariants_height : ∀ k, (cmdVariants k).height≤1
  | 0 => Nat.le_refl 1
  | 1 => Nat.zero_le 1
  | 2 => Nat.zero_le 1
  | 3 => Nat.le_refl 1
  | _+4 => Nat.zero_le 1

def cmdLimited : Limited cmdCodec := (Limited.variant cmdVariants 1 cmdVariants_height).via

def requestLimited : Limited requestCodec :=
  (Limited.struct (.cons (scalar Bincode.string) (.cons (scalar Bincode.string) (.one cmdLimited)))).via

def DirectoryCodec.bounded : DirectoryCodec where
  encodeCmd := cmdCodec.encode
  decodeCmd := cmdLimited.decode ⟨maxCommandBytes,maxMembers+16,8⟩
  encodeRequest := requestCodec.encode
  decodeRequest := requestLimited.decode ⟨maxCommandBytes,4200,12⟩
  digest := Sha256.digest

theorem validateText_ok {s : String} {max : ℕ} (h : validateText s max=.ok ()) : s.utf8ByteSize ≤ max := by
  unfold validateText at h
  split at h
  · contradiction
  · rename_i hbad
    simp only [Bool.or_eq_true,decide_eq_true_eq,not_or] at hbad
    omega

theorem validateMembers_ok {items : List String} {max : ℕ} (h : validateMembers items max=.ok ()) :
    items.length ≤ maxMembers ∧ ∀ s∈items, s.utf8ByteSize ≤ max := by
  unfold validateMembers at h
  split at h
  · contradiction
  · exact ⟨by omega,fun s hs => validateText_ok (forM_eq_ok.mp h s hs)⟩

theorem texts_fit {items : List String} (hlen : items.length ≤ maxMembers)
    (h : ∀ s∈items, s.utf8ByteSize≤4096) : Bincode.string.list.fits items=true := by
  unfold maxMembers at hlen
  simp only [Bincode.Codec.list,Bool.and_eq_true,List.all_eq_true]
  exact ⟨Bincode.u64_fits (by omega),fun s hs => Bincode.string_fits ((h s hs).trans_lt (by decide))⟩

theorem text_fits {s : String} (h : s.utf8ByteSize≤1024) : Bincode.string.fits s=true :=
  Bincode.string_fits (h.trans_lt (by decide))

theorem validate_bounds {cmd : DirCmd} (h : cmd.validate=.ok ()) :
    cmdCodec.fits cmd=true ∧ cmdLimited.cost cmd≤4+maxMembers := by
  cases cmd with
  | upsert node endpoints =>
    obtain ⟨u,hnode,hmembers⟩:=bind_eq_ok.mp h
    obtain ⟨hlen,hall⟩:=validateMembers_ok hmembers
    have hn:=text_fits (validateText_ok hnode)
    have hm:=texts_fit hlen hall
    constructor
    · change (Bincode.u32.fits 0&&(Bincode.string.fits node&&Bincode.string.list.fits endpoints))=true
      rw [hn,hm]
      rfl
    · change 2+((1+0)+(1+(scalar Bincode.string).costs endpoints))≤_
      rw [Bincode.costs_scalar]
      omega
  | remove node =>
    have hn:=text_fits (validateText_ok h)
    constructor
    · change (Bincode.u32.fits 1&&Bincode.string.fits node)=true
      rw [hn]
      rfl
    · change 2+(1+0)≤_
      omega
  | borderDeclare pre node =>
    obtain ⟨u,hpre,hnode⟩:=bind_eq_ok.mp h
    have hp:=text_fits (validateText_ok hpre)
    have hn:=text_fits (validateText_ok hnode)
    constructor
    · change (Bincode.u32.fits 2&&(Bincode.string.fits pre&&Bincode.string.fits node))=true
      rw [hp,hn]
      rfl
    · change 2+((1+0)+(1+0))≤_
      omega
  | keyAggregate key nodes =>
    obtain ⟨u,hkey,hmembers⟩:=bind_eq_ok.mp h
    obtain ⟨hlen,hall⟩:=validateMembers_ok hmembers
    have hk:=text_fits (validateText_ok hkey)
    have hm:=texts_fit hlen fun s hs => (hall s hs).trans (by decide)
    constructor
    · change (Bincode.u32.fits 3&&(Bincode.string.fits key&&Bincode.string.list.fits nodes))=true
      rw [hk,hm]
      rfl
    · change 2+((1+0)+(1+(scalar Bincode.string).costs nodes))≤_
      rw [Bincode.costs_scalar]
      omega

variable {bytes : Bytes} {cmd : DirCmd}

theorem encode_ok (h : cmd.encode .bounded=.ok bytes) :
    cmd.validate=.ok () ∧ bytes=cmdCodec.encode cmd ∧ bytes.length ≤ maxCommandBytes := by
  obtain ⟨u,hvalid,h⟩:=bind_eq_ok.mp h
  split at h
  · contradiction
  · rename_i hlen
    cases h
    exact ⟨hvalid,rfl,Nat.le_of_not_lt hlen⟩

theorem cmd_decoded (hvalid : cmd.validate=.ok ()) (hlen : (cmdCodec.encode cmd).length ≤ maxCommandBytes) :
    DirectoryCodec.bounded.decodeCmd (cmdCodec.encode cmd)=.ok cmd := by
  obtain ⟨hfits,hcost⟩:=validate_bounds hvalid
  refine cmdLimited.decode_encode hfits hlen ?_ (by decide) (by decide)
  dsimp only
  omega

theorem cmd_head (cmd : DirCmd) : ∃ b rest, cmdCodec.encode cmd=b::rest ∧ b≠0xff := by
  cases cmd with
  | upsert node endpoints => exact ⟨0,_,rfl,by decide⟩
  | remove node => exact ⟨1,_,rfl,by decide⟩
  | borderDeclare pre node => exact ⟨2,_,rfl,by decide⟩
  | keyAggregate key nodes => exact ⟨3,_,rfl,by decide⟩

theorem decode_encode (h : cmd.encode .bounded=.ok bytes) : DirCmd.decode .bounded bytes=.ok cmd := by
  obtain ⟨hvalid,rfl,hlen⟩:=encode_ok h
  unfold DirCmd.decode
  rw [if_neg (Nat.not_lt.mpr hlen),cmd_decoded hvalid hlen]
  simp only [hvalid]
  rfl

theorem plain_decoded (h : cmd.encode .bounded=.ok bytes) : decodeStored .bounded bytes=.ok (.plain cmd) := by
  have hdecode:=decode_encode h
  obtain ⟨hvalid,rfl,hlen⟩:=encode_ok h
  obtain ⟨b,rest,hhead,hb⟩:=cmd_head cmd
  have hbarrier : cmdCodec.encode cmd≠readBarrierBytes := by
    rw [hhead]
    intro heq
    exact hb (List.cons.inj heq).1
  have hmagic : (cmdCodec.encode cmd).take requestMagic.length≠requestMagic := by
    rw [hhead]
    intro heq
    exact hb (List.cons.inj heq).1
  unfold decodeStored
  rw [if_neg hbarrier,if_neg (Nat.not_lt.mpr hlen),if_neg hmagic,hdecode]
  rfl

variable {client id : String}

theorem identity_ok (h : identity client id=.ok ()) : client.utf8ByteSize≤1024 ∧ id.utf8ByteSize≤128 := by
  unfold identity at h
  split at h
  · contradiction
  · split at h
    · contradiction
    · rename_i hbad
      simp only [Bool.or_eq_true,decide_eq_true_eq,not_or] at hbad
      omega

theorem request_decoded_body (hid : identity client id=.ok ()) (hvalid : cmd.validate=.ok ())
    (hlen : (requestCodec.encode ⟨client,id,cmd⟩).length ≤ maxCommandBytes) :
    DirectoryCodec.bounded.decodeRequest (requestCodec.encode ⟨client,id,cmd⟩)=.ok ⟨client,id,cmd⟩ := by
  obtain ⟨hclient,hident⟩:=identity_ok hid
  obtain ⟨hfits,hcost⟩:=validate_bounds hvalid
  have hc:=text_fits hclient
  have hi:=text_fits (hident.trans (by decide))
  refine requestLimited.decode_encode ?_ hlen ?_ (by decide) (by decide)
  · change (Bincode.string.fits client&&(Bincode.string.fits id&&cmdCodec.fits cmd))=true
    rw [hc,hi,hfits]
    rfl
  · change 1+((1+0)+((1+0)+(1+cmdLimited.cost cmd)))≤4200
    unfold maxMembers at hcost
    omega

theorem encodeRequest_ok (h : encodeRequest .bounded client id cmd=.ok bytes) :
    identity client id=.ok () ∧ (∃ b, cmd.encode .bounded=.ok b) ∧
      bytes=requestMagic++requestCodec.encode ⟨client,id,cmd⟩ ∧ bytes.length ≤ maxCommandBytes := by
  obtain ⟨u,hid,h⟩:=bind_eq_ok.mp h
  obtain ⟨b,hb,h⟩:=bind_eq_ok.mp h
  dsimp only at h
  split at h
  · contradiction
  · rename_i hlen
    cases h
    refine ⟨hid,⟨b,hb⟩,rfl,?_⟩
    rw [List.length_append]
    exact Nat.le_of_not_lt hlen

theorem request_stored (h : encodeRequest .bounded client id cmd=.ok bytes) :
    decodeStored .bounded bytes=.ok (.request ⟨client,id,cmd⟩) := by
  obtain ⟨hid,⟨b,hb⟩,rfl,hlen⟩:=encodeRequest_ok h
  have htake : (requestMagic++requestCodec.encode ⟨client,id,cmd⟩).take requestMagic.length=requestMagic :=
    List.take_left
  have hdrop : (requestMagic++requestCodec.encode ⟨client,id,cmd⟩).drop requestMagic.length =
      requestCodec.encode ⟨client,id,cmd⟩ := List.drop_left
  have hbarrier : requestMagic++requestCodec.encode ⟨client,id,cmd⟩≠readBarrierBytes := by
    intro heq
    have:=congrArg (List.take requestMagic.length) heq
    rw [htake] at this
    exact absurd this (by decide)
  have hbody : (requestCodec.encode ⟨client,id,cmd⟩).length ≤ maxCommandBytes := by
    rw [List.length_append] at hlen
    omega
  unfold decodeStored
  rw [if_neg hbarrier,if_neg (Nat.not_lt.mpr hlen),if_pos htake,hdrop,
    request_decoded_body hid (encode_ok hb).1 hbody]
  simp only [hid,hb]
  rfl

def StoredCommand.Valid : StoredCommand → Prop
  | .readBarrier => True
  | .plain command => command.validate=.ok ()
  | .request r => identity r.client r.id=.ok () ∧ r.command.validate=.ok ()

theorem decode_ok (h : DirCmd.decode .bounded bytes=.ok cmd) : cmd.validate=.ok () := by
  unfold DirCmd.decode at h
  split at h
  · contradiction
  · split at h
    · contradiction
    · obtain ⟨u,hvalid,h⟩:=bind_eq_ok.mp h
      cases h
      exact hvalid

theorem decodeStored_cases {s : StoredCommand} (h : decodeStored .bounded bytes=.ok s) : (bytes=readBarrierBytes ∧
    s=.readBarrier) ∨ (∃ r b, s=.request r ∧ identity r.client r.id=.ok () ∧ r.command.encode .bounded=.ok b) ∨ ∃ c,
    s=.plain c ∧ c.validate=.ok () := by
  unfold decodeStored at h
  split at h
  · rename_i hbytes
    exact .inl ⟨hbytes,(Except.ok.inj h).symm⟩
  · split at h
    · contradiction
    · split at h
      · split at h
        · contradiction
        · rename_i r _
          obtain ⟨u,hid,h⟩:=bind_eq_ok.mp h
          obtain ⟨b,hb,h⟩:=bind_eq_ok.mp h
          exact .inr (.inl ⟨r,b,(Except.ok.inj h).symm,hid,hb⟩)
      · cases hd : DirCmd.decode .bounded bytes with
        | error e =>
          rw [hd] at h
          contradiction
        | ok c =>
          rw [hd] at h
          exact .inr (.inr ⟨c,(Except.ok.inj h).symm,decode_ok hd⟩)

theorem decodeStored_valid {s : StoredCommand} (h : decodeStored .bounded bytes=.ok s) : s.Valid := by
  rcases decodeStored_cases h with ⟨-,rfl⟩ | ⟨r,b,rfl,hid,hb⟩ | ⟨c,rfl,hvalid⟩
  · trivial
  · exact ⟨hid,(encode_ok hb).1⟩
  · exact hvalid

theorem decodeStored_barrier (h : decodeStored .bounded bytes=.ok .readBarrier) : bytes=readBarrierBytes := by
  rcases decodeStored_cases h with ⟨hbytes,-⟩ | ⟨r,b,heq,-⟩ | ⟨c,heq,-⟩
  · exact hbytes
  · exact nomatch heq
  · exact nomatch heq

end Parrot.Directory
