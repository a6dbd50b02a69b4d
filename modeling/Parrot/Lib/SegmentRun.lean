import Parrot.Lib.SegmentLog

/-! # Changing a segmented log

The programs of `SegmentLog` make the changes they are for, and wherever a crash
stops one of them the disk holds one of the images of the change. -/

namespace SegmentLog
open List (length_append take_length length_singleton map_cons map_nil sum_cons sum_nil mem_append_right mem_singleton_self append_nil nil_append mem_singleton take_left' foldl_cons)
open CrashFs Frames

variable {α : Type} {body : α → Bytes} {check : Bytes → ℕ} {max : ℕ}

variable (body check max) in
def Left (L : Layout α) (c : Change α) (l : Listing ℕ) : Prop :=
  bytes l ≤ size body check L.log+c.bytes body check ∧
    (Unclean L c l ∨ ∃ base segs active t, Image L c base segs active ∧ Torn check max t ∧
      l=under body check base segs (settled (data body check active++t)))

variable {L : Layout α} {c : Change α}

theorem size_log (L : Layout α) :
    size body check L.log=size body check L.sealed+(data body check L.active).length := by
  simp [Layout.log]

theorem take_write (active : List α) (r : α) (k : ℕ) : data body check active++(frame check (body r)).take k =
    (data body check (active++[r])).take ((data body check active).length+k) := by
  rw [data_append,data_singleton,List.take_length_add_append]

theorem data_take_le (recs : List α) (m : ℕ) :
    (data body check (recs.take m)).length≤(data body check recs).length := by
  have hsplit : data body check recs=data body check (recs.take m)++data body check (recs.drop m) := by
    rw [← data_append,List.take_append_drop]
  rw [hsplit,length_append]
  omega

section
variable (valid : ∀ a, Valid check max (body a))
include valid

theorem left_kept {m : ℕ}
    (hm : L.synced ≤ m) (hm' : m≤L.active.length) (cut : ℕ → ℕ) :
    Left body check max L c (Listing.cut cut (Layout.listing body check {L with synced:=m})) := by
  obtain ⟨j,t,hj,hj',ht,heq⟩:=keep_grown valid L.active hm' (data_take_le L.active m) (cut L.segId)
  rw [take_length] at heq
  rw [Layout.listing,cut_under]
  constructor
  · rw [bytes_under,size_log,settled]
    have hle:=keep_length_le ⟨data body check (L.active.take m),data body check L.active⟩ (cut L.segId)
    have hmono:=@data_take_le _ body check L.active m
    dsimp only [Layout.segId] at hle ⊢
    omega
  · refine .inr ⟨_,_,_,t,Image.kept c j (hm.trans hj) hj',ht,?_⟩
    rw [← heq]
    rfl

theorem left_written (r : α)
    (rotate : Bool) {m n : ℕ} (hm : L.synced ≤ m) (hm' : m≤L.active.length+1)
    (hn : (data body check ((L.active++[r]).take m)).length≤n) (cut : ℕ → ℕ) :
    Left body check max L (.write r rotate) (Listing.cut cut (under body check L.base L.sealed
      ⟨data body check ((L.active++[r]).take m),(data body check (L.active++[r])).take n⟩)) := by
  obtain ⟨j,t,hj,hj',ht,heq⟩:=keep_grown valid (L.active++[r]) (by simpa using hm') hn (cut L.segId)
  rw [cut_under]
  constructor
  · rw [bytes_under,size_log,settled,Change.bytes]
    have hle:=keep_length_le ⟨data body check ((L.active++[r]).take m),
      (data body check (L.active++[r])).take n⟩ (cut L.segId)
    have hmono:=@data_take_le _ body check (L.active++[r]) m
    have hlen : (data body check (L.active++[r])).length =
        (data body check L.active).length+(frame check (body r)).length := by
      rw [data_append,data_singleton,length_append]
    have htake : ((data body check (L.active++[r])).take n).length ≤
        (data body check (L.active++[r])).length := List.length_take_le' ..
    dsimp only [Layout.segId] at hle ⊢
    omega
  · refine .inr ⟨L.base,L.sealed,(L.active++[r]).take j,t,?_,ht,?_⟩
    · rcases Nat.lt_or_ge L.active.length j with hlt | hge
      · have hall : (L.active++[r]).take j=L.active++[r] := by
          refine List.take_of_length_le ?_
          rw [length_append,length_singleton]
          exact hlt
        rw [hall]
        exact Image.written r rotate
      · rw [List.take_append_of_le_length hge]
        exact Image.kept _ j (hm.trans hj) hge
    · rw [← heq]
      rfl

theorem left_begun (hs : L.synced≤L.active.length)
    (rs : List α) {m n : ℕ} (hm' : m ≤ rs.length)
    (hn : (data body check (rs.take m)).length≤n) (cut : ℕ → ℕ) :
    Left body check max L (.checkpoint rs) (Listing.cut cut (L.listing body check++
        [(L.segId+1,⟨data body check (rs.take m),(data body check rs).take n⟩)])) := by
  obtain ⟨i,t,-,hi',ht,heq⟩:=keep_grown valid rs hm' hn (cut (L.segId+1))
  have hkeep:=keep_length_le ⟨data body check (L.active.take L.synced),data body check L.active⟩
    (cut (L.base+L.sealed.length))
  have hkeep':=keep_length_le ⟨data body check (rs.take m),(data body check rs).take n⟩
    (cut (L.segId+1))
  have hmono:=@data_take_le _ body check L.active L.synced
  have hmono':=@data_take_le _ body check rs m
  have htake : ((data body check rs).take n).length≤(data body check rs).length := List.length_take_le' ..
  rw [cut_append,Layout.listing,cut_under]
  simp only [Listing.cut,map_cons,map_nil]
  constructor
  · rw [bytes_append,bytes_under,size_log,settled,Change.bytes]
    simp only [bytes,map_cons,map_nil,sum_cons,sum_nil]
    dsimp only at hkeep hkeep' ⊢
    omega
  · rcases hs.lt_or_eq with hlt | hsync
    · exact .inl ⟨⟨rs,rfl⟩,hlt,⟨_,List.mem_append_left _ (mem_append_right _
        (mem_singleton_self _)),rfl⟩,⟨_,mem_append_right _ (mem_singleton_self _),rfl⟩⟩
    · refine .inr ⟨_,_,_,t,Image.begun rs i hsync,ht,?_⟩
      rw [hsync,take_length,File.keep_settled,heq]
      exact under_snoc ..

end

theorem left_collected (hs : L.synced≤L.active.length) (rs : List α) {k : ℕ} (hk : k≤L.sealed.length+1)
    (cut : ℕ → ℕ) : Left body check max L (.checkpoint rs)
    (Listing.cut cut ((L.listing body check).drop k++ [(L.segId+1,settled (data body check rs))])) := by
  have hkeep:=keep_length_le ⟨data body check (L.active.take L.synced),data body check L.active⟩
    (cut (L.base+L.sealed.length))
  have hmono:=@data_take_le _ body check L.active L.synced
  have hcut : Listing.cut cut ((L.listing body check).drop k++
        [(L.segId+1,settled (data body check rs))]) =
      (Listing.cut cut (L.listing body check)).drop k++[(L.segId+1,settled (data body check rs))] := by
    rw [cut_append]
    simp [Listing.cut,List.map_drop,settled,File.keep_settled]
  rw [hcut,Layout.listing,cut_under]
  constructor
  · rw [bytes_append]
    refine (Nat.add_le_add_right (bytes_drop_le _ k) _).trans ?_
    rw [bytes_under,size_log,settled,settled,Change.bytes]
    simp only [bytes,map_cons,map_nil,sum_cons,sum_nil]
    dsimp only at hkeep ⊢
    omega
  · rcases Nat.lt_or_ge L.sealed.length k with hgt | hle
    · obtain rfl : k=L.sealed.length+1 := by omega
      refine .inr ⟨_,_,_,[],Image.replaced rs,.inl rfl,?_⟩
      rw [List.drop_of_length_le (by simp [under,sealedFiles_length])]
      simp [under,sealedFiles]
    · rcases hs.lt_or_eq with hlt | hsync
      · have hmem : (L.segId,settled (File.keep ⟨data body check (L.active.take L.synced),
            data body check L.active⟩ (cut (L.base+L.sealed.length)))) ∈
            (under body check L.base L.sealed (settled (File.keep ⟨data body check
              (L.active.take L.synced),data body check L.active⟩ (cut (L.base+L.sealed.length))))).drop k := by
          rw [under,List.drop_append_of_le_length (by rwa [sealedFiles_length])]
          exact mem_append_right _ (mem_singleton_self _)
        exact .inl ⟨⟨rs,rfl⟩,hlt,⟨_,List.mem_append_left _ hmem,rfl⟩,
          ⟨_,mem_append_right _ (mem_singleton_self _),rfl⟩⟩
      · refine .inr ⟨_,_,_,[],Image.collected rs k hle hsync,.inl rfl,?_⟩
        rw [hsync,take_length,File.keep_settled,← sealedFiles_snoc]
        have hid : L.segId+1=L.base+k+((L.sealed++[L.active]).drop k).length := by
          simp only [Layout.segId,List.length_drop,length_append,length_singleton]
          omega
        rw [sealedFiles_drop,under,append_nil,hid]

theorem always_unlinks {G : Listing ℕ → Prop} {old : Listing ℕ} (last : ℕ × File) (hist : List (Listing ℕ))
    (hnames : (old.map Prod.fst).Nodup) (hlast : ∀ x∈old, x.1≠last.1) (hhist : ∀ l∈hist, G l) (hold : ∀ k≤old.length,
    G (old.drop k++[last])) : Always (fun h => ∀ l∈h, G l) ((old.map Prod.fst).map Effect.unlink++[Effect.syncDir])
    (hist++[old++[last]]) ∧ AllFit ((old.map Prod.fst).map Effect.unlink++[Effect.syncDir]) (hist++[old++[last]]) ∧
    ((old.map Prod.fst).map Effect.unlink++[Effect.syncDir]).foldl Effect.onHistory (hist++[old++[last]]) =
    [[last]] := by
  induction old generalizing hist with
  | nil =>
    have hG:=hold 0 (le_rfl)
    have hcur : current (hist++[[last]])=[last] := by simp [current]
    refine ⟨⟨?_,?_,?_⟩,⟨trivial,trivial⟩,?_⟩
    · intro l hl
      rcases List.mem_append.mp hl with hl | hl
      · exact hhist l hl
      · exact List.mem_singleton.mp hl ▸ hG
    · intro k p hp
      simp [Effect.part] at hp
    · intro l hl
      simp only [nil_append,Effect.onHistory,hcur,mem_singleton] at hl
      exact hl ▸ hG
    · simp [Effect.onHistory,hcur]
  | cons x old ih =>
    simp only [map_cons,List.nodup_cons,List.mem_map,not_exists,not_and] at hnames
    have hcur : current (hist++[x::old++[last]])=x::old++[last] := by simp [current]
    have hx : ∀ y∈old++[last], y.1≠x.1 := by
      intro y hy
      rcases List.mem_append.mp hy with hy | hy
      · exact fun heq => hnames.1 y hy heq
      · rw [List.mem_singleton.mp hy]
        exact (hlast x (List.mem_cons_self ..)).symm
    have hnext : Effect.onHistory (hist++[x::old++[last]]) (.unlink x.1) =
        (hist++[x::old++[last]])++[old++[last]] := by
      simp only [Effect.onHistory,hcur]
      congr 2
      rw [List.cons_append,List.filter_cons_of_neg (by simp)]
      exact List.filter_eq_self.mpr fun y hy => by simpa using hx y hy
    have hhist' : ∀ l∈hist++[x::old++[last]], G l := by
      intro l hl
      rcases List.mem_append.mp hl with hl | hl
      · exact hhist l hl
      · exact List.mem_singleton.mp hl ▸ hold 0 (Nat.zero_le _)
    obtain ⟨halways,hfit,hfold⟩:=ih (hist++[x::old++[last]]) hnames.2
      (fun y hy => hlast y (List.mem_cons_of_mem _ hy)) hhist'
      (fun k hk => hold (k+1) (Nat.succ_le_succ hk))
    refine ⟨⟨hhist',?_,?_⟩,⟨?_,?_⟩,?_⟩
    · intro k p hp
      simp [Effect.part] at hp
    · rw [hnext]
      exact halways
    · exact ⟨x,by rw [hcur]; exact List.mem_cons_self ..,rfl⟩
    · rw [hnext]
      exact hfit
    · change ((old.map Prod.fst).map Effect.unlink++[Effect.syncDir]).foldl Effect.onHistory
        (Effect.onHistory (hist++[x::old++[last]]) (.unlink x.1))=_
      rw [hnext,hfold]

theorem always_writes {G : Listing ℕ → Prop} {old : Listing ℕ} {n : ℕ} (hn : ∀ x∈old, x.1≠n) (hold : G old)
    (rs : List α) (b : Bytes) (hwrite : ∀ k, b.length≤k → G (old++[(n,⟨[],(b++data body check rs).take k⟩)])) :
    Always (fun h => ∀ l∈h, G l) (rs.map fun r => Effect.write n (frame check (body r))) [old,old++[(n,⟨[],b⟩)]] ∧
    AllFit (rs.map fun r => Effect.write n (frame check (body r))) [old,old++[(n,⟨[],b⟩)]] ∧
    (rs.map fun r => Effect.write n (frame check (body r))).foldl Effect.onHistory
    [old,old++[(n,⟨[],b⟩)]]=[old,old++[(n,⟨[],b++data body check rs⟩)]] := by
  have htouch : ∀ w : Bytes, Effect.onHistory [old,old++[(n,⟨[],b⟩)]] (.write n w) =
      [old,old++[(n,⟨[],b++w⟩)]] := by
    intro w
    simp only [Effect.onHistory,map_cons,map_nil,touch_snoc hn,touch_other hn]
  have hhere : ∀ l∈[old,old++[(n,⟨[],b⟩)]], G l := by
    intro l hl
    rcases List.mem_pair.mp hl with rfl | rfl
    · exact hold
    · have hb:=hwrite b.length (le_rfl)
      rwa [take_left' rfl] at hb
  induction rs generalizing b with
  | nil => exact ⟨hhere,trivial,by simp⟩
  | cons r rs ih =>
    rw [data_cons] at hwrite
    have hwrite' : ∀ k, (b++frame check (body r)).length≤k →
        G (old++[(n,⟨[],(b++frame check (body r)++data body check rs).take k⟩)]) := by
      intro k hk
      rw [List.append_assoc]
      refine hwrite k ?_
      rw [length_append] at hk
      omega
    have htouch' : ∀ w : Bytes, Effect.onHistory [old,old++[(n,⟨[],b++frame check (body r)⟩)]]
        (.write n w)=[old,old++[(n,⟨[],b++frame check (body r)++w⟩)]] := by
      intro w
      simp only [Effect.onHistory,map_cons,map_nil,touch_snoc hn,touch_other hn]
    have hpart : ∀ k, ∀ l∈[old,old++[(n,⟨[],b++(frame check (body r)).take k⟩)]], G l := by
      intro k l hl
      rcases List.mem_pair.mp hl with rfl | rfl
      · exact hold
      · rcases Nat.le_total (frame check (body r)).length k with hk | hk
        · have hb:=hwrite (b.length+(frame check (body r)).length) (by omega)
          rw [List.take_length_add_append,take_left' rfl] at hb
          rwa [List.take_of_length_le hk]
        · have hb:=hwrite (b.length+k) (by omega)
          rwa [List.take_length_add_append,List.take_append_of_le_length hk] at hb
    have hfull:=hpart (frame check (body r)).length
    rw [take_length] at hfull
    obtain ⟨halways,hfit,hfold⟩:=ih (b++frame check (body r)) hwrite' htouch' hfull
    refine ⟨⟨hhere,?_,?_⟩,⟨?_,?_⟩,?_⟩
    · intro k p hp
      cases hp
      rw [htouch]
      exact hpart k
    · rw [htouch]
      exact halways
    · exact ⟨(n,⟨[],b⟩),by simp [current],rfl⟩
    · rw [htouch]
      exact hfit
    · rw [map_cons,foldl_cons,htouch,hfold,data_cons,List.append_assoc]

theorem listing_name_le {x : ℕ × File} (h : x∈L.listing body check) : x.1≤L.segId :=
  under_name_le h

theorem segId_mem : ∃ x∈L.listing body check, x.1=L.segId :=
  ⟨_,mem_append_right _ (mem_singleton_self _),rfl⟩

section
variable (valid : ∀ a, Valid check max (body a))
include valid

section
variable (hs : L.synced≤L.active.length)
include hs

theorem write_left (r : α) (rotate : Bool) : Always (fun h => ∀ l∈h, ∀ cut,
    Left body check max L (.write r rotate) (Listing.cut cut l)) ((Change.write r rotate).program body check L)
    [L.listing body check] ∧ AllFit ((Change.write r rotate).program body check L) [L.listing body check] ∧
    ((Change.write r rotate).program body check L).foldl Effect.onHistory [L.listing body check] =
    [((Change.write r rotate).after L).listing body check] := by
  have hpart : ∀ k, ∀ l∈Effect.onHistory [L.listing body check] (.write L.segId
      ((frame check (body r)).take k)), ∀ cut, Left body check max L (.write r rotate)
      (Listing.cut cut l) := by
    intro k l hl cut
    simp only [Effect.onHistory,map_cons,map_nil,mem_singleton] at hl
    rw [hl,Layout.listing,Layout.segId,touch_under]
    have hleft:=left_written valid r rotate (le_rfl) (hs.trans (Nat.le_succ _))
      (n := (data body check L.active).length+k)
      (by
        rw [List.take_append_of_le_length hs]
        exact (data_take_le ..).trans (Nat.le_add_right ..)) cut
    rw [← take_write,List.take_append_of_le_length hs] at hleft
    exact hleft
  have hfull:=hpart (frame check (body r)).length
  rw [take_length] at hfull
  have hhere : ∀ l∈[L.listing body check], ∀ cut, Left body check max L (.write r rotate)
      (Listing.cut cut l) := by
    intro l hl cut
    rw [List.mem_singleton.mp hl]
    exact left_kept valid (le_rfl) hs cut
  have hwritten : Effect.onHistory [L.listing body check] (.write L.segId (frame check (body r))) =
      [under body check L.base L.sealed ⟨data body check (L.active.take L.synced),
        data body check (L.active++[r])⟩] := by
    simp only [Effect.onHistory,map_cons,map_nil]
    rw [Layout.listing,Layout.segId,touch_under,data_append,data_singleton]
  cases rotate with
  | false =>
    refine ⟨⟨hhere,?_,hfull⟩,⟨?_,trivial⟩,?_⟩
    · intro k p hp
      cases hp
      exact hpart k
    · exact segId_mem
    · change Effect.onHistory _ (.write L.segId _)=_
      rw [hwritten,Layout.listing]
      dsimp only [Change.after]
      rw [List.take_append_of_le_length hs]
  | true =>
    have hsynced : Effect.onHistory [under body check L.base L.sealed
        ⟨data body check (L.active.take L.synced),data body check (L.active++[r])⟩] (.sync L.segId) =
        [sealedFiles body check L.base (L.sealed++[L.active++[r]])] := by
      simp only [Effect.onHistory,map_cons,map_nil]
      rw [Layout.segId,touch_under,sealedFiles_snoc]
      rfl
    have hcreated : Effect.onHistory [sealedFiles body check L.base (L.sealed++[L.active++[r]])]
        (.create (L.segId+1))=[sealedFiles body check L.base (L.sealed++[L.active++[r]]),
          under body check L.base (L.sealed++[L.active++[r]]) ⟨[],[]⟩] := by
      simp only [Effect.onHistory,current,List.getLast?_singleton,Option.getD_some,under,
        length_append,length_singleton]
      rfl
    have hsealed : ∀ cut, Left body check max L (.write r true) (Listing.cut cut
        (sealedFiles body check L.base (L.sealed++[L.active++[r]]))) := by
      intro cut
      have hleft:=left_written valid r true (hs.trans (Nat.le_succ _)) (le_rfl)
        (n := (data body check (L.active++[r])).length) (data_take_le ..) cut
      rw [List.take_of_length_le (by simp),take_length] at hleft
      rw [sealedFiles_snoc]
      exact hleft
    have hempty : ∀ cut, Left body check max L (.write r true) (Listing.cut cut
        (under body check L.base (L.sealed++[L.active++[r]]) ⟨[],[]⟩)) := by
      intro cut
      rw [cut_under]
      have hkeep : ∀ n, File.keep ⟨[],[]⟩ n=[] := File.keep_settled []
      constructor
      · rw [bytes_under,hkeep,size_log,size_append,size_singleton,data_append,data_singleton,Change.bytes]
        simp [settled,Nat.add_assoc]
      · refine .inr ⟨_,_,_,[],Image.rotated r,.inl rfl,?_⟩
        rw [hkeep]
        rfl
    refine ⟨⟨hhere,?_,?_,?_,?_,?_,?_,?_,?_⟩,⟨?_,?_,?_,trivial,trivial⟩,?_⟩
    · intro k p hp
      cases hp
      exact hpart k
    · exact hfull
    · intro k p hp
      simp [Effect.part] at hp
    · rw [hwritten,hsynced]
      intro l hl
      rw [List.mem_singleton.mp hl]
      exact hsealed
    · intro k p hp
      simp [Effect.part] at hp
    · rw [hwritten,hsynced,hcreated]
      intro l hl
      rcases List.mem_pair.mp hl with rfl | rfl
      · exact hsealed
      · exact hempty
    · intro k p hp
      simp [Effect.part] at hp
    · rw [hwritten,hsynced,hcreated]
      intro l hl
      rw [List.mem_singleton.mp hl]
      exact hempty
    · exact segId_mem
    · rw [hwritten]
      exact ⟨_,mem_append_right _ (mem_singleton_self _),rfl⟩
    · rw [hwritten,hsynced]
      intro l hl x hx
      rw [List.mem_singleton.mp hl] at hx
      have hlt:=sealedFiles_name_lt hx
      rw [length_append,length_singleton] at hlt
      rw [Layout.segId]
      omega
    · change Effect.onHistory (Effect.onHistory (Effect.onHistory (Effect.onHistory _
        (.write L.segId _)) (.sync L.segId)) (.create (L.segId+1))) .syncDir=_
      rw [hwritten,hsynced,hcreated]
      rfl

theorem sync_left : Always (fun h => ∀ l∈h, ∀ cut, Left body check max L .sync (Listing.cut cut l))
    (Change.sync.program body check L) [L.listing body check] ∧ AllFit (Change.sync.program body check L)
    [L.listing body check] ∧ (Change.sync.program body check L).foldl Effect.onHistory [L.listing body check] =
    [(Change.sync.after L).listing body check] := by
  have hsynced : Effect.onHistory [L.listing body check] (.sync L.segId) =
      [(Change.sync.after L).listing body check] := by
    simp only [Effect.onHistory,map_cons,map_nil]
    rw [Layout.listing,Layout.segId,touch_under,Layout.listing]
    simp only [Change.after,take_length]
  have hG : ∀ m, L.synced ≤ m → m≤L.active.length → ∀ l∈[Layout.listing body check
      {L with synced:=m}], ∀ cut, Left body check max L .sync (Listing.cut cut l) := by
    intro m hm hm' l hl cut
    rw [List.mem_singleton.mp hl]
    exact left_kept valid hm hm' cut
  refine ⟨⟨hG _ (le_rfl) hs,?_,?_⟩,⟨segId_mem,trivial⟩,hsynced⟩
  · intro k p hp
    simp [Effect.part] at hp
  · rw [hsynced]
    exact hG _ hs (le_rfl)

theorem checkpoint_left (rs : List α) : Always (fun h => ∀ l∈h, ∀ cut,
    Left body check max L (.checkpoint rs) (Listing.cut cut l)) ((Change.checkpoint rs).program body check L)
    [L.listing body check] ∧ AllFit ((Change.checkpoint rs).program body check L) [L.listing body check] ∧
    ((Change.checkpoint rs).program body check L).foldl Effect.onHistory [L.listing body check] =
    [((Change.checkpoint rs).after L).listing body check] := by
  have hnew : ∀ x∈L.listing body check, x.1≠L.segId+1 := by
    intro x hx
    exact (Nat.lt_succ_of_le (listing_name_le hx)).ne
  have hhere : ∀ cut, Left body check max L (.checkpoint rs) (Listing.cut cut (L.listing body check)) :=
    fun cut => left_kept valid (le_rfl) hs cut
  have hcreated : Effect.onHistory [L.listing body check] (.create (L.segId+1)) =
      [L.listing body check,L.listing body check++[(L.segId+1,⟨[],[]⟩)]] := rfl
  obtain ⟨hwrites,hwritesFit,hwritesFold⟩:=always_writes
    (G := fun l => ∀ cut, Left body check max L (.checkpoint rs) (Listing.cut cut l)) hnew hhere rs []
    (fun k _ cut => by
      have hleft:=left_begun valid hs rs (m := 0) (n := k) (Nat.zero_le _) (Nat.zero_le _) cut
      simpa using hleft)
  rw [nil_append] at hwritesFold
  have hsynced : Effect.onHistory [L.listing body check,L.listing body check++
      [(L.segId+1,⟨[],data body check rs⟩)]] (.sync (L.segId+1)) =
      [L.listing body check,L.listing body check++[(L.segId+1,settled (data body check rs))]] := by
    simp only [Effect.onHistory,map_cons,map_nil,touch_snoc hnew,touch_other hnew]
    rfl
  have hdir : Effect.onHistory [L.listing body check,L.listing body check++
      [(L.segId+1,settled (data body check rs))]] .syncDir =
      []++[L.listing body check++[(L.segId+1,settled (data body check rs))]] := rfl
  have hlength : (L.listing body check).length=L.sealed.length+1 := by
    rw [Layout.listing,under,length_append,sealedFiles_length,length_singleton]
  obtain ⟨hunlinks,hunlinksFit,hunlinksFold⟩:=always_unlinks
    (L.segId+1,settled (data body check rs)) []
    (G := fun l => ∀ cut, Left body check max L (.checkpoint rs) (Listing.cut cut l))
    (by rw [Layout.listing,under_names]; exact List.nodup_range') hnew (by simp)
    (fun k hk cut => left_collected hs rs (hlength ▸ hk) cut)
  rw [Layout.listing,under_names,← Layout.listing] at hunlinks hunlinksFit hunlinksFold
  have hboth : ∀ l∈[L.listing body check,L.listing body check++[(L.segId+1,settled (data body check rs))]], ∀ cut,
      Left body check max L (.checkpoint rs) (Listing.cut cut l) := by
    intro l hl cut
    rcases List.mem_pair.mp hl with rfl | rfl
    · exact hhere cut
    · exact left_collected hs rs (k := 0) (Nat.zero_le _) cut
  refine ⟨⟨?_,?_,always_append (hcreated ▸ hwrites) ?_⟩,⟨?_,allFit_append (hcreated ▸ hwritesFit) ?_⟩,?_⟩
  · intro l hl cut
    rw [List.mem_singleton.mp hl]
    exact hhere cut
  · intro k p hp
    simp [Effect.part] at hp
  · rw [hcreated,hwritesFold]
    refine ⟨?_,?_,?_,?_,?_⟩
    · intro l hl cut
      rcases List.mem_pair.mp hl with rfl | rfl
      · exact hhere cut
      · have hleft:=left_begun valid hs rs (m := 0) (n := (data body check rs).length)
          (Nat.zero_le _) (Nat.zero_le _) cut
        rwa [List.take_zero,data_nil,take_length] at hleft
    · intro k p hp
      simp [Effect.part] at hp
    · rw [hsynced]
      exact hboth
    · intro k p hp
      simp [Effect.part] at hp
    · rw [hsynced,hdir]
      exact hunlinks
  · intro l hl x hx
    rw [List.mem_singleton.mp hl] at hx
    exact hnew x hx
  · rw [hcreated,hwritesFold]
    refine ⟨⟨_,mem_append_right _ (mem_singleton_self _),rfl⟩,trivial,?_⟩
    rw [hsynced,hdir]
    exact hunlinksFit
  · simp only [Change.program,foldl_cons,List.foldl_append]
    rw [hcreated,hwritesFold,hsynced,hdir]
    rw [List.foldl_append] at hunlinksFold
    refine hunlinksFold.trans ?_
    simp [Change.after,Layout.listing,under,sealedFiles,settled]

theorem program_left (c : Change α) : Always (fun h => ∀ l∈h, ∀ cut, Left body check max L c (Listing.cut cut l))
    (c.program body check L) [L.listing body check] ∧ AllFit (c.program body check L) [L.listing body check] ∧
    (c.program body check L).foldl Effect.onHistory [L.listing body check]=[(c.after L).listing body check] := by
  cases c with
  | write r rotate => exact write_left valid hs r rotate
  | checkpoint rs => exact checkpoint_left valid hs rs
  | sync => exact sync_left valid hs

end

end

section disk
variable {d d' : Disk ℕ} {t : Bytes}

theorem Rests.listing_eq (h : Rests body check d L []) : d.history=[L.listing body check] := by
  have hh:=h.history
  rwa [append_nil,append_nil] at hh

theorem rests_of_settled {base : ℕ} {segs : List (List α)} {active : List α} (hd : d.Named)
    (h : d.history=[under body check base segs (settled (data body check active++t))]) :
    Rests body check d ⟨base,segs,active,active.length⟩ t := by
  constructor
  · exact hd
  · rw [h,take_length]
    rfl
  · exact le_rfl
  · exact .inr rfl

theorem program_completes (valid : ∀ a, Valid check max (body a)) (h : Rests body check d L []) (c : Change α)
    (hrun : Disk.Completed (c.program body check L) d d') : Rests body check d' (c.after L) [] := by
  obtain ⟨-,hfit,hfold⟩:=program_left valid h.synced_le c
  obtain ⟨hd',heq⟩:=Disk.completed_history h.named (h.listing_eq ▸ hfit) hrun
  rw [h.listing_eq,hfold] at heq
  constructor
  · exact hd'
  · rw [heq,append_nil,append_nil]
    rfl
  · cases c with
    | write r rotate =>
      have hs:=h.synced_le
      cases rotate with
      | false =>
        rw [Change.after,length_append]
        exact hs.trans (Nat.le_add_right ..)
      | true => exact Nat.zero_le _
    | checkpoint | sync => exact le_rfl
  · exact .inl rfl

theorem program_crash (valid : ∀ a, Valid check max (body a)) (h : Rests body check d L [])
    (c : Change α) (hrun : Disk.Stopped (c.program body check L) d d') (kept : ℕ) (cut : ℕ → ℕ) :
    (∃ base segs active t, Image L c base segs active ∧ Torn check max t ∧
      Rests body check (d'.crash kept cut) ⟨base,segs,active,active.length⟩ t ∧
      size body check (segs++[active])+t.length ≤ size body check L.log+c.bytes body check) ∨
    Unclean L c (current (d'.crash kept cut).history) := by
  obtain ⟨halways,hfit,-⟩:=program_left valid h.synced_le c
  obtain ⟨hd',hG⟩:=Disk.stopped_history (Φ := fun hist => ∀ l∈hist, ∀ cut,
    Left body check max L c (Listing.cut cut l)) h.named (h.listing_eq ▸ hfit)
    (h.listing_eq ▸ halways) hrun
  obtain ⟨hd2,l,hl,cut',heq⟩:=Disk.crash_history hd' kept cut
  obtain ⟨hbytes,hleft⟩:=hG l hl cut'
  rcases hleft with hunclean | ⟨base,segs,active,t,himage,ht,hlist⟩
  · refine .inr ?_
    rw [heq]
    exact hunclean
  · refine .inl ⟨base,segs,active,t,himage,ht,rests_of_settled hd2 (heq.trans (by rw [hlist])),?_⟩
    rw [hlist,bytes_under] at hbytes
    simpa [settled,Nat.add_assoc] using hbytes

variable (body check) in
def repair (L : Layout α) (t : Bytes) : List (Effect ℕ) :=
  (if t=[] then [] else [.truncate L.segId (data body check L.active).length,.sync L.segId])++[.syncDir]

theorem repair_left (ht : Torn check max t) (h : Rests body check d L t) :
    Always (fun hist => ∃ s b, hist=[under body check L.base L.sealed ⟨s,b⟩] ∧
      (t=[] ∧ s=data body check (L.active.take L.synced) ∧ b=data body check L.active ∨
        L.synced=L.active.length ∧ ∃ k k', s=data body check L.active++t.take k ∧
          b=data body check L.active++t.take k')) (repair body check L t) d.history ∧
    AllFit (repair body check L t) d.history ∧
    (repair body check L t).foldl Effect.onHistory d.history=[L.listing body check] := by
  rw [h.history]
  by_cases hnil : t=[]
  · subst hnil
    simp only [repair,if_true,nil_append,append_nil,Layout.listing]
    refine ⟨⟨⟨_,_,rfl,.inl ⟨trivial,rfl,rfl⟩⟩,?_,⟨_,_,rfl,.inl ⟨trivial,rfl,rfl⟩⟩⟩,⟨trivial,trivial⟩,rfl⟩
    intro k p hp
    simp [Effect.part] at hp
  · have hsync:=h.settled.resolve_left hnil
    have htrunc : Effect.onHistory [under body check L.base L.sealed
        ⟨data body check (L.active.take L.synced)++t,data body check L.active++t⟩]
        (.truncate L.segId (data body check L.active).length) =
        [under body check L.base L.sealed ⟨data body check L.active++t,data body check L.active⟩] := by
      simp only [Effect.onHistory,map_cons,map_nil]
      rw [Layout.segId,touch_under,take_left' rfl,hsync,take_length]
    have hsynced : Effect.onHistory [under body check L.base L.sealed
        ⟨data body check L.active++t,data body check L.active⟩] (.sync L.segId) =
        [L.listing body check] := by
      simp only [Effect.onHistory,map_cons,map_nil]
      rw [Layout.segId,touch_under,Layout.listing,hsync,take_length]
    have hmem : ∀ f, ∃ x∈current [under body check L.base L.sealed f], x.1=L.segId :=
      fun f => ⟨_,mem_append_right _ (mem_singleton_self _),rfl⟩
    have hcut : ∃ s b, [L.listing body check]=[under body check L.base L.sealed ⟨s,b⟩] ∧
        (t=[] ∧ s=data body check (L.active.take L.synced) ∧ b=data body check L.active ∨
        L.synced=L.active.length ∧ ∃ k k', s=data body check L.active++t.take k ∧
          b=data body check L.active++t.take k') :=
      ⟨_,_,rfl,.inr ⟨hsync,0,0,by rw [hsync]; simp,by simp⟩⟩
    simp only [repair,if_neg hnil,List.cons_append,nil_append]
    refine ⟨⟨⟨_,_,rfl,.inr ⟨hsync,t.length,t.length,?_,?_⟩⟩,?_,?_,?_,?_,?_,?_⟩,?_,?_⟩
    · rw [take_length,hsync,take_length]
    · rw [take_length]
    · intro k p hp
      simp [Effect.part] at hp
    · rw [htrunc]
      exact ⟨_,_,rfl,.inr ⟨hsync,t.length,0,by rw [take_length],by simp⟩⟩
    · intro k p hp
      simp [Effect.part] at hp
    · rw [htrunc,hsynced]
      exact hcut
    · intro k p hp
      simp [Effect.part] at hp
    · rw [htrunc,hsynced]
      exact hcut
    · refine ⟨hmem _,?_,trivial,trivial⟩
      rw [htrunc]
      exact hmem _
    · simp only [foldl_cons,List.foldl_nil]
      rw [htrunc,hsynced]
      rfl

theorem repair_completes (ht : Torn check max t) (h : Rests body check d L t)
    (hrun : Disk.Completed (repair body check L t) d d') : Rests body check d' L [] := by
  obtain ⟨-,hfit,hfold⟩:=repair_left ht h
  obtain ⟨hd',heq⟩:=Disk.completed_history h.named hfit hrun
  rw [hfold] at heq
  exact ⟨hd',by rw [heq,append_nil,append_nil]; rfl,h.synced_le,.inl rfl⟩

theorem repair_crash (valid : ∀ a, Valid check max (body a)) (ht : Torn check max t)
    (h : Rests body check d L t) (hrun : Disk.Stopped (repair body check L t) d d') (kept : ℕ)
    (cut : ℕ → ℕ) : ∃ j t', L.synced≤j ∧ j≤L.active.length ∧ Torn check max t' ∧
      Rests body check (d'.crash kept cut) ⟨L.base,L.sealed,L.active.take j,(L.active.take j).length⟩ t' ∧
      size body check (L.sealed++[L.active.take j])+t'.length ≤ size body check L.log+t.length := by
  obtain ⟨halways,hfit,-⟩:=repair_left ht h
  obtain ⟨hd',s,b,hhist,hcase⟩:=Disk.stopped_history h.named hfit halways hrun
  obtain ⟨hd2,l,hl,cut',heq⟩:=Disk.crash_history hd' kept cut
  rw [hhist,mem_singleton] at hl
  rw [hl,cut_under] at heq
  rcases hcase with ⟨rfl,rfl,rfl⟩ | ⟨hsync,k,k',rfl,rfl⟩
  · obtain ⟨j,t',hj,hj',ht',hkeep⟩:=keep_grown valid L.active h.synced_le (data_take_le ..)
      (cut' (L.base+L.sealed.length))
    rw [take_length] at hkeep
    refine ⟨j,t',hj,hj',ht',rests_of_settled hd2 (heq.trans (by rw [hkeep])),?_⟩
    have hlen:=keep_length_le ⟨data body check (L.active.take L.synced),data body check L.active⟩
      (cut' (L.base+L.sealed.length))
    have hmono:=@data_take_le _ body check L.active L.synced
    rw [hkeep,length_append] at hlen
    rw [size_append,size_singleton,size_log]
    dsimp only at hlen
    omega
  · obtain ⟨n,hn⟩:=keep_behind (data body check L.active) t k k' (cut' (L.base+L.sealed.length))
    refine ⟨L.active.length,t.take n,h.synced_le,le_rfl,torn_take ht n,?_,?_⟩
    · rw [take_length]
      exact rests_of_settled hd2 (heq.trans (by rw [hn]))
    · rw [take_length,Layout.log]
      have hlen : (t.take n).length≤t.length := List.length_take_le' ..
      omega

def Fresh (d : Disk ℕ) : Prop := d.Named ∧ d.history=[[]]

def first : Layout α := ⟨1,[],[],0⟩

def start : List (Effect ℕ) := [.create 1,.syncDir]

theorem start_left (h : Fresh d) : Always (fun hist => ∀ l∈hist, l=[] ∨ l=[(1,⟨[],[]⟩)]) start d.history ∧
    AllFit start d.history ∧ start.foldl Effect.onHistory d.history=[[(1,⟨[],[]⟩)]] := by
  rw [h.2]
  have hcreated : Effect.onHistory [([] : Listing ℕ)] (.create 1)=[[],[(1,⟨[],[]⟩)]] := rfl
  refine ⟨⟨?_,?_,?_,?_,?_⟩,⟨?_,trivial,trivial⟩,rfl⟩
  · intro l hl
    exact .inl (List.mem_singleton.mp hl)
  · intro k p hp
    simp [Effect.part] at hp
  · rw [hcreated]
    intro l hl
    exact List.mem_pair.mp hl
  · intro k p hp
    simp [Effect.part] at hp
  · rw [hcreated]
    intro l hl
    exact .inr (List.mem_singleton.mp hl)
  · intro l hl x hx
    rw [List.mem_singleton.mp hl] at hx
    contradiction

theorem start_completes (h : Fresh d) (hrun : Disk.Completed start d d') : Rests body check d' first [] := by
  obtain ⟨-,hfit,hfold⟩:=start_left h
  obtain ⟨hd',heq⟩:=Disk.completed_history h.1 hfit hrun
  exact ⟨hd',heq.trans hfold,le_rfl,.inl rfl⟩

theorem start_crash (h : Fresh d) (hrun : Disk.Stopped start d d') (kept : ℕ) (cut : ℕ → ℕ) :
    Fresh (d'.crash kept cut) ∨ Rests body check (d'.crash kept cut) first [] := by
  obtain ⟨halways,hfit,-⟩:=start_left h
  obtain ⟨hd',hG⟩:=Disk.stopped_history h.1 hfit halways hrun
  obtain ⟨hd2,l,hl,cut',heq⟩:=Disk.crash_history hd' kept cut
  rcases hG l hl with rfl | rfl
  · exact .inl ⟨hd2,heq⟩
  · refine .inr ⟨hd2,?_,le_rfl,.inl rfl⟩
    rw [heq]
    simp [Listing.cut,File.keep_settled,first,under,sealedFiles]

end disk
end SegmentLog
