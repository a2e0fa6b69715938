import Pinx.Analysis.DirEntries
import Pinx.Analysis.Ext4Runs

/-!
# Creating an entry

`create` makes the inode, adds the entry and, for a directory, counts the link to its
parent.  Seen through `lookup` and `read_dir` the directories of the volume are finite maps
from names to inodes, and a call that returns `Ok` extends one of them by one binding.
-/

namespace Pinx.Analysis

open Pinx.Foundation Pinx.Model

variable {v : Ext4} {L : Layout} {s s' : FsState} {O O' : ℕ → Option Use} {dir ino k : ℕ}
  {name : List UInt8} {isDir : Bool}

/-! ## The new directory -/

/-- What a new directory lists. -/
def dots (ino dir : ℕ) : List DirEnt := [⟨ino, 2, [0x2E]⟩, ⟨dir, 2, [0x2E, 0x2E]⟩]

theorem chain_dots (hv : GeometryOk v) (hino : ino ≠ 0) (hlt : ino < 2 ^ 32) (hdir : dir ≠ 0)
    (hdlt : dir < 2 ^ 32) : EntryChain (dotsBlock v ino dir) v.dirLimit 0
      [⟨ino, 12, 2, [0x2E]⟩, ⟨dir, v.dirLimit - 12, 2, [0x2E, 0x2E]⟩] := by
  obtain ⟨-, hmod, hlow, hhigh⟩ := dirLimit_le hv
  unfold maxBlockSize at hhigh
  have hfirst : direntAt (putEntry (fun _ => 0) 0 12 ino 2 [0x2E]) 0 = ⟨ino, 12, 2, [0x2E]⟩ :=
    direntAt_putEntry ⟨hino, hlt, by omega, by simp, by omega⟩
  refine ⟨?_, show 12 % 4 = 0 by omega, show roundDirSize 1 ≤ 12 by decide, ?_, ?_, ?_, ?_⟩
  · unfold dotsBlock
    rw [direntAt_congr (by rw [hfirst]; exact show roundDirSize 1 ≤ 12 by decide) fun k _ hk => putEntry_outside ?_, hfirst]
    rw [hfirst] at hk
    exact Or.inl (by simpa using hk)
  · exact direntAt_putEntry ⟨hdir, hdlt, by omega, by simp, by omega⟩
  · show (v.dirLimit - 12) % 4 = 0
    omega
  · show roundDirSize 2 ≤ v.dirLimit - 12
    rw [show roundDirSize 2 = 12 by decide]
    omega
  · show 0 + 12 + (v.dirLimit - 12) = v.dirLimit
    omega

/-- SOURCE: ext4.rs:1341-1353 -/
theorem HasDots.linear (hv : GeometryOk v) (hlt : ino < 2 ^ 32) (hdir : dir ≠ 0)
    (hdlt : dir < 2 ^ 32) (hi : InUse v L s ino) (h : HasDots v L O dir ino s) :
    LinearDir v L s ino ∧ dirListing v L s ino = dots ino dir := by
  obtain ⟨p, hp, -, hagree, hmode, hsize, hblock⟩ := h
  obtain ⟨hhead, hrecs, -⟩ := firstRoot_head (newInode ino true).raw hp
  have hino : ino ≠ 0 := Nat.ne_of_gt hi.1.1
  have hhead' : HeadOk (slot v L s ino) iblock 4 0 := hagree.headOk hhead
  obtain ⟨hrecs', -⟩ := node_agree hagree hhead
  rw [hrecs] at hrecs'
  obtain ⟨-, hleaves⟩ := leafTable_flat (v := v) (s := s) hhead'
  have hdepth : rootDepth (slot v L s ino) = 0 := hhead'.depth
  have hcount : dirCount v (inodeOf v L s ino).size = 1 := by
    rw [hsize]
    have hbs := hv.bs_pos
    unfold dirCount
    refine Nat.div_eq_of_lt_le ?_ ?_ <;> omega
  have hlook : treeLook v s (slot v L s ino) 0 = .ok (some p) := by
    unfold treeLook
    rw [if_pos hhead'.magic, hdepth]
    show scanRecs 0 (leafRecs (slot v L s ino) iblock) = _
    rw [hrecs', scanRecs, if_pos ⟨written_one 0 p, le_refl 0⟩,
      if_neg (show ¬2 ^ 32 ≤ 0 + 1 by omega), if_pos (show 0 < 0 + 1 by omega)]
    rfl
  obtain ⟨hblockOk, hlisted⟩ :=
    ((chain_dots hv hino hlt hdir hdlt).tail hv ino).blockOk hv
  rw [← hblock] at hblockOk hlisted
  have hlisting : dirListing v L s ino = dots ino dir := by
    unfold dirListing listedAt
    rw [hcount, List.range_one, List.flatMap_singleton, hlook]
    dsimp only
    rw [hlisted, liveOf_cons hino, liveOf_cons hdir]
    rfl
  refine ⟨⟨hi, ?_, hhead'.magic, ?_, ?_, ?_, ?_, ?_, ?_⟩, hlisting⟩
  · unfold Inode.isDir
    rw [hmode]
    exact show ((0x4000 ||| 0o755) &&& 0xF000 == 0x4000) = true by simp
  · rw [hdepth]
    exact Nat.zero_le 1
  · rw [hcount]
    omega
  · rw [hleaves]
    exact List.nodup_nil
  · rw [hcount]
    intro x hx
    rw [Nat.lt_one_iff.mp hx]
    exact ⟨_, hlook⟩
  · intro x hx q hq
    rw [hcount, Nat.lt_one_iff] at hx
    rw [hx, hlook] at hq
    cases hq
    exact hblockOk
  · rw [hlisting]
    exact show [[0x2E], [0x2E, (0x2E : UInt8)]].Nodup by simp

/-! ## The whole call -/

/-- Every inode that an entry names is marked. -/
def EntriesMarked (v : Ext4) (L : Layout) (s : FsState) : Prop :=
  ∀ d n i, InUse v L s d → (lookup v d n s).1 = .ok (some i) → IsInode v i →
    inodeMarked v L s i = true

/-- The directories of the volume have one binding more: `name` in `dir`, to an inode that
nothing named before.  A new directory names itself and its parent. -/
structure Extends (v : Ext4) (L : Layout) (dir : ℕ) (name : List UInt8) (isDir : Bool) (ino : ℕ)
    (s s' : FsState) : Prop where
  unbound : (lookup v dir name s).1 = .ok none
  fresh : ∀ d n, InUse v L s d → (lookup v d n s).1 ≠ .ok (some ino)
  bound : (lookup v dir name s').1 = .ok (some ino)
  others : ∀ d n, InUse v L s d → ¬(d = dir ∧ n = name) → (lookup v d n s').1 = (lookup v d n s).1
  listed : ∃ before after, OneMore ⟨ino, if isDir then 2 else 1, name⟩ before after ∧
    (∀ cap, (readDir v dir cap s).1 = .ok (before.take cap, before.length)) ∧
    ∀ cap, (readDir v dir cap s').1 = .ok (after.take cap, after.length)
  linear : ∀ d, LinearDir v L s d → LinearDir v L s' d
  dots : isDir = true → LinearDir v L s' ino ∧
    ∀ cap, (readDir v ino cap s').1 = .ok ((dots ino dir).take cap, 2)

section Create

variable (hv : GeometryOk v) (hL : LayoutOk v L) (hgood : Good v L O s)
include hv hL hgood

/-- What `create` does, up to the entry. -/
theorem create_cases (hrun : create v dir name isDir s = (.ok ino, s')) :
    ∃ s₁ O₁ s₂, lookup v dir name s = (.ok none, s) ∧ Made v L False O dir isDir ino s O₁ s₁ ∧
      addDirent v dir name ino (if isDir then 2 else 1) s₁ = (.ok (), s₂) ∧
      (if isDir then linkParent v dir else pure ()) s₂ = (.ok (), s') := by
  have hvol : Vol v L False O s := ⟨hgood, False.elim⟩
  have hmade := createInode_made hv hL False.elim hvol dir name isDir
  unfold create at hrun
  obtain ⟨i, s₁, hmake, hrun⟩ := Prog.bind_eq_ok.mp hrun
  obtain ⟨_, s₂, hadd, hrun⟩ := Prog.bind_eq_ok.mp hrun
  obtain ⟨hnone, O₁, hmade⟩ := hmade.ok hmake
  cases isDir with
  | false =>
    rw [if_neg (by simp)] at hrun
    cases hrun
    exact ⟨s₁, O₁, s', hnone, hmade, hadd, rfl⟩
  | true =>
    rw [if_pos rfl] at hrun
    obtain ⟨_, s₃, hlink, hrun⟩ := Prog.bind_eq_ok.mp hrun
    cases hrun
    exact ⟨s₁, O₁, s₂, hnone, hmade, hadd, hlink⟩

/-- The link to the parent changes no file. -/
theorem linkIf_same (hi : InUse v L s dir)
    (hrun : (if isDir then linkParent v dir else pure ()) s = (.ok (), s')) :
    Good v L O s' ∧ ∀ j, InUse v L s j → SameFile v L O j s s' := by
  have hvol : Vol v L False O s := ⟨hgood, False.elim⟩
  cases isDir with
  | false =>
    rw [if_neg (by simp)] at hrun
    cases hrun
    exact ⟨hgood, fun j hj => sameFile_of_slot hj rfl fun _ _ _ _ => rfl⟩
  | true =>
    rw [if_pos rfl] at hrun
    obtain ⟨raw, hagree, rfl, hvol', huse⟩ := (linkParent_ends hv hL False.elim hvol hi).ok hrun
    exact ⟨hvol'.toGood, fun j hj => sameFile_putSlot hv hL hgood hi.1
      { inodeOf v L s dir with raw := raw } rfl rfl hagree huse hj⟩

end Create

section Made

variable {s₁ : FsState} {O₁ : ℕ → Option Use} (hgood : Good v L O s)
  (hd : LinearDir v L s dir) (h : Made v L False O dir isDir ino s O₁ s₁)
include h

theorem Made.same {j : ℕ} (hj : InUse v L s j) : SameFile v L O j s s₁ :=
  sameFile_of_slot hj (h.slots j hj) fun p u hp _ => h.blocks p u hp

/-- The new inode fits an entry. -/
theorem Made.fits (hv : GeometryOk v) (hname : name.length ≤ 255) :
    EntryFits 0 ino (if isDir then 2 else 1) name :=
  ⟨Nat.ne_of_gt h.inUse.1.1, h.inUse.1.2.trans_lt hv.inodes_lt, by split <;> omega, hname, by omega⟩

include hgood hd

theorem Made.crowded_iff : Crowded v L s₁ dir name ↔ Crowded v L s dir name := by
  have hc := hgood.slots dir hd.inUse
  have hsame := h.same hd.inUse
  unfold Crowded
  rw [hsame.size]
  refine forall_congr' fun x => forall_congr' fun p => imp_congr_right fun _ => ?_
  rw [hsame.look hc]
  refine imp_congr_right fun hlook => ?_
  rw [hsame.blocks p _ (hc.maps _ (treeLook_mem hlook)) rfl]

/-- Whether the directory shows the block it gets is settled before the inode is made. -/
theorem Made.outgrows_iff {new : DirEnt} :
    Outgrows v L s₁ dir new 0 ↔ Outgrows v L s dir new (if isDir then 1 else 0) := by
  have htakes : ∀ p, Takes v L s₁ 0 p ↔ Takes v L s (if isDir then 1 else 0) p := by
    intro p
    rw [h.takes, Nat.zero_add]
  unfold Outgrows
  simp only [h.crowded_iff hgood hd, (h.same hd.inUse).shown hgood hd, htakes]

end Made

section Extends

variable (hv : GeometryOk v) (hL : LayoutOk v L) (hown : Ownership v L s)
  (hmarked : EntriesMarked v L s) (hd : LinearDir v L s dir)
  (hrun : create v dir name isDir s = (.ok ino, s'))
include hv hL hown hd hrun

/-- A directory that is full has grown, before its link count is written. -/
theorem create_grown (hfull : Crowded v L s dir name) : ∃ s₁ O₁ p O₂ s₂,
    Made v L False (ownerOf v L s) dir isDir ino s O₁ s₁ ∧ name.length ≤ 255 ∧
      Grown v L O₁ dir p ino (if isDir then 2 else 1) name s₁ O₂ s₂ ∧ Good v L O₂ s' ∧
      SameFile v L O₂ dir s₂ s' := by
  have hgood := hown.good
  obtain ⟨s₁, O₁, s₂, -, hmade, hadd, hlink⟩ := create_cases hv hL hgood hrun
  obtain ⟨hname, p, O₂, hgrown⟩ := addDirent_grown hv hL hmade.sound.toGood
    ((hmade.same hd.inUse).linear (hgood.slots dir hd.inUse) hd) hadd
    ((hmade.crowded_iff hgood hd).mpr hfull)
  obtain ⟨hgood', hsame'⟩ := linkIf_same hv hL hgrown.good hgrown.inUse hlink
  exact ⟨s₁, O₁, p, O₂, s₂, hmade, hname, hgrown, hgood', hsame' dir hgrown.inUse⟩

/-- A directory that is linear again and lists one entry more shows the block it got. -/
theorem Extends.not_outgrows (hext : Extends v L dir name isDir ino s s') :
    ¬Outgrows v L s dir ⟨ino, if isDir then 2 else 1, name⟩ (if isDir then 1 else 0) := by
  have hgood := hown.good
  rintro ⟨hfull, p', htakes, hnot⟩
  obtain ⟨s₁, O₁, p, O₂, s₂, hmade, hname, hgrown, hgood', hsame'⟩ :=
    create_grown hv hL hown hd hrun hfull
  have hd' := hext.linear dir hd
  have hfresh := hext.unbound
  obtain ⟨before, after, hone, hbefore, hafter⟩ := hext.listed
  rw [listing_of_readDir hv hL hgood hd hbefore, listing_of_readDir hv hL hgood' hd' hafter] at hone
  have hsame := hmade.same hd.inUse
  have hc := hgood.slots dir hd.inUse
  have hp : p' = p := by
    refine htakes.unique ?_
    have := (hmade.takes 0 p).mp hgrown.takes
    rwa [Nat.zero_add] at this
  have hc₂ := hgrown.good.slots dir hgrown.inUse
  rw [lookup_linear hv hL hgood hd] at hfresh
  refine hnot ((hsame.shown hgood hd p' _).mp ?_)
  rw [hp, hgrown.shown_iff hv hmade.sound.toGood (hsame.linear hc hd) (hmade.fits hv hname)
    (by rw [hsame.listing hc]; exact Except.ok.inj hfresh)]
  refine ⟨(hsame'.symm hgrown.inUse).linear (hsame'.covers hc₂) hd', ?_⟩
  rw [hsame.listing hc, ← hsame'.listing hc₂]
  exact hone

/-- A directory whose new tree finds nothing has lost the name. -/
theorem create_lost (hfull : Crowded v L s dir name) (hcount : grownCount v L s dir < 2 ^ 32)
    (hnone : ∀ p x, Takes v L s (if isDir then 1 else 0) p → grownLook v L s dir p x = .ok none) :
    (lookup v dir name s').1 = .ok none := by
  have hgood := hown.good
  obtain ⟨s₁, O₁, p, O₂, s₂, hmade, hname, hgrown, hgood', hsame'⟩ :=
    create_grown hv hL hown hd hrun hfull
  have hsame := hmade.same hd.inUse
  have hd₁ := hsame.linear (hgood.slots dir hd.inUse) hd
  obtain ⟨hcount₁, hlook₁⟩ := hsame.grown hgood hd
  have htakes : Takes v L s (if isDir then 1 else 0) p := by
    have := (hmade.takes 0 p).mp hgrown.takes
    rwa [Nat.zero_add] at this
  have hnone₁ : ∀ x, grownLook v L s₁ dir p x = .ok none := fun x => by rw [hlook₁, hnone p x htakes]
  have hfits := hmade.fits hv hname
  rw [← hcount₁] at hcount
  have hempty : dirListing v L s₂ dir = [] := by
    rw [hgrown.listing_eq hv hmade.sound.toGood hd₁ hfits hcount, List.flatMap_eq_nil_iff]
    intro x _
    rw [grownAt, hnone₁]
  have hd₂ := hgrown.linear hv hmade.sound.toGood hd₁ hfits hcount
    (fun x _ => ⟨none, hnone₁ x, fun q hq => nomatch hq⟩) (by rw [hempty]; exact List.nodup_nil)
  rw [hsame'.lookup_eq hv hL hgrown.good hgood'.placed hgrown.inUse,
    lookup_linear hv hL hgrown.good hd₂, hempty]
  rfl

include hmarked

theorem create_extends
    (hok : ¬Outgrows v L s dir ⟨ino, if isDir then 2 else 1, name⟩ (if isDir then 1 else 0)) :
    Extends v L dir name isDir ino s s' := by
  have hgood := hown.good
  obtain ⟨s₁, O₁, s₂, hnone, hmade, hadd, hlink⟩ := create_cases hv hL hgood hrun
  have hgood₁ := hmade.sound.toGood
  have hsame := hmade.same hd.inUse
  have hc := hgood.slots dir hd.inUse
  have hd₁ := hsame.linear hc hd
  have hino : ino ≠ 0 := Nat.ne_of_gt hmade.inUse.1.1
  have hlt : ∀ i, IsInode v i → i < 2 ^ 32 := fun i hi => hi.2.trans_lt hv.inodes_lt
  have hfresh : binding name (dirListing v L s dir) = none := hd.unbound hv hL hgood hnone
  have hlisting₁ := hsame.listing hc
  obtain ⟨O₂, hent⟩ := addDirent_entered hv hL hgood₁ hd₁ (by rw [hlisting₁]; exact hfresh) hadd
    hino (hlt ino hmade.inUse.1) (by split <;> omega)
    fun hlarge => hok ((hmade.outgrows_iff hgood hd).mp hlarge)
  obtain ⟨hgood', hsame'⟩ := linkIf_same hv hL hent.good hent.linear.inUse hlink
  -- the directory itself
  have hdir := hsame' dir hent.linear.inUse
  have hc₂ := hent.good.slots dir hent.linear.inUse
  have hd' := hdir.linear hc₂ hent.linear
  have hlisting : OneMore ⟨ino, if isDir then 2 else 1, name⟩ (dirListing v L s dir)
      (dirListing v L s' dir) := by
    rw [hdir.listing hc₂, ← hlisting₁]
    exact hent.listing
  -- everything else
  have hlater : ∀ j, InUse v L s₁ j → j ≠ dir → SameFile v L O₁ j s₁ s' := fun j hj hne =>
    (hent.others j hj hne).trans (hsame' j (hent.others j hj hne).inUse) hent.ext
  have hother : ∀ j, InUse v L s j → j ≠ dir → SameFile v L (ownerOf v L s) j s s' := fun j hj hne =>
    (hmade.same hj).trans (hlater j (hmade.same hj).inUse hne) hmade.ext
  refine ⟨by rw [hnone], fun d n hdu hbound => ?_, ?_, fun d n hdu hne => ?_,
    ⟨_, _, hlisting, fun cap => ?_, fun cap => ?_⟩, fun d hdl => ?_, fun hisDir => ?_⟩
  · have hmark := hmarked d n ino hdu hbound hmade.inUse.1
    rw [hmade.unmarked] at hmark
    cases hmark
  · rw [lookup_linear hv hL hgood' hd', hlisting.binding_eq hfresh, if_pos rfl]
  · by_cases hdd : d = dir
    · subst hdd
      rw [lookup_linear hv hL hgood' hd', lookup_linear hv hL hgood hd,
        hlisting.binding_eq hfresh, if_neg fun hn => hne ⟨rfl, hn⟩]
    · exact (hother d hdu hdd).lookup_eq hv hL hgood hgood'.placed hdu n
  · rw [readDir_linear hv hL hgood hd]
  · rw [readDir_linear hv hL hgood' hd']
  · by_cases hdd : d = dir
    · rw [hdd]
      exact hd'
    · exact (hother d hdl.inUse hdd).linear (hgood.slots d hdl.inUse) hdl
  · obtain ⟨hlinear, hdots⟩ := (hmade.dots hisDir).linear hv (hlt ino hmade.inUse.1)
      (Nat.ne_of_gt hd.inUse.1.1) (hlt dir hd.inUse.1) hmade.inUse
    have hne : ino ≠ dir := by
      rintro rfl
      have hmark := hgood.inodes ino hd.inUse
      rw [hmade.unmarked] at hmark
      cases hmark
    have hfile := hlater ino hmade.inUse hne
    have hc₁ := hgood₁.slots ino hmade.inUse
    refine ⟨hfile.linear hc₁ hlinear, fun cap => ?_⟩
    rw [readDir_linear hv hL hgood' (hfile.linear hc₁ hlinear), hfile.listing hc₁, hdots]
    rfl

end Extends

end Pinx.Analysis
