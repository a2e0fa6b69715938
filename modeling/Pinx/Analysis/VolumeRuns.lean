import Pinx.Analysis.DirCreate
import Pinx.Analysis.InodeFrame

/-!
# The volume as a tree of files

What the callers of the file system are meant to see is a set of directories, each a map
from names to inodes, and a set of files, each a size and its bytes.  `AbsVolume` is that
view, with one transition for each call that succeeded; it knows nothing of blocks, extents
or bitmaps.  Along every run of `create` and `write_file`, over any mix of directories and
files, `lookup` and `read_file` answer as the view does.

Two guards are the code's own limits.  A directory that does not show the block it gets loses the
new name (`Outgrows`), and blocks that are not behind all others may be put under the wrong leaf
of the extent tree (`Ready`).
-/

namespace Pinx.Analysis

open Pinx.Foundation Pinx.Model

/-! ## The view -/

/-- A file as its readers see it; the bytes past the size show once the file grows over
them. -/
structure AbsFile where
  size : ℕ
  bytes : ℕ → UInt8

/-- SOURCE: ext4.rs:1250-1279 -/
def AbsFile.read (f : AbsFile) (offset len : ℕ) : List UInt8 :=
  (List.range' offset (min (f.size - offset) len)).map f.bytes

def AbsFile.write (f : AbsFile) (offset : ℕ) (buf : List UInt8) : AbsFile where
  size := max f.size (offset + buf.length)
  bytes x := if offset ≤ x ∧ x < offset + buf.length then buf.getD (x - offset) 0 else f.bytes x

structure AbsVolume where
  dirs : ℕ → Option (List UInt8 → Option ℕ)
  files : ℕ → Option AbsFile

/-- A call that returned `Ok`; `create` has returned an inode. -/
inductive Done
  | created (dir : ℕ) (name : List UInt8) (isDir : Bool) (ino : ℕ)
  | wrote (i offset : ℕ) (buf : List UInt8)

/-- The view with a new file or directory, bound to a name. -/
def AbsVolume.bind (A : AbsVolume) (dir : ℕ) (m : List UInt8 → Option ℕ) (name : List UInt8)
    (isDir : Bool) (ino : ℕ) : AbsVolume where
  dirs := Function.update
    (if isDir then Function.update A.dirs ino (some fun n => binding n (dots ino dir)) else A.dirs)
    dir (some (Function.update m name (some ino)))
  files := if isDir then A.files else Function.update A.files ino (some ⟨0, fun _ => 0⟩)

/-- A name is bound once, and the inode it is bound to is new to the whole volume. -/
def AbsVolume.step (A : AbsVolume) : Done → Option AbsVolume
  | .created dir name isDir ino => (A.dirs dir).bind fun m =>
    if m name = none ∧ A.dirs ino = none ∧ A.files ino = none then
      some (A.bind dir m name isDir ino)
    else none
  | .wrote i offset buf => (A.files i).map fun f =>
    { A with files := Function.update A.files i (some (f.write offset buf)) }

/-! ## The code under the view -/

variable {v : Ext4} {L : Layout} {A : AbsVolume} {s s' s₁ : FsState} {O O' : ℕ → Option Use}
  {dir ino i d offset : ℕ} {name buf : List UInt8} {isDir : Bool} {f : AbsFile}
  {m : List UInt8 → Option ℕ}

structure FileIs (v : Ext4) (L : Layout) (s : FsState) (i : ℕ) (f : AbsFile) : Prop where
  inUse : InUse v L s i
  isFile : (inodeOf v L s i).isFile = true
  size : (inodeOf v L s i).size = f.size
  small : f.size ≤ (2 ^ 32 - 1) * v.bs
  bytes : ∀ x < (2 ^ 32 - 1) * v.bs, byteAt v s (slot v L s i) x = .ok (f.bytes x)

structure DirIs (v : Ext4) (L : Layout) (s : FsState) (d : ℕ) (m : List UInt8 → Option ℕ) :
    Prop where
  linear : LinearDir v L s d
  map : ∀ n, binding n (dirListing v L s d) = m n

structure Mirrors (v : Ext4) (L : Layout) (A : AbsVolume) (s : FsState) : Prop where
  owned : Ownership v L s
  dirs : ∀ d m, A.dirs d = some m → DirIs v L s d m
  files : ∀ i f, A.files i = some f → FileIs v L s i f

/-- The writes the extent tree can take: sizes stay in their field, and the blocks that are
missing can be added in order. -/
structure Takeable (v : Ext4) (L : Layout) (s : FsState) (i offset : ℕ) (buf : List UInt8) :
    Prop where
  filled : buf ≠ []
  inside : endBlock v offset buf.length ≤ 2 ^ 32 - 1
  sized : offset + buf.length < if v.has64bit then 2 ^ 64 else 2 ^ 32
  shallow : HasMagic (slot v L s i) iblock → rootDepth (slot v L s i) ≤ 1
  ready : Ready v s (slot v L s i) (offset / v.bs) (endBlock v offset buf.length)

/-- A call on what the view knows, inside the limits of the code, that returns `Ok`. -/
def Does (v : Ext4) (L : Layout) (A : AbsVolume) (s : FsState) (s' : FsState) : Done → Prop
  | .created dir name isDir ino => A.dirs dir ≠ none ∧
    ¬Outgrows v L s dir ⟨ino, if isDir then 2 else 1, name⟩ (if isDir then 1 else 0) ∧
    create v dir name isDir s = (.ok ino, s')
  | .wrote i offset buf => A.files i ≠ none ∧ Takeable v L s i offset buf ∧
    writeFile v i offset buf s = (.ok (), s')

/-- The volume and the view, call after call. -/
def Follows (v : Ext4) (L : Layout) (c : AbsVolume × FsState) (e : Done)
    (c' : AbsVolume × FsState) : Prop :=
  Does v L c.1 c.2 c'.2 e ∧ c.1.step e = some c'.1

theorem FileIs.same (h : FileIs v L s i f) (hgood : Good v L O s) (hsame : SameFile v L O i s s') :
    FileIs v L s' i f := by
  refine ⟨hsame.inUse, ?_, hsame.size.trans h.size, h.small, fun x hx => ?_⟩
  · unfold Inode.isFile
    rw [hsame.mode]
    exact h.isFile
  · rw [byteAt_congr (hgood.slots i h.inUse) hsame.tree hsame.blocks]
    exact h.bytes x hx

theorem DirIs.same (h : DirIs v L s d m) (hgood : Good v L O s) (hsame : SameFile v L O d s s') :
    DirIs v L s' d m := by
  have hc := hgood.slots d h.linear.inUse
  refine ⟨hsame.linear hc h.linear, fun n => ?_⟩
  rw [hsame.listing hc]
  exact h.map n

theorem DirIs.ne_file (hd : DirIs v L s d m) (hf : FileIs v L s i f) : d ≠ i := by
  rintro rfl
  have hdir := hd.linear.isDir
  have hfile := hf.isFile
  unfold Inode.isDir at hdir
  unfold Inode.isFile at hfile
  rw [beq_iff_eq] at hdir hfile
  rw [hdir] at hfile
  cases hfile

section Steps

variable (hv : GeometryOk v) (hL : LayoutOk v L)
include hv hL

/-! ## Writing -/

omit hL in
theorem FileIs.written (h : FileIs v L s i f) (hw : Takeable v L s i offset buf)
    (hdone : FileStored v L O i s offset buf (offset + buf.length) O' s') : FileIs v L s' i (f.write offset buf) := by
  have hend : offset + buf.length ≤ (2 ^ 32 - 1) * v.bs :=
    (endBlock_end hv hw.filled).trans (Nat.mul_le_mul_right _ hw.inside)
  refine ⟨hdone.inUse, ?_, ?_, max_le h.small hend, fun x hx => ?_⟩
  · unfold Inode.isFile
    rw [hdone.mode]
    exact h.isFile
  · rw [hdone.size, Nat.mod_eq_of_lt (max_lt (inodeSize_lt v L s i) hw.sized), h.size]
    rfl
  · show _ = Except.ok (if _ then _ else _)
    split
    · rename_i hin
      obtain ⟨k, rfl⟩ := Nat.exists_eq_add_of_le hin.1
      rw [Nat.add_sub_cancel_left]
      exact hdone.writes.written k (Nat.lt_of_add_lt_add_left hin.2)
    · exact hdone.writes.keeps x _ hx (by omega) (h.bytes x hx)

/-- SOURCE: ext4.rs:1282-1321 -/
theorem Mirrors.wrote (h : Mirrors v L A s) (hf : A.files i = some f)
    (hw : Takeable v L s i offset buf) (hrun : writeFile v i offset buf s = (.ok (), s')) :
    Mirrors v L { A with files := Function.update A.files i (some (f.write offset buf)) } s' := by
  have hgood := h.owned.good
  have hi := h.files i f hf
  obtain ⟨O', hdone⟩ := (writeFile_ends hv hL hgood hi.inUse hi.isFile hw.filled hw.inside
    hw.shallow hw.ready).ok hrun
  refine ⟨hdone.good.ownership, fun d m hd => ?_, fun j g hj => ?_⟩
  · have hdir := h.dirs d m hd
    exact hdir.same hgood (hdone.others d hdir.linear.inUse (hdir.ne_file hi))
  · by_cases hji : j = i
    · subst hji
      dsimp only at hj
      rw [Function.update_self] at hj
      cases hj
      exact hi.written hv hw hdone
    · dsimp only at hj
      rw [Function.update_of_ne hji] at hj
      exact (h.files j g hj).same hgood (hdone.others j (h.files j g hj).inUse hji)

/-! ## Creating -/

/-- The inode of a new regular file maps nothing. -/
theorem createInode_file (hgood : Good v L O s)
    (hrun : createInode v dir name false s = (.ok ino, s₁)) (huse : InUse v L s₁ ino) :
    FileIs v L s₁ ino ⟨0, fun _ => 0⟩ := by
  have hvol : Vol v L False O s := ⟨hgood, False.elim⟩
  have hread := (reads_lookup v dir name).eq s
  unfold createInode at hrun
  obtain ⟨found, s₂, hlook, hrun⟩ := Prog.bind_eq_ok.mp hrun
  obtain rfl : s = s₂ := by
    rw [hlook] at hread
    exact (congrArg Prod.snd hread).symm
  cases found with
  | some k => cases hrun
  | none =>
    obtain ⟨k, s₂, halloc, hrun⟩ := Prog.bind_eq_ok.mp hrun
    have htaken : InodeTaken v L k s s₂ := by
      rcases allocInode_cases hv hL hgood.placed false with
        ⟨j, s₃, hok, htaken⟩ | hfail | ⟨e, s₃, -, hfail⟩
      · rw [hok] at halloc
        cases halloc
        exact htaken
      · rw [hfail] at halloc
        cases halloc
      · rw [hfail] at halloc
        cases halloc
    rw [if_neg (by simp), Prog.bind_ok (Prog.pure_apply _ _)] at hrun
    obtain ⟨_, s₃, hwrite, hrun⟩ := Prog.bind_eq_ok.mp hrun
    cases hrun
    have hi : IsInode v ino := htaken.isInode
    rw [writeInode_ok hv hL (htaken.vol hv hL False.elim hvol).placed
      (show IsInode v (newInode ino false).ino from hi)] at hwrite
    obtain rfl : putSlot v L s₂ ino (v.encodeInode (newInode ino false)) = s₁ :=
      congrArg Prod.snd hwrite
    obtain ⟨hagree, hinode⟩ := slot_written (s := s₂) hv hL hi (newInode ino false)
    obtain ⟨hmode, -, hsize⟩ := parseInode_encode (v := v) (newInode ino false) ino
    obtain ⟨hhead, hrecs⟩ := newInode_head ino false
    have hhead' := hagree.headOk hhead
    obtain ⟨hrecs', -⟩ := node_agree hagree hhead
    rw [hrecs] at hrecs'
    refine ⟨huse, ?_, ?_, Nat.zero_le _, fun x _ => byteAt_eq_ok.mpr ⟨_, blockAt_none ?_, rfl⟩⟩
    · unfold Inode.isFile
      rw [hinode, hmode]
      exact show ((0x8000 ||| 0o644) % 2 ^ 16 &&& 0xF000 == 0x8000) = true by simp
    · rw [hinode, hsize]
      exact Nat.zero_mod _
    · unfold treeLook
      rw [if_pos hhead'.magic, show rootDepth _ = 0 from hhead'.depth]
      show scanRecs _ (leafRecs _ iblock) = _
      rw [hrecs']
      rfl

/-- The whole call: the directory has one entry more, and nothing else that was in use has
changed since the inode was made. -/
theorem create_entered (hgood : Good v L O s) (hd : LinearDir v L s dir)
    (hok : ¬Outgrows v L s dir ⟨ino, if isDir then 2 else 1, name⟩ (if isDir then 1 else 0))
    (hrun : create v dir name isDir s = (.ok ino, s')) :
    ∃ s₁ O₁ O', createInode v dir name isDir s = (.ok ino, s₁) ∧
      Made v L False O dir isDir ino s O₁ s₁ ∧ binding name (dirListing v L s dir) = none ∧
      Entered v L O₁ dir ⟨ino, if isDir then 2 else 1, name⟩ s₁ O' s' := by
  have hvol : Vol v L False O s := ⟨hgood, False.elim⟩
  have hmakes := createInode_made hv hL False.elim hvol dir name isDir
  unfold create at hrun
  obtain ⟨k, s₁, hmake, hrun⟩ := Prog.bind_eq_ok.mp hrun
  obtain ⟨_, s₂, hadd, hrun⟩ := Prog.bind_eq_ok.mp hrun
  obtain ⟨hnone, O₁, hmade⟩ := hmakes.ok hmake
  have hlink : k = ino ∧ (if isDir then linkParent v dir else pure ()) s₂ = (.ok (), s') := by
    cases isDir with
    | false =>
      rw [if_neg (by simp)] at hrun
      cases hrun
      exact ⟨rfl, rfl⟩
    | true =>
      rw [if_pos rfl] at hrun
      obtain ⟨_, s₃, hlink, hrun⟩ := Prog.bind_eq_ok.mp hrun
      cases hrun
      exact ⟨rfl, hlink⟩
  obtain ⟨rfl, hlink⟩ := hlink
  have hsame := hmade.same hd.inUse
  have hc := hgood.slots dir hd.inUse
  have hlisting₁ := hsame.listing hc
  have hfresh : binding name (dirListing v L s dir) = none := hd.unbound hv hL hgood hnone
  obtain ⟨O₂, hent⟩ := addDirent_entered hv hL hmade.sound.toGood (hsame.linear hc hd)
    (by rw [hlisting₁]; exact hfresh) hadd (Nat.ne_of_gt hmade.inUse.1.1)
    (hmade.inUse.1.2.trans_lt hv.inodes_lt) (by split <;> omega)
    fun hlarge => hok ((hmade.outgrows_iff hgood hd).mp hlarge)
  obtain ⟨hgood', hsame'⟩ := linkIf_same hv hL hent.good hent.linear.inUse hlink
  have hc₂ := hent.good.slots dir hent.linear.inUse
  refine ⟨s₁, O₁, O₂, hmake, hmade, hfresh, hgood', hent.ext, fun j hj hne => ?_, ?_, ?_⟩
  · exact (hent.others j hj hne).trans (hsame' j (hent.others j hj hne).inUse) hent.ext
  · exact (hsame' dir hent.linear.inUse).linear hc₂ hent.linear
  · rw [(hsame' dir hent.linear.inUse).listing hc₂]
    exact hent.listing

omit hv hL in
theorem Made.unknown {O₁ : ℕ → Option Use} (h : Mirrors v L A s)
    (hmade : Made v L False O dir isDir ino s O₁ s₁) : A.dirs ino = none ∧ A.files ino = none := by
  have hfree : ¬InUse v L s ino := by
    intro huse
    have hmark := h.owned.good.inodes ino huse
    rw [hmade.unmarked] at hmark
    cases hmark
  constructor
  · exact Option.eq_none_iff_forall_ne_some.mpr fun m hm => hfree (h.dirs ino m hm).linear.inUse
  · exact Option.eq_none_iff_forall_ne_some.mpr fun f hf => hfree (h.files ino f hf).inUse

/-- SOURCE: ext4.rs:1324-1366 -/
theorem Mirrors.created (h : Mirrors v L A s) (hm : A.dirs dir = some m)
    (hok : ¬Outgrows v L s dir ⟨ino, if isDir then 2 else 1, name⟩ (if isDir then 1 else 0))
    (hrun : create v dir name isDir s = (.ok ino, s')) :
    (m name = none ∧ A.dirs ino = none ∧ A.files ino = none) ∧
      Mirrors v L (A.bind dir m name isDir ino) s' := by
  have hgood := h.owned.good
  have hdir := h.dirs dir m hm
  obtain ⟨s₁, O₁, O', hmake, hmade, hfresh, hent⟩ :=
    create_entered hv hL hgood hdir.linear hok hrun
  have hgood₁ := hmade.sound.toGood
  obtain ⟨hnodir, hnofile⟩ := hmade.unknown h
  have hne : ino ≠ dir := by
    rintro rfl
    rw [hnodir] at hm
    cases hm
  have hold : ∀ d m, A.dirs d = some m → d ≠ dir → DirIs v L s' d m := fun d m hd hne =>
    have hmid := (h.dirs d m hd).same hgood (hmade.same (h.dirs d m hd).linear.inUse)
    hmid.same hgood₁ (hent.others d hmid.linear.inUse hne)
  have hkept : ∀ i f, A.files i = some f → FileIs v L s' i f := fun i f hi =>
    have hmid := (h.files i f hi).same hgood (hmade.same (h.files i f hi).inUse)
    hmid.same hgood₁ (hent.others i hmid.inUse ((hdir.ne_file (h.files i f hi)).symm))
  have hself := hent.others ino hmade.inUse hne
  refine ⟨⟨(hdir.map name).symm.trans hfresh, hnodir, hnofile⟩, hent.good.ownership,
    fun d m' hd => ?_, fun i f hi => ?_⟩
  · dsimp only [AbsVolume.bind] at hd
    by_cases hdd : d = dir
    · subst hdd
      rw [Function.update_self] at hd
      cases hd
      refine ⟨hent.linear, fun n => ?_⟩
      have hone := hent.listing
      rw [(hmade.same hdir.linear.inUse).listing (hgood.slots d hdir.linear.inUse)] at hone
      rw [hone.binding_eq hfresh, hdir.map, Function.update_apply]
    · rw [Function.update_of_ne hdd] at hd
      cases isDir with
      | false => exact hold d m' hd hdd
      | true =>
        rw [if_pos rfl] at hd
        by_cases hdi : d = ino
        · subst hdi
          rw [Function.update_self] at hd
          cases hd
          obtain ⟨hlinear, hdots⟩ := (hmade.dots rfl).linear hv
            (hmade.inUse.1.2.trans_lt hv.inodes_lt) (Nat.ne_of_gt hdir.linear.inUse.1.1)
            (hdir.linear.inUse.1.2.trans_lt hv.inodes_lt) hmade.inUse
          exact DirIs.same ⟨hlinear, fun n => by rw [hdots]⟩ hgood₁ hself
        · rw [Function.update_of_ne hdi] at hd
          exact hold d m' hd hdd
  · dsimp only [AbsVolume.bind] at hi
    cases isDir with
    | true => exact hkept i f hi
    | false =>
      rw [if_neg (by simp)] at hi
      by_cases hii : i = ino
      · subst hii
        rw [Function.update_self] at hi
        cases hi
        exact (createInode_file hv hL hgood hmake hmade.inUse).same hgood₁ hself
      · rw [Function.update_of_ne hii] at hi
        exact hkept i f hi

/-! ## Whole runs -/

/-- The view can follow every call that succeeds, and shows the volume again. -/
theorem Mirrors.follows (h : Mirrors v L A s) {e : Done} (hdoes : Does v L A s s' e) :
    ∃ A', A.step e = some A' ∧ Mirrors v L A' s' := by
  cases e with
  | created dir name isDir ino =>
    obtain ⟨hdir, hok, hrun⟩ := hdoes
    obtain ⟨m, hm⟩ := Option.ne_none_iff_exists'.mp hdir
    obtain ⟨hnew, hmirrors⟩ := h.created hv hL hm hok hrun
    refine ⟨_, ?_, hmirrors⟩
    rw [AbsVolume.step, hm, Option.bind_some, if_pos hnew]
  | wrote i offset buf =>
    obtain ⟨hfile, hw, hrun⟩ := hdoes
    obtain ⟨f, hf⟩ := Option.ne_none_iff_exists'.mp hfile
    refine ⟨_, ?_, h.wrote hv hL hf hw hrun⟩
    rw [AbsVolume.step, hf, Option.map_some]

theorem mirrors_of_reachable {c : AbsVolume × FsState}
    (hreach : Reachable (fun c => Mirrors v L c.1 c.2) (Follows v L) c) : Mirrors v L c.1 c.2 := by
  refine hreach.invariant (I := fun c => Mirrors v L c.1 c.2) (fun _ => id) ?_
  rintro ⟨A, s⟩ e ⟨A', s'⟩ h ⟨hdoes, hstep⟩
  obtain ⟨A₁, hstep₁, hmirrors⟩ := h.follows hv hL hdoes
  rw [hstep] at hstep₁
  cases hstep₁
  exact hmirrors

end Steps

/-! ## A file made and written -/

/-- The sample volume after a file has been created in the root directory. -/
@[irreducible] def aclMade : FsState := (create wideVolume 2 [0x61] false (aclState 5)).2

theorem create_acl : create wideVolume 2 [0x61] false (aclState 5) = (.ok 4, aclMade) := by
  unfold aclMade
  exact Prod.ext (by decide +kernel) rfl

theorem write_aclMade : ∃ s, writeFile wideVolume 4 1 [7, 8] aclMade = (.ok (), s) :=
  ⟨_, ends_of_isOk (by decide +kernel)⟩

theorem count_acl : dirCount wideVolume (inodeOf wideVolume noSeedLayout (aclState 5) 2).size = 1 := by
  decide +kernel

theorem look_acl : treeLook wideVolume (aclState 5) (slot wideVolume noSeedLayout (aclState 5) 2) 0 =
    .ok (some 6) := by
  decide +kernel

theorem linearDir_acl : LinearDir wideVolume noSeedLayout (aclState 5) 2 where
  inUse := by decide +kernel
  isDir := by decide +kernel
  magic := by decide +kernel
  shallow := by decide +kernel
  count := by decide +kernel
  apart := by decide +kernel
  found lb hlb := by
    rw [count_acl, Nat.lt_one_iff] at hlb
    exact ⟨_, hlb ▸ look_acl⟩
  blocks lb hlb p hp := by
    rw [count_acl, Nat.lt_one_iff] at hlb
    rw [hlb, look_acl] at hp
    cases hp
    decide +kernel
  names := by decide +kernel

theorem fits_acl (k : ℕ) :
    ¬Outgrows wideVolume noSeedLayout (aclState 5) 2 ⟨4, 1, [0x61]⟩ k := by
  rintro ⟨hcrowded, -⟩
  have hfull := hcrowded 0 6 (by rw [count_acl]; decide) look_acl
  revert hfull
  decide +kernel

/-- The new file maps nothing, and takes its first block. -/
theorem takeable_acl : Takeable wideVolume noSeedLayout aclMade 4 1 [7, 8] := by
  have hlook : treeLook wideVolume aclMade (slot wideVolume noSeedLayout aclMade 4) 0 = .ok none := by
    decide +kernel
  have htable : leafTable wideVolume aclMade (headed (slot wideVolume noSeedLayout aclMade 4)) =
      [(0, [])] := by
    decide +kernel
  have hmissing : missing wideVolume aclMade (slot wideVolume noSeedLayout aclMade 4) 0 1 = [0] := by
    decide +kernel
  refine ⟨by simp, by decide, by decide, fun _ => by decide +kernel, fun x _ hx => ?_, Or.inr ?_⟩
  · rw [Nat.lt_one_iff.mp (show x < 1 from hx)]
    exact ⟨_, hlook⟩
  · show Addable wideVolume aclMade _ (missing wideVolume aclMade _ 0 1)
    rw [hmissing]
    refine ⟨by decide +kernel, ?_, by decide +kernel, ?_⟩
    · rw [htable]
      exact List.cons_ne_nil _ _
    · rw [htable]
      exact ⟨by decide, Or.inl ⟨0, by decide, fun x _ => Nat.zero_le x⟩⟩

end Pinx.Analysis
