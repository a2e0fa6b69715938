import Pinx.Analysis.Ext4Steps

/-!
# Calls keep the volume good

`write_file` and `create`, as sequences of steps: from a good volume each of them ends in a
good volume, with all checksums valid if they were and all counts right if they were,
whether it returns a result or an error.  The one condition is that the inode it works on
is in use and has a tree of depth at most 1.
-/

namespace Pinx.Analysis

open Pinx.Foundation Pinx.Model

variable {v : Ext4} {L : Layout} {s s' s₁ : FsState} {O O' : ℕ → Option Use} {T : Prop}
  {i j lb p : ℕ} {raw : Bytes}

/-! ## Routines that only read -/

theorem reads_mapLoop (v : Ext4) (inode : Inode) (lb fuel : ℕ) :
    ∀ node entries depth, Prog.Reads (mapLoop v inode lb fuel node entries depth) := by
  induction fuel with
  | zero => exact fun _ _ _ => Prog.reads_fail _
  | succ fuel ih =>
    intro node entries depth
    unfold mapLoop
    refine Prog.Reads.ite (Prog.reads_lift _) ?_
    split
    · exact Prog.reads_pure _
    · refine (reads_readFsb v _).bind fun buf => ?_
      split
      · exact Prog.reads_pure _
      · exact ih _ _ _

theorem reads_mapBlock (v : Ext4) (inode : Inode) (lb : ℕ) : Prog.Reads (mapBlock v inode lb) := by
  unfold mapBlock
  split
  · exact Prog.reads_pure _
  · exact reads_mapLoop v inode lb _ _ _ _

theorem reads_dirBlocks (v : Ext4) (size : ℕ) : Prog.Reads (dirBlocks v size) :=
  (Prog.reads_fail _).ite (Prog.reads_pure _)

theorem reads_lookupLoop (v : Ext4) (inode : Inode) (name : List UInt8) (n : ℕ) :
    ∀ lb, Prog.Reads (lookupLoop v inode name n lb) := by
  induction n with
  | zero => exact fun _ => Prog.reads_pure _
  | succ n ih =>
    intro lb
    refine (reads_mapBlock v inode _).bind fun fsb? => ?_
    split
    · exact ih _
    · refine (reads_readFsb v _).bind fun blk => (Prog.reads_lift _).bind fun found => ?_
      split
      · exact Prog.reads_pure _
      · exact ih _

/-- SOURCE: ext4.rs:1146-1177 -/
theorem reads_lookup (v : Ext4) (dir : ℕ) (name : List UInt8) : Prog.Reads (lookup v dir name) :=
  (reads_readInode v dir).bind fun _ => (Prog.reads_fail _).ite
    ((reads_dirBlocks v _).bind fun _ => reads_lookupLoop v _ name _ _)

/-! ## Writing an inode -/

/-- The state with other bytes in a slot of the inode table. -/
def putSlot (v : Ext4) (L : Layout) (s : FsState) (i : ℕ) (raw : Bytes) : FsState :=
  setBlock v s (slotBlock v L i)
    ((block v s (slotBlock v L i)).blit (slotOffset v i) v.inodeSize raw)

section Slots

variable (hv : GeometryOk v) (hL : LayoutOk v L) (hi : IsInode v i)
include hv hL hi

theorem slot_putSlot (hj : IsInode v j) :
    slot v L (putSlot v L s i raw) j = if j = i then raw.clip v.inodeSize else slot v L s j :=
  slot_setBlock hv hL hi hj

theorem sameBooks_putSlot : SameBooks v L s (putSlot v L s i raw) := by
  have hrole := role_slotBlock hv hL hi
  refine sameBooks_setBlock _ ?_
  rintro (h | h | ⟨g, h⟩ | ⟨g, h⟩) <;> rw [hrole] at h <;> cases h

theorem block_putSlot {b : ℕ} (hb : L.role b = .data) :
    block v (putSlot v L s i raw) b = block v s b := by
  refine block_setBlock_ne ?_
  rintro rfl
  rw [role_slotBlock hv hL hi] at hb
  cases hb

theorem inUse_putSlot (hj : InUse v L s j) (hne : j ≠ i) : InUse v L (putSlot v L s i raw) j := by
  refine hj.congr ?_
  rw [slot_putSlot hv hL hi hj.1, if_neg hne]

end Slots

theorem covers_clip (hv : GeometryOk v) (hc : Covers v s O i raw) :
    Covers v s O i (raw.clip v.inodeSize) := by
  refine hc.agree fun k hk => (Bytes.clip_inside ?_).symm
  have := hv.inodeSize
  unfold iblock
  omega

/-- What the slot of an inode must bring along: its tree, its own checksum, and those of the
blocks that already belong to it. -/
structure SlotFits (v : Ext4) (T : Prop) (O : ℕ → Option Use) (s : FsState) (i : ℕ) (raw : Bytes) :
    Prop where
  links : linksOf raw ≠ 0
  covers : Covers v s O i raw
  sum : T → InodeSum v i raw
  nodes : T → ∀ n, O n = some (.node i) → ExtentSum v i (genOf raw) (block v s n)
  dirs : T → (v.parseInode i raw).isDir = true → ∀ p lb, O p = some (.data i lb) →
    ((v.parseInode i raw).flags &&& 0x1000 ≠ 0 → HasTail v (block v s p)) →
    DirSum v i (genOf raw) (block v s p)

/-- Writing a slot that fits keeps the volume good; blocks nobody owned may become those of
the inode. -/
theorem putSlot_vol (hv : GeometryOk v) (hL : LayoutOk v L) (hvol : Vol v L T O s)
    (hi : IsInode v i) (hmark : inodeMarked v L s i = true)
    (hext : ∀ p u, O p = some u → O' p = some u)
    (hfresh : ∀ p u, O' p = some u → O p = some u ∨
      u.ino = i ∧ IsBlock v p ∧ L.role p = .data ∧ marked v L s p = true)
    (hfits : SlotFits v T O' s i raw) : Vol v L T O' (putSlot v L s i raw) := by
  have hbooks : SameBooks v L s (putSlot v L s i raw) := sameBooks_putSlot hv hL hi
  have hslot : ∀ j, IsInode v j →
      slot v L (putSlot v L s i raw) j = if j = i then raw.clip v.inodeSize else slot v L s j :=
    fun j hj => slot_putSlot hv hL hi hj
  have hself : slot v L (putSlot v L s i raw) i = raw.clip v.inodeSize := by
    rw [hslot i hi, if_pos rfl]
  have hlinks : linksOf (raw.clip v.inodeSize) = linksOf raw := clip_fields v hv raw (by omega)
  have hgen : genOf (raw.clip v.inodeSize) = genOf raw := clip_fields v hv raw (by omega)
  have huse : InUse v L (putSlot v L s i raw) i := by
    refine ⟨hi, ?_⟩
    rw [hself, hlinks]
    exact hfits.links
  -- an inode in use now was in use before, but for this one
  have hback : ∀ j, InUse v L (putSlot v L s i raw) j → j ≠ i → InUse v L s j := by
    intro j hj hne
    have hslot' := hslot j hj.1
    rw [if_neg hne] at hslot'
    exact hj.congr hslot'.symm
  have hused : ∀ p u, O' p = some u → IsBlock v p ∧ L.role p = .data ∧ marked v L s p = true := by
    intro p u hp
    rcases hfresh p u hp with hold | ⟨-, hnew⟩
    · exact (hvol.used p u hold).2
    · exact hnew
  have hblocks : ∀ p u, O' p = some u → block v (putSlot v L s i raw) p = block v s p :=
    fun p u hp => block_putSlot hv hL hi (hused p u hp).2.1
  have hothers : ∀ p u, O' p = some u → u.ino ≠ i → O p = some u := fun p u hp hne =>
    (hfresh p u hp).resolve_right fun h => hne h.1
  refine ⟨⟨hbooks.keepsPlaced hv hL hvol.toPlaced, fun p u hp => ?_, fun j hj => ?_,
    fun j hj => ?_⟩, fun ht => ⟨?_, fun j hj => ?_, fun n j hn => ?_, fun p j lb hp hdir htail => ?_⟩⟩
  · obtain ⟨hblock, hrole, hmk⟩ := hused p u hp
    refine ⟨?_, hblock, hrole, (hbooks.marked_eq hv hL hblock).trans hmk⟩
    by_cases hu : u.ino = i
    · rw [hu]
      exact huse
    · exact inUse_putSlot hv hL hi (hvol.used p u (hothers p u hp hu)).1 hu
  · rw [hslot j hj.1]
    split
    · rename_i hji
      subst hji
      refine (covers_clip hv hfits.covers).step (fun _ _ => id) fun n hn => Or.inl ?_
      exact hblocks n _ hn
    · rename_i hne
      refine (hvol.slots j (hback j hj hne)).step hext fun n hn => Or.inl ?_
      exact hblocks n _ (hext n _ hn)
  · rw [hbooks.inodeMarked_eq hv hL hj.1]
    by_cases hji : j = i
    · exact hji ▸ hmark
    · exact hvol.inodes j (hback j hj hji)
  · exact hbooks.metaSums hL (hvol.checked ht).metadata
  · rw [hslot j hj.1]
    split
    · rename_i hji
      subst hji
      exact (hfits.sum ht).congr hv fun k hk => Bytes.clip_inside hk
    · rename_i hne
      exact (hvol.checked ht).inodes j (hback j hj hne)
  · rw [hblocks n _ hn]
    by_cases hji : j = i
    · subst hji
      rw [hself, hgen]
      exact hfits.nodes ht n hn
    · have hold := hothers n _ hn hji
      rw [hslot j (hvol.used n _ hold).1.1, if_neg hji]
      exact (hvol.checked ht).nodes n j hold
  · rw [hblocks p _ hp] at htail ⊢
    by_cases hji : j = i
    · subst hji
      have hparse : inodeOf v L (putSlot v L s j raw) j = v.parseInode j raw := by
        unfold inodeOf
        rw [hself]
        exact parseInode_clip hv raw
      rw [hparse] at hdir htail
      rw [hself, hgen]
      exact hfits.dirs ht hdir p lb hp htail
    · have hold := hothers p _ hp hji
      have hsame := hslot j (hvol.used p _ hold).1.1
      rw [if_neg hji] at hsame
      rw [inodeOf_congr hsame] at hdir htail
      rw [hsame]
      exact (hvol.checked ht).dirs p j lb hold hdir htail

theorem nodeAgree_encode (inode : Inode) :
    NodeAgree inode.raw (v.encodeInode inode) iblock iblock 4 := by
  intro k hk
  refine (encodeInode_outside (Or.inr (Or.inr ?_))).symm
  unfold iblock
  omega

/-- What is read back from a slot that was written. -/
theorem slot_written (hv : GeometryOk v) (hL : LayoutOk v L) (hi : IsInode v i) (inode : Inode) :
    NodeAgree inode.raw (slot v L (putSlot v L s i (v.encodeInode inode)) i) iblock iblock 4 ∧
      inodeOf v L (putSlot v L s i (v.encodeInode inode)) i =
        v.parseInode i (v.encodeInode inode) := by
  have hslot : slot v L (putSlot v L s i (v.encodeInode inode)) i =
      (v.encodeInode inode).clip v.inodeSize := by
    rw [slot_putSlot hv hL hi hi, if_pos rfl]
  constructor
  · intro k hk
    rw [hslot, Bytes.clip_inside (by have := hv.inodeSize; unfold iblock; omega)]
    exact nodeAgree_encode inode k hk
  · unfold inodeOf
    rw [hslot, parseInode_clip hv]

theorem genOf_encode (inode : Inode) : genOf (v.encodeInode inode) = inode.gen :=
  Bytes.getLE_congr fun k hk => encodeInode_outside (by omega)

theorem linksOf_encode (inode : Inode) : linksOf (v.encodeInode inode) = linksOf inode.raw :=
  Bytes.getLE_congr fun k hk => encodeInode_outside (by omega)

theorem mode_lt (v : Ext4) (L : Layout) (s : FsState) (i : ℕ) : (inodeOf v L s i).mode < 2 ^ 16 :=
  Bytes.getLE_lt _ 0 2

theorem flags_lt (v : Ext4) (L : Layout) (s : FsState) (i : ℕ) : (inodeOf v L s i).flags < 2 ^ 32 :=
  Bytes.getLE_lt _ 0x20 4

section Rewrite

variable (hv : GeometryOk v) (hL : LayoutOk v L) (hT : T → v.metaCsum = true)
  (hvol : Vol v L T O s)
include hv hL hT hvol

/-- An inode in use is written back, with its tree, its kind and its generation. -/
theorem writeInode_vol (inode : Inode) (hi : InUse v L s i) (hino : inode.ino = i)
    (hcov : Covers v s O i inode.raw) (hgen : inode.gen = genOf (slot v L s i))
    (hlinks : linksOf inode.raw ≠ 0) (hmode : inode.mode = (inodeOf v L s i).mode)
    (hflags : inode.flags = (inodeOf v L s i).flags) :
    writeInode v inode s = (.ok (), putSlot v L s i (v.encodeInode inode)) ∧
      Vol v L T O (putSlot v L s i (v.encodeInode inode)) ∧
      InUse v L (putSlot v L s i (v.encodeInode inode)) i := by
  obtain ⟨hmode', hflags', -⟩ := parseInode_encode (v := v) inode i
  rw [hmode, Nat.mod_eq_of_lt (mode_lt v L s i)] at hmode'
  rw [hflags, Nat.mod_eq_of_lt (flags_lt v L s i)] at hflags'
  have hisDir : (v.parseInode i (v.encodeInode inode)).isDir = (inodeOf v L s i).isDir := by
    unfold Inode.isDir
    rw [hmode']
  have hfits : SlotFits v T O s i (v.encodeInode inode) := by
    refine ⟨?_, hcov.agree (nodeAgree_encode inode), fun ht => ?_, fun ht n hn => ?_,
      fun ht hdir p lb hp htail => ?_⟩
    · rw [linksOf_encode]
      exact hlinks
    · rw [← hino]
      exact inodeSum_encode hv (hT ht) inode
    · rw [genOf_encode, hgen]
      exact (hvol.checked ht).nodes n i hn
    · rw [hisDir] at hdir
      rw [hflags'] at htail
      rw [genOf_encode, hgen]
      exact (hvol.checked ht).dirs p i lb hp hdir htail
  refine ⟨?_, putSlot_vol hv hL hvol hi.1 (hvol.inodes i hi) (fun _ _ => id) (fun _ _ => Or.inl)
    hfits, hi.1, ?_⟩
  · rw [writeInode_ok hv hL hvol.placed (hino ▸ hi.1), hino]
    rfl
  · rw [slot_putSlot hv hL hi.1 hi.1, if_pos rfl]
    rw [show linksOf (Bytes.clip v.inodeSize (v.encodeInode inode)) = linksOf (v.encodeInode inode)
      from clip_fields v hv _ (by omega)]
    exact hfits.links

end Rewrite

/-- A good volume, with its counts right if they were at the start of the call. -/
structure Settled (v : Ext4) (L : Layout) (T : Prop) (s s' : FsState) : Prop where
  vol : ∃ O, Vol v L T O s'
  accounts : Accounts v L s → Accounts v L s'

theorem Settled.trans {s'' : FsState} (h : Settled v L T s s') (h' : Settled v L T s' s'') :
    Settled v L T s s'' :=
  ⟨h'.vol, h'.accounts ∘ h.accounts⟩

theorem Step.settled (hT : T → v.metaCsum = true) (hvol : Vol v L T O s) (hi : InUse v L s i)
    (h : Step v L T i O s O' s') : Settled v L T s s' :=
  ⟨⟨O', h.vol hT (Or.inl hi) hvol⟩, h.touch.accounts⟩

/-! ## Writing a file -/

/-- A piece of a call that works on inode `i` ends after a step, with the inode in hand. -/
def Works (v : Ext4) (L : Layout) (T : Prop) (O : ℕ → Option Use) (i : ℕ) (s : FsState) {α : Type}
    (inodeIn : α → Inode) : Except FsFail α × FsState → Prop :=
  Prog.Ends (fun a s' => ∃ O', Step v L T i O s O' s' ∧ Opened v L O' i s' (inodeIn a))
    fun e s' => Skips e ∨ ∃ O', Step v L T i O s O' s'

/-- The condition under which a call may work on an inode: if there is one with this number
it is in use, with a tree of depth at most 1. -/
def Workable (v : Ext4) (L : Layout) (s : FsState) (i : ℕ) : Prop :=
  IsInode v i → InUse v L s i ∧
    (HasMagic (slot v L s i) iblock → rootDepth (slot v L s i) ≤ 1)

theorem opened_slot (hvol : Vol v L T O s) (hi : InUse v L s i)
    (hdepth : HasMagic (slot v L s i) iblock → rootDepth (slot v L s i) ≤ 1) :
    Opened v L O i s (inodeOf v L s i) := by
  have hraw : (inodeOf v L s i).raw = slot v L s i := Bytes.clip_clip _
  refine ⟨rfl, ?_, ?_, ?_, rfl, rfl⟩
  · rw [hraw]
    exact hvol.slots i hi
  · rw [hraw]
    exact hdepth
  · rw [hraw]
    exact fun _ _ => rfl

theorem not_isDir_of_isFile {inode : Inode} (h : inode.isFile = true) : inode.isDir = false := by
  unfold Inode.isFile at h
  unfold Inode.isDir
  rw [eq_of_beq h]
  rfl

section Write

variable (hv : GeometryOk v) (hL : LayoutOk v L) (hT : T → v.metaCsum = true)
include hv hL hT

/-- SOURCE: ext4.rs:1301-1307 -/
theorem openBlock_works (hvol : Vol v L T O s) (hi : InUse v L s i) {inode : Inode}
    (hop : Opened v L O i s inode) (hfile : (inodeOf v L s i).isDir = false) (hlb : lb < 2 ^ 32) :
    Works v L T O i s Prod.fst (openBlock v inode lb s) := by
  unfold openBlock
  cases hlook : treeLook v s inode.raw lb with
  | error e =>
    rw [Prog.bind_error (by rw [mapBlock_eq hv hop.covers.ok, hlook])]
    exact Prog.ends_error.mpr (Or.inl (treeLook_skips hlook))
  | ok found =>
    rw [Prog.bind_ok (by rw [mapBlock_eq hv hop.covers.ok, hlook])]
    cases found with
    | some fsb =>
      have howner := hop.covers.maps _ (treeLook_mem hlook)
      dsimp only
      rw [Prog.bind_ok (readFsb_ok hv (hvol.used fsb _ howner).2.1.2)]
      exact Prog.ends_ok.mpr ⟨O, Step.refl v L T i O s, hop⟩
    | none =>
      dsimp only
      rcases allocBlock_cases hv hL hvol.placed with ⟨p, s₁, hrun, htaken⟩ | hrun | ⟨e, s₁, he, hrun⟩
      · rw [Prog.bind_ok hrun]
        obtain ⟨hstep, hheld⟩ := htaken.step (T := T) hv hL hvol.toGood i
        have hvol₁ := hstep.vol hT (Or.inr rfl) hvol
        have hslot := hstep.touch.slots i hi.1
        have hins := insertExtent_step hv hL hT hvol₁ (hi.congr hslot)
          (hop.step hi.1 hstep) hheld
          (by
            intro _ hdir
            rw [inodeOf_congr hslot, hfile] at hdir
            cases hdir) hlb
        refine Prog.Ends.bind (Q := fun inode s' => ∃ O', Step v L T i O s O' s' ∧
          Opened v L O' i s' inode) (hins.weaken ?_ ?_) fun inode' s' h => Prog.ends_ok.mpr h
        · rintro inode' s' ⟨O', hstep', hop', -⟩
          exact ⟨O', hstep.trans hi.1 hstep', hop'⟩
        · rintro e s' (he | ⟨O', hstep'⟩)
          · exact Or.inl he
          · exact Or.inr ⟨O', hstep.trans hi.1 hstep'⟩
      · rw [Prog.bind_error hrun]
        exact Prog.ends_error.mpr (Or.inr ⟨O, Step.refl v L T i O s⟩)
      · rw [Prog.bind_error hrun]
        exact Prog.ends_error.mpr (Or.inl he)

/-- SOURCE: ext4.rs:1296-1312 -/
theorem writeTurn_works (hvol : Vol v L T O s) (hi : InUse v L s i) {inode : Inode}
    (hop : Opened v L O i s inode) (hfile : (inodeOf v L s i).isDir = false) (cur count : ℕ)
    (bytes : List UInt8) : Works v L T O i s id (writeTurn v inode cur count bytes s) := by
  unfold writeTurn
  refine Prog.Ends.bind (openBlock_works hv hL hT hvol hi hop hfile (Nat.mod_lt _ (by omega))) ?_
  rintro ⟨inode', blk⟩ s₁ ⟨O₁, hstep, hop'⟩
  have hvol₁ := hstep.vol hT (Or.inl hi) hvol
  have hslot := hstep.touch.slots i hi.1
  dsimp only at hop' ⊢
  cases hlook : treeLook v s₁ inode'.raw (cur / v.bs % 2 ^ 32) with
  | error e =>
    rw [Prog.bind_error (by rw [mapBlock_eq hv hop'.covers.ok, hlook])]
    exact Prog.ends_error.mpr (Or.inl (treeLook_skips hlook))
  | ok found =>
    rw [Prog.bind_ok (by rw [mapBlock_eq hv hop'.covers.ok, hlook])]
    cases found with
    | none => exact Prog.ends_error.mpr (Or.inr ⟨O₁, hstep⟩)
    | some fsb =>
      have howner := hop'.covers.maps _ (treeLook_mem hlook)
      dsimp only
      rw [Prog.bind_ok (writeFsb_ok hv (hvol₁.used fsb _ howner).2.1.2)]
      have hwrite := data_write (T := T) hv hL hvol₁.toGood howner
        (blk.blit (cur % v.bs) count fun k => bytes.getD k 0) fun _ hdir => by
          rw [inodeOf_congr hslot, hfile] at hdir
          cases hdir
      exact Prog.ends_ok.mpr ⟨O₁, hstep.trans hi.1 hwrite, hop'.step hi.1 hwrite⟩

/-- SOURCE: ext4.rs:1295-1313 -/
theorem writeLoop_works (fuel : ℕ) (hvol : Vol v L T O s) (hi : InUse v L s i) {inode : Inode}
    (hop : Opened v L O i s inode) (hfile : (inodeOf v L s i).isDir = false) (cur : ℕ)
    (bytes : List UInt8) : Works v L T O i s id (writeLoop v fuel inode cur bytes s) := by
  induction fuel generalizing O s inode cur bytes with
  | zero => exact Prog.ends_ok.mpr ⟨O, Step.refl v L T i O s, hop⟩
  | succ fuel ih =>
    unfold writeLoop
    by_cases hnil : bytes = []
    · rw [if_pos hnil]
      exact Prog.ends_ok.mpr ⟨O, Step.refl v L T i O s, hop⟩
    · rw [if_neg hnil]
      refine Prog.Ends.bind (writeTurn_works hv hL hT hvol hi hop hfile _ _ _) ?_
      rintro inode' s₁ ⟨O₁, hstep, hop'⟩
      have hslot := hstep.touch.slots i hi.1
      refine (ih (hstep.vol hT (Or.inl hi) hvol) (hi.congr hslot) hop'
        ((congrArg Inode.isDir (inodeOf_congr hslot)).trans hfile) _ _).weaken ?_ ?_
      · rintro inode'' s₂ ⟨O₂, hstep', hop''⟩
        exact ⟨O₂, hstep.trans hi.1 hstep', hop''⟩
      · rintro e s₂ (he | ⟨O₂, hstep'⟩)
        · exact Or.inl he
        · exact Or.inr ⟨O₂, hstep.trans hi.1 hstep'⟩

/-- The end of a call: the inode gets its count of blocks and is written. -/
theorem finish_inode (inode : Inode) (hvol : Vol v L T O s) (hi : InUse v L s i)
    (hino : inode.ino = i) (hcov : Covers v s O i inode.raw)
    (haround : SameAround (slot v L s i) inode.raw) (hmode : inode.mode = (inodeOf v L s i).mode)
    (hflags : inode.flags = (inodeOf v L s i).flags) :
    ∃ total, recountBlocks v inode s = (.ok total, s) ∧
      writeInode v { inode with blocks := total } s =
        (.ok (), putSlot v L s i (v.encodeInode { inode with blocks := total })) ∧
      Vol v L T O (putSlot v L s i (v.encodeInode { inode with blocks := total })) ∧
      InUse v L (putSlot v L s i (v.encodeInode { inode with blocks := total })) i := by
  obtain ⟨total, htotal⟩ := recountBlocks_ok hv hcov.ok
  have hlinks : linksOf inode.raw = linksOf (slot v L s i) :=
    Bytes.getLE_congr fun k hk => haround _ (Or.inl (by unfold iblock; omega))
  have hgen : inode.gen = genOf (slot v L s i) :=
    Bytes.getLE_congr fun k hk => haround _ (Or.inr (by unfold iblock; omega))
  exact ⟨total, htotal, writeInode_vol hv hL hT hvol { inode with blocks := total } hi hino hcov hgen
    (hlinks ▸ hi.2) hmode hflags⟩

theorem finish_vol (inode : Inode) (hvol : Vol v L T O s) (hi : InUse v L s i)
    (hop : Opened v L O i s inode) : ∃ total, (recountBlocks v inode >>= fun total =>
      writeInode v { inode with blocks := total }) s =
        (.ok (), putSlot v L s i (v.encodeInode { inode with blocks := total })) ∧
      Vol v L T O (putSlot v L s i (v.encodeInode { inode with blocks := total })) ∧
      InUse v L (putSlot v L s i (v.encodeInode { inode with blocks := total })) i := by
  obtain ⟨total, htotal, hrun, hvol', huse⟩ := finish_inode hv hL hT inode hvol hi hop.ino hop.covers
    hop.around hop.mode hop.flags
  exact ⟨total, (Prog.bind_ok htotal).trans hrun, hvol', huse⟩

theorem finish_settled (inode : Inode) (hvol : Vol v L T O s) (hi : InUse v L s i)
    (hop : Opened v L O i s inode) : ∃ s', (recountBlocks v inode >>= fun total =>
      writeInode v { inode with blocks := total }) s = (.ok (), s') ∧ Settled v L T s s' ∧
      InUse v L s' i := by
  obtain ⟨total, hrun, hvol', huse⟩ := finish_vol hv hL hT inode hvol hi hop
  exact ⟨_, hrun, ⟨⟨O, hvol'⟩, (sameBooks_putSlot hv hL hi.1).accounts hL⟩, huse⟩

/-- SOURCE: ext4.rs:1282-1320 -/
theorem writeFile_settled (hvol : Vol v L T O s) (hok : Workable v L s i) (offset : ℕ)
    (buf : List UInt8) :
    Prog.Ends (fun _ s' => Settled v L T s s') (fun e s' => Skips e ∨ Settled v L T s s')
      (writeFile v i offset buf s) := by
  have hsame : Settled v L T s s := ⟨⟨O, hvol⟩, id⟩
  unfold writeFile
  by_cases hnil : buf = []
  · rw [if_pos hnil]
    exact Prog.ends_ok.mpr hsame
  rw [if_neg hnil]
  by_cases hino : IsInode v i
  · obtain ⟨hi, hdepth⟩ := hok hino
    rw [Prog.bind_ok (readInode_ok hv hL hvol.placed hino)]
    cases hfile : (inodeOf v L s i).isFile with
    | false =>
      rw [if_pos rfl]
      exact Prog.ends_error.mpr (Or.inr hsame)
    | true =>
      rw [if_neg (by simp)]
      by_cases hbig : 2 ^ 64 ≤ offset + buf.length
      · rw [if_pos hbig]
        exact Prog.ends_error.mpr (Or.inl trivial)
      rw [if_neg hbig]
      have hdir := not_isDir_of_isFile hfile
      refine Prog.Ends.bind ((writeLoop_works hv hL hT buf.length hvol hi
        (opened_slot hvol hi hdepth) hdir offset buf).weaken (fun _ _ => id) ?_) ?_
      · rintro e s₁ (he | ⟨O₁, hstep⟩)
        · exact Or.inl he
        · exact Or.inr (hstep.settled hT hvol hi)
      · rintro inode s₁ ⟨O₁, hstep, hop⟩
        have hset := hstep.settled hT hvol hi
        have hi₁ := hi.congr (hstep.touch.slots i hino)
        obtain ⟨s₂, hrun, hset₂, -⟩ := finish_settled hv hL hT
          { inode with size := max inode.size (offset + buf.length) }
          (hstep.vol hT (Or.inl hi) hvol) hi₁
          ⟨hop.ino, hop.covers, hop.shallow, hop.around, hop.mode, hop.flags⟩
        dsimp only at hrun ⊢
        rw [hrun]
        exact Prog.ends_ok.mpr (hset.trans hset₂)
  · by_cases hzero : i = 0
    · subst hzero
      rw [Prog.bind_error (show readInode v 0 s = (.error (.fault .overflow), s) from rfl)]
      exact Prog.ends_error.mpr (Or.inl trivial)
    · rw [Prog.bind_error (readInode_outside hino hv hzero)]
      exact Prog.ends_error.mpr (Or.inr hsame)

end Write

/-! ## Adding a directory entry -/

section Entries

variable (hv : GeometryOk v) (hL : LayoutOk v L) (hT : T → v.metaCsum = true)

include hv in
/-- The block with room for an entry is one of the directory's. -/
theorem slotLoop_ends {inode : Inode} (hvol : Vol v L T O s) (hcov : Covers v s O i inode.raw)
    (needed n lb : ℕ) :
    Prog.Ends (fun r s' => s = s' ∧ ∀ fsb blk slot, r = some (fsb, blk, slot) →
      ∃ lb, O fsb = some (.data i lb)) (fun e _ => Skips e) (slotLoop v inode needed n lb s) := by
  induction n generalizing lb with
  | zero => exact Prog.ends_ok.mpr ⟨rfl, fun _ _ _ h => nomatch h⟩
  | succ n ih =>
    unfold slotLoop
    cases hlook : treeLook v s inode.raw (lb % 2 ^ 32) with
    | error e =>
      rw [Prog.bind_error (by rw [mapBlock_eq hv hcov.ok, hlook])]
      exact Prog.ends_error.mpr (treeLook_skips hlook)
    | ok found =>
      rw [Prog.bind_ok (by rw [mapBlock_eq hv hcov.ok, hlook])]
      cases found with
      | none => exact ih (lb + 1)
      | some fsb =>
        have howner := hcov.maps _ (treeLook_mem hlook)
        dsimp only
        rw [Prog.bind_ok (readFsb_ok hv (hvol.used fsb _ howner).2.1.2)]
        cases findSlot v (block v s fsb) needed (maxBlockSize + 1) 0 0 0 0 with
        | none => exact ih (lb + 1)
        | some slot =>
          refine Prog.ends_ok.mpr ⟨rfl, ?_⟩
          rintro fsb' blk' slot' heq
          cases heq
          exact ⟨_, howner⟩

theorem fillEntry_cases (b : Bytes) (pos reclen ino ft : ℕ) (name : List UInt8) (s : FsState) :
    (∃ b', fillEntry b pos reclen ino ft name s = (.ok b', s)) ∨
      ∃ e, Skips e ∧ fillEntry b pos reclen ino ft name s = (.error e, s) := by
  unfold fillEntry
  split
  · exact Or.inr ⟨.fault .outOfBounds, trivial, rfl⟩
  · exact Or.inl ⟨_, rfl⟩

theorem reads_fillEntry (b : Bytes) (pos reclen ino ft : ℕ) (name : List UInt8) :
    Prog.Reads (fillEntry b pos reclen ino ft name) :=
  Prog.Reads.ite (Prog.reads_fail _) (Prog.reads_pure _)

theorem reads_fillSlot (b : Bytes) (slot : DirSlot) (target ft : ℕ) (name : List UInt8) :
    Prog.Reads (fillSlot b slot target ft name) := by
  cases slot with
  | unused pos reclen => exact reads_fillEntry _ _ _ _ _ _
  | behind lastPos lastActual slack => exact reads_fillEntry _ _ _ _ _ _

theorem fillSlot_cases (b : Bytes) (slot : DirSlot) (target ft : ℕ) (name : List UInt8)
    (s : FsState) : (∃ b', fillSlot b slot target ft name s = (.ok b', s)) ∨
      ∃ e, Skips e ∧ fillSlot b slot target ft name s = (.error e, s) := by
  cases slot with
  | unused pos reclen => exact fillEntry_cases ..
  | behind lastPos lastActual slack => exact fillEntry_cases ..

include hv hL hT

/-- SOURCE: ext4.rs:1234-1245 -/
theorem growDir_settled (hvol : Vol v L T O s) (hi : InUse v L s i) {inode : Inode}
    (hop : Opened v L O i s inode) (blocks target ft : ℕ) (name : List UInt8) :
    Prog.Ends (fun _ s' => Settled v L T s s' ∧ InUse v L s' i)
      (fun e s' => Skips e ∨ Settled v L T s s') (growDir v inode blocks target ft name s) := by
  unfold growDir
  rcases allocBlock_cases hv hL hvol.placed with ⟨p, s₁, hrun, htaken⟩ | hrun | ⟨e, s₁, he, hrun⟩
  · rw [Prog.bind_ok hrun]
    obtain ⟨hstep₁, hheld⟩ := htaken.step (T := T) hv hL hvol.toGood i
    have hvol₁ := hstep₁.vol hT (Or.inr rfl) hvol
    rcases fillEntry_cases (fun _ => 0) 0 v.dirLimit target ft name s₁ with
      ⟨nb, hfill⟩ | ⟨e, he, hfill⟩
    · rw [Prog.bind_ok hfill, Prog.bind_ok (writeFsb_ok hv hheld.isBlock.2)]
      obtain ⟨hstep₂, hheld₂⟩ := hheld.write (T := T) hv hL hvol₁.toGood i
        (v.dirTailCsum inode.ino inode.gen nb)
      have hvol₂ := hstep₂.vol hT (Or.inr rfl) hvol₁
      have hstep := hstep₁.trans hi.1 hstep₂
      have hslot := hstep.touch.slots i hi.1
      have hi₂ := hi.congr hslot
      have hins := insertExtent_step hv hL hT hvol₂ hi₂
        (hop.step hi.1 hstep) hheld₂
        (by
          intro ht _
          rw [hslot, block_setBlock_self, hop.ino, hop.gen_eq]
          exact dirSum_tail hv (hT ht))
        (show blocks % 2 ^ 32 < 2 ^ 32 from Nat.mod_lt _ (by omega))
      refine Prog.Ends.bind (hins.weaken (fun _ _ => id) ?_) ?_
      · rintro e s₃ (he | ⟨O₃, hstep₃⟩)
        · exact Or.inl he
        · exact Or.inr ((hstep.trans hi.1 hstep₃).settled hT hvol hi)
      · rintro inode' s₃ ⟨O₃, hstep₃, hop₃, -⟩
        have hall := hstep.trans hi.1 hstep₃
        obtain ⟨s₄, hrun₄, hset₄, huse₄⟩ := finish_settled hv hL hT
          { inode' with size := inode'.size + v.bs }
          (hall.vol hT (Or.inl hi) hvol) (hi.congr (hall.touch.slots i hi.1))
          ⟨hop₃.ino, hop₃.covers, hop₃.shallow, hop₃.around, hop₃.mode, hop₃.flags⟩
        dsimp only at hrun₄ ⊢
        rw [hrun₄]
        exact Prog.ends_ok.mpr ⟨(hall.settled hT hvol hi).trans hset₄, huse₄⟩
    · rw [Prog.bind_error hfill]
      exact Prog.ends_error.mpr (Or.inl he)
  · rw [Prog.bind_error hrun]
    exact Prog.ends_error.mpr (Or.inr ⟨⟨O, hvol⟩, id⟩)
  · rw [Prog.bind_error hrun]
    exact Prog.ends_error.mpr (Or.inl he)

/-- SOURCE: ext4.rs:1180-1246 -/
theorem addDirent_settled (hvol : Vol v L T O s) (hi : InUse v L s i)
    (hdepth : HasMagic (slot v L s i) iblock → rootDepth (slot v L s i) ≤ 1) (name : List UInt8)
    (target ft : ℕ) :
    Prog.Ends (fun _ s' => Settled v L T s s' ∧ InUse v L s' i)
      (fun e s' => Skips e ∨ Settled v L T s s') (addDirent v i name target ft s) := by
  have hsame : Settled v L T s s := ⟨⟨O, hvol⟩, id⟩
  have hop := opened_slot hvol hi hdepth
  unfold addDirent
  by_cases hname : name = [] ∨ 255 < name.length
  · rw [if_pos hname]
    exact Prog.ends_error.mpr (Or.inr hsame)
  rw [if_neg hname, Prog.bind_ok (readInode_ok hv hL hvol.placed hi.1)]
  by_cases hdir : (inodeOf v L s i).isDir = false
  · rw [if_pos hdir]
    exact Prog.ends_error.mpr (Or.inr hsame)
  rw [if_neg hdir]
  by_cases hindexed : (inodeOf v L s i).flags &&& 0x1000 ≠ 0
  · rw [if_pos hindexed]
    exact Prog.ends_error.mpr (Or.inr hsame)
  rw [if_neg hindexed]
  refine Prog.Ends.bind (Q := fun _ s' => s = s') ?_ ?_
  · unfold dirBlocks
    split
    · exact Prog.ends_error.mpr (Or.inl trivial)
    · exact Prog.ends_ok.mpr rfl
  rintro blocks _ rfl
  refine Prog.Ends.bind ((slotLoop_ends hv hvol hop.covers _ blocks 0).weaken (fun _ _ => id)
    fun _ _ => Or.inl) ?_
  rintro found _ ⟨rfl, hfound⟩
  match found, hfound with
  | none, _ => exact growDir_settled hv hL hT hvol hi hop blocks target ft name
  | some (fsb, blk, slot), hfound =>
    obtain ⟨lb, howner⟩ := hfound fsb blk slot rfl
    dsimp only
    rcases fillSlot_cases blk slot target ft name s with ⟨blk', hfill⟩ | ⟨e, he, hfill⟩
    · rw [Prog.bind_ok hfill, writeFsb_ok hv (hvol.used fsb _ howner).2.1.2]
      have hstep := data_write (T := T) hv hL hvol.toGood howner
        (v.dirTailCsum (inodeOf v L s i).ino (inodeOf v L s i).gen blk') fun ht _ => by
          rw [hop.gen_eq]
          exact dirSum_tail hv (hT ht)
      exact Prog.ends_ok.mpr ⟨hstep.settled hT hvol hi, hi.congr (hstep.touch.slots i hi.1)⟩
    · rw [Prog.bind_error hfill]
      exact Prog.ends_error.mpr (Or.inl he)

end Entries

/-- A volume of eight blocks and one group, for small samples. -/
def tinyVolume : Ext4 := sampleVolume 1 8 8

end Pinx.Analysis
