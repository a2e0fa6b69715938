import Pinx.Analysis.DirChain
import Pinx.Analysis.Ext4Calls

/-!
# Creating files and directories

`create` takes an inode that nothing uses, gives a new directory its first block, writes
the inode and then adds the entry.  Until the inode is written the first block belongs to
nobody, and if the call stops before that the inode still has no links.
-/

namespace Pinx.Analysis

open Pinx.Foundation Pinx.Model

variable {v : Ext4} {L : Layout} {s s' s₁ : FsState} {O O' : ℕ → Option Use} {T : Prop}
  {i j lb p dir : ℕ} {raw : Bytes}

/-! ## A new inode -/

theorem newInode_head (ino : ℕ) (isDir : Bool) :
    HeadOk (newInode ino isDir).raw iblock 4 0 ∧ leafRecs (newInode ino isDir).raw iblock = [] := by
  have hagree : NodeAgree (newInode ino isDir).raw (wrHdr (fun _ => 0) iblock 0 4 0) iblock iblock 0 := by
    intro k hk
    unfold newInode iblock
    dsimp only
    rw [Bytes.putLE_outside (by omega), Bytes.putLE_outside (by omega)]
  have hhead : HeadOk (wrHdr (fun _ => 0) iblock 0 4 0) iblock 4 0 :=
    headOk_wrHdr (by omega) (by omega) (by omega) (by omega) (by omega)
  refine ⟨hhead.of_header hagree, ?_⟩
  rw [leafRecs, hagree.hdrOf_eq, hdrOf_wrHdr (by omega) (by omega) (by omega)]
  rfl

/-- A root with one record. -/
theorem oneRecord_head (raw : Bytes) {e : Extent} (he : Fits e) :
    HeadOk (wrExtent (wrHdr raw iblock 1 4 0) iblock 0 e) iblock 4 0 ∧
      leafRecs (wrExtent (wrHdr raw iblock 1 4 0) iblock 0 e) iblock = [e] ∧
      SameAround raw (wrExtent (wrHdr raw iblock 1 4 0) iblock 0 e) := by
  have hagree : NodeAgree (wrExtent (wrHdr raw iblock 1 4 0) iblock 0 e) (wrHdr raw iblock 1 4 0)
      iblock iblock 0 := fun k hk => wrExtent_outside (by omega)
  have hhead : HeadOk (wrHdr raw iblock 1 4 0) iblock 4 0 :=
    headOk_wrHdr (by omega) (by omega) (by omega) (by omega) (by omega)
  refine ⟨hhead.of_header hagree, ?_, fun k hk => ?_⟩
  · rw [leafRecs, hagree.hdrOf_eq, hdrOf_wrHdr (by omega) (by omega) (by omega)]
    exact recordsOf_wrExtent (n := 0) he
  · rw [wrExtent_outside (by omega), wrHdr_outside (by omega)]

/-- The root of a new directory: one record for its first block. -/
def firstRoot (raw : Bytes) (p : ℕ) : Bytes :=
  wrExtent (wrHdr raw iblock 1 4 0) iblock 0 ⟨0, 1, p⟩

theorem firstRoot_head (raw : Bytes) (hp : p < 2 ^ 48) :
    HeadOk (firstRoot raw p) iblock 4 0 ∧ leafRecs (firstRoot raw p) iblock = [⟨0, 1, p⟩] ∧
      SameAround raw (firstRoot raw p) :=
  oneRecord_head raw ⟨show 0 < 2 ^ 32 by omega, show 1 < 2 ^ 16 by omega, hp⟩

theorem newInode_around (ino : ℕ) (isDir : Bool) (hraw : SameAround (newInode ino isDir).raw raw) :
    linksOf raw ≠ 0 ∧ genOf raw = 0 := by
  constructor
  · have hlinks : linksOf raw = if isDir then 2 else 1 := by
      refine (Bytes.getLE_congr fun k hk => hraw _ (Or.inl ?_)).trans ?_
      · unfold iblock
        omega
      · unfold newInode
        dsimp only
        rw [Bytes.getLE_putLE_outside (by omega), Bytes.getLE_putLE]
        cases isDir <;> rfl
    rw [hlinks]
    cases isDir <;> decide
  · refine (Bytes.getLE_congr fun k hk => hraw _ (Or.inr ?_)).trans
      (Bytes.getLE_eq_zero fun k hk => ?_)
    · unfold iblock
      omega
    · unfold newInode
      dsimp only
      rw [Bytes.putLE_outside (by omega), Bytes.putLE_outside (by omega),
        wrHdr_outside (by unfold iblock; omega)]

/-! ## Taking the inode and its first block -/

section Fresh

variable (hv : GeometryOk v) (hL : LayoutOk v L) (hT : T → v.metaCsum = true)
include hv hL hT

theorem InodeTaken.vol (h : InodeTaken v L i s s') (hvol : Vol v L T O s) : Vol v L T O s' := by
  have hslot : ∀ j, IsInode v j → slot v L s' j = slot v L s j := fun j => h.toKept.slot_eq hv hL
  have hblock : ∀ p u, O p = some u → block v s' p = block v s p := fun p u hp =>
    h.toKept.data_eq (hvol.used p u hp).2.2.1
  refine ⟨⟨h.keepsPlaced hL hvol.toPlaced, fun p u hp => ?_, fun j hj => ?_, fun j hj => ?_⟩,
    fun ht => ⟨h.sums (hT ht) (hvol.checked ht).metadata, fun j hj => ?_, fun n j hn => ?_,
      fun p j lb hp hdir htail => ?_⟩⟩
  · obtain ⟨huse, hisBlock, hrole, hmark⟩ := hvol.used p u hp
    exact ⟨huse.congr (hslot _ huse.1), hisBlock, hrole, (h.marks p hisBlock).trans hmark⟩
  · rw [hslot j hj.1]
    exact (hvol.slots j (hj.congr (hslot j hj.1).symm)).step (fun _ _ => id) fun n hn =>
      Or.inl (hblock n _ hn)
  · rw [h.inodes j hj.1, hvol.inodes j (hj.congr (hslot j hj.1).symm), Bool.true_or]
  · rw [hslot j hj.1]
    exact (hvol.checked ht).inodes j (hj.congr (hslot j hj.1).symm)
  · rw [hblock n _ hn, hslot j (hvol.used n _ hn).1.1]
    exact (hvol.checked ht).nodes n j hn
  · have hj := hslot j (hvol.used p _ hp).1.1
    rw [inodeOf_congr hj] at hdir htail
    rw [hblock p _ hp] at htail ⊢
    rw [hj]
    exact (hvol.checked ht).dirs p j lb hp hdir htail

/-- The two entries of a new directory. -/
def dotsBlock (v : Ext4) (i dir : ℕ) : Bytes :=
  putEntry (putEntry (fun _ => 0) 0 12 i 2 [0x2E]) 12 (v.dirLimit - 12) dir 2 [0x2E, 0x2E]

/-- A new directory has its first block. -/
theorem firstDirBlock_ends (hvol : Vol v L T O s) (hi : IsInode v i) (dir : ℕ) :
    Prog.Ends (fun inode s' => Step v L T i O s O s' ∧ ∃ p, Held v L O s' p ∧
        block v s' p = Bytes.clip v.bs (v.dirTailCsum i 0 (dotsBlock v i dir)) ∧
        (∀ q u, O q = some u → block v s' q = block v s q) ∧
        (∀ k q, Takes v L s' k q ↔ Takes v L s (k + 1) q) ∧ inode = { newInode i true with
          size := v.bs
          blocks := v.bs / 512
          raw := firstRoot (newInode i true).raw p })
      (fun e s' => Skips e ∨ Settled v L T s s') (firstDirBlock v (newInode i true) dir s) := by
  unfold firstDirBlock
  rcases allocBlock_cases hv hL hvol.placed with ⟨p, s₁, hrun, htaken⟩ | hrun | ⟨e, s₁, he, hrun⟩
  · obtain ⟨hstep₁, hheld⟩ := htaken.step (T := T) hv hL hvol.toGood i
    have hvol₁ := hstep₁.vol hT (Or.inr rfl) hvol
    rw [Prog.bind_ok hrun, Prog.bind_ok (fillEntry_ok s₁ (by decide)),
      Prog.bind_ok (fillEntry_ok s₁ (by decide)), Prog.bind_ok (writeFsb_ok hv hheld.isBlock.2)]
    obtain ⟨hstep₂, hheld₂⟩ := hheld.write (T := T) hv hL hvol₁.toGood i
      (v.dirTailCsum (newInode i true).ino 0 (dotsBlock v i dir))
    refine Prog.ends_ok.mpr ⟨hstep₁.trans hi hstep₂, p, hheld₂, block_setBlock_self,
      fun q u hq => ?_, fun k q => ?_, rfl⟩
    · rw [block_setBlock_ne, htaken.data_eq (hvol.used q u hq).2.2.1]
      rintro rfl
      rw [hheld.free] at hq
      cases hq
    · rw [(sameBooks_setBlock _ (not_bookkeeping_data hheld.role)).takes_iff hv hL hvol₁.placed,
        htaken.takes_next hv hvol.placed]
  · rw [Prog.bind_error hrun]
    exact Prog.ends_error.mpr (Or.inr ⟨⟨O, hvol⟩, id⟩)
  · rw [Prog.bind_error hrun]
    exact Prog.ends_error.mpr (Or.inl he)

/-- A new inode is written over one that was not in use. -/
theorem writeNew_vol (inode : Inode) (isDir : Bool) (hvol : Vol v L T O s) (hi : IsInode v i)
    (hunused : ¬InUse v L s i) (hmark : inodeMarked v L s i = true) (hino : inode.ino = i)
    (haround : SameAround (newInode i isDir).raw inode.raw) (hcov : Covers v s O' i inode.raw)
    (hext : ∀ p u, O p = some u → O' p = some u)
    (hnew : ∀ p u, O' p = some u → O p = some u ∨ u = .data i 0 ∧ Held v L O s p ∧
      (T → DirSum v i 0 (block v s p))) :
    writeInode v inode s = (.ok (), putSlot v L s i (v.encodeInode inode)) ∧
      Vol v L T O' (putSlot v L s i (v.encodeInode inode)) := by
  obtain ⟨hlinks, hgen⟩ := newInode_around i isDir haround
  have hgen' : genOf (v.encodeInode inode) = 0 := (genOf_encode inode).trans hgen
  -- nothing belonged to the inode before
  have hnone : ∀ p u, O p = some u → u.ino ≠ i := by
    intro p u hp heq
    exact hunused (heq ▸ (hvol.used p u hp).1)
  have hfits : SlotFits v T O' s i (v.encodeInode inode) := by
    refine ⟨?_, hcov.agree (nodeAgree_encode inode), fun ht => ?_, fun ht n hn => ?_,
      fun ht _ p lb hp _ => ?_⟩
    · rw [linksOf_encode]
      exact hlinks
    · rw [← hino]
      exact inodeSum_encode hv (hT ht) inode
    · rcases hnew n _ hn with hold | ⟨hu, -⟩
      · exact absurd rfl (hnone n _ hold)
      · cases hu
    · rcases hnew p _ hp with hold | ⟨-, -, hsum⟩
      · exact absurd rfl (hnone p _ hold)
      · rw [hgen']
        exact hsum ht
  refine ⟨?_, putSlot_vol hv hL hvol hi hmark hext (fun p u hp => ?_) hfits⟩
  · rw [writeInode_ok hv hL hvol.placed (hino ▸ hi), hino]
    rfl
  · rcases hnew p u hp with hold | ⟨rfl, hheld, -⟩
    · exact Or.inl hold
    · exact Or.inr ⟨rfl, hheld.isBlock, hheld.role, hheld.mark⟩

/-- A volume in which all inodes that were in use are as they were. -/
structure Created (v : Ext4) (L : Layout) (T : Prop) (s s' : FsState) : Prop
    extends Settled v L T s s' where
  slots : ∀ j, InUse v L s j → slot v L s' j = slot v L s j

omit hT in
/-- The inode that was taken is written, in a state after `s`. -/
theorem created_putSlot (hi : IsInode v i) (hunused : ¬InUse v L s i)
    (hslot : ∀ j, IsInode v j → slot v L s₁ j = slot v L s j)
    (hacct : Accounts v L s → Accounts v L s₁) (hvol : Vol v L T O' (putSlot v L s₁ i raw)) :
    Created v L T s (putSlot v L s₁ i raw) := by
  refine ⟨⟨⟨O', hvol⟩, fun h => (sameBooks_putSlot hv hL hi).accounts hL (hacct h)⟩, fun j hj => ?_⟩
  have hne : j ≠ i := by
    rintro rfl
    exact hunused hj
  rw [slot_putSlot hv hL hi hj.1, if_neg hne, hslot j hj.1]

/-- A new directory with its two entries. -/
def HasDots (v : Ext4) (L : Layout) (O : ℕ → Option Use) (dir i : ℕ) (s : FsState) : Prop :=
  ∃ p, p < 2 ^ 48 ∧ O p = some (.data i 0) ∧
    NodeAgree (firstRoot (newInode i true).raw p) (slot v L s i) iblock iblock 4 ∧
    (inodeOf v L s i).mode = (newInode i true).mode ∧ (inodeOf v L s i).size = v.bs ∧
    block v s p = Bytes.clip v.bs (v.dirTailCsum i 0 (dotsBlock v i dir))

/-- Inode `i`, which was free, is in use, and everything that was in use is as it was. -/
structure Made (v : Ext4) (L : Layout) (T : Prop) (O : ℕ → Option Use) (dir : ℕ) (isDir : Bool)
    (i : ℕ) (s : FsState) (O' : ℕ → Option Use) (s' : FsState) : Prop
    extends Created v L T s s' where
  sound : Vol v L T O' s'
  ext : ∀ p u, O p = some u → O' p = some u
  blocks : ∀ p u, O p = some u → block v s' p = block v s p
  inUse : InUse v L s' i
  unmarked : inodeMarked v L s i = false
  takes : ∀ k p, Takes v L s' k p ↔ Takes v L s (k + if isDir then 1 else 0) p
  dots : isDir = true → HasDots v L O' dir i s'

omit hT in
theorem inUse_written (inode : Inode) (isDir : Bool) (hi : IsInode v i)
    (haround : SameAround (newInode i isDir).raw inode.raw) :
    InUse v L (putSlot v L s i (v.encodeInode inode)) i := by
  refine ⟨hi, ?_⟩
  have hlinks := (newInode_around i isDir haround).1
  rw [slot_putSlot hv hL hi hi, if_pos rfl]
  unfold linksOf at hlinks ⊢
  rw [clip_fields v hv _ (by omega)]
  exact (linksOf_encode inode).trans_ne hlinks

/-- SOURCE: ext4.rs:1325-1355 -/
theorem makeInode_ends (hvol : Vol v L T O s) (dir : ℕ) (isDir : Bool)
    (htaken : InodeTaken v L i s s₁) :
    Prog.Ends (fun k s' => k = i ∧ ∃ O', Made v L T O dir isDir i s O' s')
      (fun e s' => Skips e ∨ Settled v L T s s')
      ((do
        let inode ← if isDir then firstDirBlock v (newInode i isDir) dir else pure (newInode i isDir)
        writeInode v inode
        return i : Fs ℕ) s₁) := by
  have hi := htaken.isInode
  have hvol₁ := htaken.vol hv hL hT hvol
  have hslot₁ : ∀ j, IsInode v j → slot v L s₁ j = slot v L s j := fun j =>
    htaken.toKept.slot_eq hv hL
  have hblock₁ : ∀ p u, O p = some u → block v s₁ p = block v s p := fun p u hp =>
    htaken.data_eq (hvol.used p u hp).2.2.1
  have hunused : ¬InUse v L s i := by
    intro huse
    have hmark := hvol.inodes i huse
    rw [htaken.fresh] at hmark
    cases hmark
  have hmark₁ : inodeMarked v L s₁ i = true := by
    rw [htaken.inodes i hi, decide_eq_true rfl, Bool.or_true]
  have htakes : ∀ {s₂ : FsState} {raw : Bytes} (k p : ℕ), PlacedAt v L s₂ →
      (Takes v L (putSlot v L s₂ i raw) k p ↔ Takes v L s₂ k p) := fun k p hp =>
    (sameBooks_putSlot hv hL hi).takes_iff hv hL hp
  cases isDir with
  | false =>
    rw [if_neg (by simp), Prog.bind_ok (Prog.pure_apply _ _)]
    obtain ⟨hhead, hrecs⟩ := newInode_head i false
    have hcov : Covers v s₁ O i (newInode i false).raw := by
      refine covers_flat hhead fun x hx => ?_
      rw [hrecs] at hx
      cases hx
    obtain ⟨hwrite, hvol₂⟩ := writeNew_vol hv hL hT _ false hvol₁ hi
      (fun h => hunused (h.congr (hslot₁ i hi).symm)) hmark₁ rfl (fun _ _ => rfl) hcov
      (fun _ _ => id) fun _ _ => Or.inl
    show Prog.Ends _ _ ((writeInode v (newInode i false) >>= fun _ => pure i) s₁)
    rw [Prog.bind_ok hwrite]
    refine Prog.ends_ok.mpr ⟨rfl, O, created_putSlot hv hL hi hunused hslot₁ htaken.accounts hvol₂, hvol₂,
      fun _ _ => id, fun p u hp => ?_, inUse_written hv hL _ false hi (fun _ _ => rfl), htaken.fresh,
      fun k p => ?_, fun h => nomatch h⟩
    · rw [block_putSlot hv hL hi (hvol.used p u hp).2.2.1, hblock₁ p u hp]
    · rw [htakes k p hvol₁.placed, htaken.takes_iff hv hvol.placed]
      rfl
  | true =>
    rw [if_pos rfl]
    refine Prog.Ends.bind ((firstDirBlock_ends hv hL hT hvol₁ hi dir).weaken (fun _ _ => id) ?_) ?_
    · rintro e s₂ (he | hset)
      · exact Or.inl he
      · exact Or.inr ⟨hset.vol, hset.accounts ∘ htaken.accounts⟩
    · rintro inode s₂ ⟨hstep, p, hheld, hblock, hkeep, hnext, rfl⟩
      have hvol₂ := hstep.vol hT (Or.inr rfl) hvol₁
      have hslot₂ : ∀ j, IsInode v j → slot v L s₂ j = slot v L s j := fun j hj =>
        (hstep.touch.slots j hj).trans (hslot₁ j hj)
      have hp : p < 2 ^ 48 := hheld.isBlock.2.trans_le hv.blocks
      obtain ⟨hhead, hrecs, haround⟩ := firstRoot_head (newInode i true).raw hp
      have hcov : Covers v s₂ (give O p (.data i 0)) i (firstRoot (newInode i true).raw p) := by
        refine covers_flat hhead fun x hx => ?_
        rw [hrecs] at hx
        have hx' : x = (0, p) := by simpa [extentMaps] using hx
        rw [hx']
        exact give_self O p _
      have hnew : ∀ q u, give O p (.data i 0) q = some u → O q = some u ∨ u = .data i 0 ∧
          Held v L O s₂ q ∧ (T → DirSum v i 0 (block v s₂ q)) := by
        intro q u hq
        rcases give_cases hq with ⟨rfl, rfl⟩ | ⟨-, hold⟩
        · refine Or.inr ⟨rfl, hheld, fun ht => ?_⟩
          rw [hblock]
          exact dirSum_tail hv (hT ht)
        · exact Or.inl hold
      obtain ⟨hwrite, hvol₃⟩ := writeNew_vol hv hL hT
        { newInode i true with
          size := v.bs
          blocks := v.bs / 512
          raw := firstRoot (newInode i true).raw p } true hvol₂ hi
        (fun h => hunused (h.congr (hslot₂ i hi).symm))
        ((hstep.touch.inodes i hi).trans hmark₁) rfl haround hcov (give_ext hheld.free) hnew
      show Prog.Ends _ _ ((writeInode v _ >>= fun _ => pure i) s₂)
      rw [Prog.bind_ok hwrite]
      obtain ⟨hagree, hinode⟩ := slot_written (s := s₂) hv hL hi
        { newInode i true with
          size := v.bs
          blocks := v.bs / 512
          raw := firstRoot (newInode i true).raw p }
      obtain ⟨hmode, -, hsize⟩ := parseInode_encode (v := v) { newInode i true with
          size := v.bs
          blocks := v.bs / 512
          raw := firstRoot (newInode i true).raw p } i
      have hbs := hv.bs_le
      refine Prog.ends_ok.mpr ⟨rfl, _, created_putSlot hv hL hi hunused hslot₂
        (hstep.touch.accounts ∘ htaken.accounts) hvol₃, hvol₃, give_ext hheld.free,
        fun q u hq => ?_, inUse_written hv hL _ true hi haround, htaken.fresh, fun k q => ?_,
        fun _ => ⟨p, hp, give_self O p _, hagree, ?_, ?_, ?_⟩⟩
      · rw [block_putSlot hv hL hi (hvol.used q u hq).2.2.1, hkeep q u hq, hblock₁ q u hq]
      · rw [htakes k q hvol₂.placed, hnext k q, htaken.takes_iff hv hvol.placed]
        rfl
      · rw [hinode, hmode]
        exact Nat.mod_eq_of_lt (show 0x4000 ||| 0o755 < 2 ^ 16 by simp)
      · rw [hinode, hsize]
        refine Nat.mod_eq_of_lt ?_
        unfold maxBlockSize at hbs
        show v.bs < _
        split <;> omega
      · rw [block_putSlot hv hL hi hheld.role, hblock]

/-- SOURCE: ext4.rs:1325-1355 -/
theorem createInode_made (hvol : Vol v L T O s) (dir : ℕ) (name : List UInt8) (isDir : Bool) :
    Prog.Ends (fun i s' => lookup v dir name s = (.ok none, s) ∧ ∃ O', Made v L T O dir isDir i s O' s')
      (fun e s' => Skips e ∨ Settled v L T s s') (createInode v dir name isDir s) := by
  have hsame : Settled v L T s s := ⟨⟨O, hvol⟩, id⟩
  have hread := (reads_lookup v dir name).eq s
  unfold createInode
  cases hlook : (lookup v dir name s).1 with
  | error e =>
    rw [hlook] at hread
    rw [Prog.bind_error hread]
    exact Prog.ends_error.mpr (Or.inr hsame)
  | ok found =>
    rw [hlook] at hread
    rw [Prog.bind_ok hread]
    cases found with
    | some k => exact Prog.ends_error.mpr (Or.inr hsame)
    | none =>
      dsimp only
      rcases allocInode_cases hv hL hvol.placed isDir with
        ⟨i, s₁, hrun, htaken⟩ | hrun | ⟨e, s₁, he, hrun⟩
      · rw [Prog.bind_ok hrun]
        refine (makeInode_ends hv hL hT hvol dir isDir htaken).weaken ?_ fun _ _ => id
        rintro k s' ⟨rfl, hmade⟩
        exact ⟨hread, hmade⟩
      · rw [Prog.bind_error hrun]
        exact Prog.ends_error.mpr (Or.inr hsame)
      · rw [Prog.bind_error hrun]
        exact Prog.ends_error.mpr (Or.inl he)

theorem createInode_ends (hvol : Vol v L T O s) (dir : ℕ) (name : List UInt8) (isDir : Bool) :
    Prog.Ends (fun _ s' => Created v L T s s') (fun e s' => Skips e ∨ Settled v L T s s')
      (createInode v dir name isDir s) :=
  (createInode_made hv hL hT hvol dir name isDir).weaken
    (fun _ _ ⟨_, _, hmade⟩ => hmade.toCreated) fun _ _ => id

/-! ## The whole call -/

/-- SOURCE: ext4.rs:1359-1364 -/
theorem linkParent_ends (hvol : Vol v L T O s) (hi : InUse v L s i) :
    Prog.Ends (fun _ s' => ∃ raw, NodeAgree (slot v L s i) raw iblock iblock 4 ∧
        s' = putSlot v L s i (v.encodeInode { inodeOf v L s i with raw := raw }) ∧
        Vol v L T O s' ∧ InUse v L s' i)
      (fun e _ => Skips e) (linkParent v i s) := by
  have hraw : (inodeOf v L s i).raw = slot v L s i := Bytes.clip_clip _
  unfold linkParent
  rw [Prog.bind_ok (readInode_ok hv hL hvol.placed hi.1), hraw]
  by_cases hfull : (slot v L s i).getLE 0x1A 2 + 1 = 2 ^ 16
  · rw [if_pos hfull]
    exact Prog.ends_error.mpr trivial
  rw [if_neg hfull]
  have hlt : (slot v L s i).getLE 0x1A 2 < 2 ^ 16 := Bytes.getLE_lt _ _ 2
  have hagree : NodeAgree (slot v L s i)
      ((slot v L s i).putLE 0x1A 2 ((slot v L s i).getLE 0x1A 2 + 1)) iblock iblock 4 := by
    intro k hk
    refine (Bytes.putLE_outside ?_).symm
    unfold iblock
    omega
  obtain ⟨hwrite, hvol', huse⟩ := writeInode_vol hv hL hT hvol { inodeOf v L s i with
      raw := (slot v L s i).putLE 0x1A 2 ((slot v L s i).getLE 0x1A 2 + 1) } hi rfl
    ((hvol.slots i hi).agree hagree) (Bytes.getLE_putLE_outside (by omega))
    (by
      unfold linksOf
      rw [Bytes.getLE_putLE]
      omega) rfl rfl
  rw [hwrite]
  exact Prog.ends_ok.mpr ⟨_, hagree, rfl, hvol', huse⟩

theorem linkParent_settled (hvol : Vol v L T O s) (hi : InUse v L s i) :
    Prog.Ends (fun _ s' => Settled v L T s s') (fun e s' => Skips e ∨ Settled v L T s s')
      (linkParent v i s) := by
  refine (linkParent_ends hv hL hT hvol hi).weaken ?_ fun _ _ => Or.inl
  rintro _ s' ⟨raw, -, rfl, hvol', -⟩
  exact ⟨⟨O, hvol'⟩, (sameBooks_putSlot hv hL hi.1).accounts hL⟩

omit hL hT in
/-- A directory number that is no inode number is refused by the lookup. -/
theorem createInode_outside (hdir : ¬IsInode v dir) (name : List UInt8) (isDir : Bool) :
    ∃ e, createInode v dir name isDir s = (.error e, s) := by
  obtain ⟨e, hread⟩ := readInode_refused (s := s) hv hdir
  refine ⟨e, ?_⟩
  unfold createInode lookup
  rw [Prog.bind_error (Prog.bind_error hread)]

/-- SOURCE: ext4.rs:1324-1366 -/
theorem create_settled (hvol : Vol v L T O s) (hok : Workable v L s dir) (name : List UInt8)
    (isDir : Bool) :
    Prog.Ends (fun _ s' => Settled v L T s s') (fun e s' => Skips e ∨ Settled v L T s s')
      (create v dir name isDir s) := by
  unfold create
  by_cases hdir : IsInode v dir
  · obtain ⟨hi, hdepth⟩ := hok hdir
    refine Prog.Ends.bind (createInode_ends hv hL hT hvol dir name isDir) fun ino s₁ hnew => ?_
    obtain ⟨O₁, hvol₁⟩ := hnew.vol
    have hslot := hnew.slots dir hi
    have hadd := addDirent_settled hv hL hT hvol₁ (hi.congr hslot) (by rw [hslot]; exact hdepth)
      name ino (if isDir then 2 else 1)
    refine Prog.Ends.bind (hadd.weaken (fun _ _ => id) ?_) ?_
    · rintro e s₂ (he | hset)
      · exact Or.inl he
      · exact Or.inr (hnew.toSettled.trans hset)
    · rintro _ s₂ ⟨hset, hi₂⟩
      obtain ⟨O₂, hvol₂⟩ := hset.vol
      have hset₂ := hnew.toSettled.trans hset
      cases isDir with
      | false =>
        rw [if_neg (by simp)]
        exact Prog.ends_ok.mpr hset₂
      | true =>
        rw [if_pos rfl]
        refine Prog.Ends.bind ((linkParent_settled hv hL hT hvol₂ hi₂).weaken (fun _ _ => id) ?_)
          fun _ s₃ hset₃ => Prog.ends_ok.mpr (hset₂.trans hset₃)
        rintro e s₃ (he | hset₃)
        · exact Or.inl he
        · exact Or.inr (hset₂.trans hset₃)
  · obtain ⟨e, hrun⟩ := createInode_outside (s := s) hv hdir name isDir
    rw [Prog.bind_error hrun]
    exact Prog.ends_error.mpr (Or.inr ⟨⟨O, hvol⟩, id⟩)

end Fresh

end Pinx.Analysis
