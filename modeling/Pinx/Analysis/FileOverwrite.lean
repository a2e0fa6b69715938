import Pinx.Analysis.FileWrites

/-!
# ext4: writes to blocks that are there

A write that finds all its blocks changes them and nothing else until the inode is written,
whatever the depth of the tree.  If the size and the count of blocks stay as they are, the
inode is written as it was.
-/

namespace Pinx.Analysis

open Pinx.Foundation Pinx.Model

variable {v : Ext4} {L : Layout} {s s' s'' : FsState} {O : ℕ → Option Use} {i lo hi p : ℕ}
  {raw : Bytes}

/-- All blocks from `lo` up to `hi` are there. -/
def Mapped (v : Ext4) (s : FsState) (raw : Bytes) (lo hi : ℕ) : Prop :=
  ∀ x, lo ≤ x → x < hi → ∃ p, treeLook v s raw x = .ok (some p)

/-- Nothing but blocks of inode `i` has changed. -/
structure Overwritten (v : Ext4) (O : ℕ → Option Use) (i : ℕ) (s s' : FsState) : Prop where
  other : ∀ b, (∀ x, O b ≠ some (.data i x)) → block v s' b = block v s b
  counts : s'.freeBlocks = s.freeBlocks ∧ s'.freeInodes = s.freeInodes

theorem Overwritten.refl (v : Ext4) (O : ℕ → Option Use) (i : ℕ) (s : FsState) :
    Overwritten v O i s s := ⟨fun _ _ => rfl, rfl, rfl⟩

theorem Overwritten.trans (h : Overwritten v O i s s') (h' : Overwritten v O i s' s'') :
    Overwritten v O i s s'' :=
  ⟨fun b hb => (h'.other b hb).trans (h.other b hb), h'.counts.1.trans h.counts.1,
    h'.counts.2.trans h.counts.2⟩

theorem Overwritten.nodes (h : Overwritten v O i s s') {n j : ℕ} (hn : O n = some (.node j)) :
    block v s' n = block v s n :=
  h.other n fun x hx => by rw [hn] at hx; cases hx

section Loop

variable (hv : GeometryOk v) (hL : LayoutOk v L) {inode : Inode} {cur : ℕ} {bytes : List UInt8}
include hv hL

/-- The turn of a write to a block that is there. -/
theorem writeTurn_overwrites (hgood : Good v L O s) (hc : Covers v s O i inode.raw)
    (hcur : cur < (2 ^ 32 - 1) * v.bs) (hp : treeLook v s inode.raw (cur / v.bs) = .ok (some p))
    {count : ℕ} (hfit : cur % v.bs + count ≤ v.bs) (hlen : count ≤ bytes.length) :
    ∃ s', writeTurn v inode cur count bytes s = (.ok inode, s') ∧ Overwritten v O i s s' ∧
      Step v L False i O s O s' ∧ WritesBytes v s inode.raw s' inode.raw cur (bytes.take count) := by
  have howner := hc.maps _ (treeLook_mem hp)
  have hblock := (hgood.used p _ howner).2.1.2
  have hmap : mapBlock v inode (cur / v.bs) s = (.ok (some p), s) := by
    rw [mapBlock_eq hv hc.ok, hp]
  refine ⟨setBlock v s p ((block v s p).blit (cur % v.bs) count fun k => bytes.getD k 0), ?_, ?_,
    data_write hv hL hgood howner _ False.elim, ?_⟩
  · unfold writeTurn openBlock
    rw [(block_number hv.bs_pos hcur).2, Prog.bind_ok (by
      rw [Prog.bind_ok hmap]
      dsimp only
      rw [Prog.bind_ok (readFsb_ok hv hblock)]
      rfl)]
    dsimp only
    rw [Prog.bind_ok hmap]
    dsimp only
    rw [Prog.bind_ok (writeFsb_ok hv hblock)]
    rfl
  · refine ⟨fun b hb => block_setBlock_ne ?_, rfl, rfl⟩
    rintro rfl
    exact hb _ howner
  · have hlook : ∀ x, treeLook v (setBlock v s p ((block v s p).blit (cur % v.bs) count
        fun k => bytes.getD k 0)) inode.raw x = treeLook v s inode.raw x :=
      treeLook_congr hc (fun _ _ => rfl) fun n hn => block_setBlock_ne (by
        rintro rfl
        rw [howner] at hn
        cases hn)
    refine writesBytes_of_block hv.bs_pos hcur hfit hlen (fun y hy hne b hb => ?_) (blockAt_some hp) ?_
    · rw [← hb]
      refine blockAt_congr (hlook y) fun q hq => block_setBlock_ne ?_
      rintro rfl
      have hother := hc.maps _ (treeLook_mem hq)
      rw [howner] at hother
      cases hother
      exact hne rfl
    · rw [blockAt_some (by rw [hlook, hp]), block_setBlock_self]

/-- SOURCE: ext4.rs:1295-1313 -/
theorem writeLoop_overwrites (hi' : IsInode v i) (fuel : ℕ) (hfuel : bytes.length ≤ fuel)
    (hgood : Good v L O s) (hiu : InUse v L s i) (hc : Covers v s O i inode.raw)
    (hmapped : Mapped v s inode.raw (cur / v.bs) hi) (hhi : hi ≤ 2 ^ 32 - 1)
    (hend : cur + bytes.length ≤ hi * v.bs) :
    ∃ s', writeLoop v fuel inode cur bytes s = (.ok inode, s') ∧ Overwritten v O i s s' ∧
      Step v L False i O s O s' ∧ WritesBytes v s inode.raw s' inode.raw cur bytes := by
  have hbs := hv.bs_pos
  have hdone : bytes = [] → Overwritten v O i s s ∧ Step v L False i O s O s ∧
      WritesBytes v s inode.raw s inode.raw cur bytes := by
    rintro rfl
    exact ⟨Overwritten.refl v O i s, Step.refl v L False i O s,
      KeepsBytes.refl v s inode.raw cur 0, fun k hk => nomatch hk⟩
  induction fuel generalizing s cur bytes with
  | zero => exact ⟨s, rfl, hdone (List.length_eq_zero_iff.mp (Nat.le_zero.mp hfuel))⟩
  | succ fuel ih =>
    unfold writeLoop
    by_cases hnil : bytes = []
    · rw [if_pos hnil]
      exact ⟨s, rfl, hdone hnil⟩
    rw [if_neg hnil]
    have hpos := List.length_pos_iff.mpr hnil
    have hmul : hi * v.bs ≤ (2 ^ 32 - 1) * v.bs := Nat.mul_le_mul_right v.bs hhi
    have hlb : cur / v.bs < hi := (Nat.div_lt_iff_lt_mul hbs).mpr (by omega)
    have hcount : 0 < v.turnCount cur bytes := turnCount_pos hbs hnil
    have hle : v.turnCount cur bytes ≤ bytes.length := Nat.min_le_right _ _
    obtain ⟨p, hp⟩ := hmapped _ (le_refl _) hlb
    obtain ⟨s₁, hrun, hover, hstep, hwrites⟩ := writeTurn_overwrites hv hL hgood hc (by omega) hp
      (turnCount_fit hbs) hle
    have hgood₁ := (hstep.vol False.elim (Or.inl hiu) ⟨hgood, False.elim⟩).toGood
    have hlook : ∀ x, treeLook v s₁ inode.raw x = treeLook v s inode.raw x :=
      treeLook_congr hc (fun _ _ => rfl) fun n hn => hover.nodes hn
    have htake : (bytes.take (v.turnCount cur bytes)).length = v.turnCount cur bytes := by
      rw [List.length_take]
      omega
    have hdrop : (bytes.drop (v.turnCount cur bytes)).length = bytes.length - v.turnCount cur bytes :=
      List.length_drop
    have hmapped₁ : Mapped v s₁ inode.raw ((cur + v.turnCount cur bytes) / v.bs) hi := fun x hlo hx => by
      obtain ⟨q, hq⟩ := hmapped x
        ((Nat.div_le_div_right (Nat.le_add_right cur _)).trans hlo) hx
      exact ⟨q, by rw [hlook, hq]⟩
    obtain ⟨s', hrun', hover', hstep', hwrites'⟩ := ih
      (show (bytes.drop (v.turnCount cur bytes)).length ≤ fuel by omega) hgood₁
      (hiu.congr (hstep.touch.slots i hi')) (hstep.covers hc) hmapped₁ (by omega) (by
        rintro hrest
        rw [hrest]
        exact ⟨Overwritten.refl v O i s₁, Step.refl v L False i O s₁,
          KeepsBytes.refl v s₁ inode.raw _ 0, fun k hk => nomatch hk⟩)
    refine ⟨s', (Prog.bind_ok hrun).trans hrun', hover.trans hover', hstep.trans hi' hstep', ?_⟩
    have hall : WritesBytes v s inode.raw s' inode.raw cur (bytes.take (v.turnCount cur bytes) ++
        bytes.drop (v.turnCount cur bytes)) :=
      hwrites.append (by rw [htake]; exact hwrites') (by omega)
    rwa [List.take_append_drop] at hall

end Loop

/-- The count of a file's blocks is a matter of its root and its nodes. -/
theorem recountBlocks_congr (hv : GeometryOk v) {inode inode' : Inode} {total : ℕ}
    (hc : Covers v s O i inode.raw) (hc' : Covers v s' O i inode.raw) (hraw : inode'.raw = inode.raw)
    (hnodes : ∀ n, O n = some (.node i) → block v s' n = block v s n)
    (h : recountBlocks v inode' s' = (.ok total, s')) : recountBlocks v inode s = (.ok total, s) := by
  by_cases hmagic : HasMagic inode.raw iblock
  · have hsame : ∀ n ∈ nodesUnder v s (rootDepth inode.raw) inode.raw iblock,
        block v s' n = block v s n := fun n hn =>
      hnodes n (hc.nodes n (by rw [treeNodes, if_pos hmagic]; exact hn))
    have hmagic' : HasMagic inode'.raw iblock := by rwa [hraw]
    have hnew := recountBlocks_eq hv.bs_le hmagic' (by rw [hraw]; exact (hc'.ok hmagic).walkable hv)
    rw [hraw, extentsUnder_congr hsame, h] at hnew
    rw [recountBlocks_eq hv.bs_le hmagic ((hc.ok hmagic).walkable hv)]
    rw [Except.ok.inj (Prod.mk.inj hnew).1]
  · unfold recountBlocks at h ⊢
    rw [hraw, rdHdr_none hmagic] at h
    rw [rdHdr_none hmagic]
    exact congrArg (·, s) (Prod.mk.inj h).1

section Call

variable {offset : ℕ} {buf : List UInt8} (hv : GeometryOk v) (hL : LayoutOk v L) (hgood : Good v L O s)
  (hiu : InUse v L s i) (hne : buf ≠ [])
  (hmapped : Mapped v s (slot v L s i) (offset / v.bs) (endBlock v offset buf.length))

include hne hmapped in
/-- Blocks that are there have numbers below the last one. -/
theorem Mapped.endBlock_le : endBlock v offset buf.length ≤ 2 ^ 32 - 1 := by
  have hpos := List.length_pos_iff.mpr hne
  have hle : offset / v.bs ≤ (offset + buf.length - 1) / v.bs := Nat.div_le_div_right (by omega)
  obtain ⟨p, hp⟩ := hmapped ((offset + buf.length - 1) / v.bs) hle (Nat.lt_succ_self _)
  have := treeLook_lt hp
  unfold endBlock
  omega

include hv hL hgood hiu hne hmapped

/-- The loop, from the inode on disk. -/
theorem writeLoop_done :
    ∃ s₁, writeLoop v buf.length (inodeOf v L s i) offset buf s = (.ok (inodeOf v L s i), s₁) ∧
      Overwritten v O i s s₁ ∧ LoopDone v L O i s (inodeOf v L s i) offset buf O s₁ (inodeOf v L s i) := by
  have hc : Covers v s O i (inodeOf v L s i).raw := by
    rw [raw_inodeOf]
    exact hgood.slots i hiu
  obtain ⟨s₁, hrun, hover, hstep, hwrites⟩ := writeLoop_overwrites hv hL hiu.1 buf.length (le_refl _)
    hgood hiu hc (by rw [raw_inodeOf]; exact hmapped) (hmapped.endBlock_le hne) (endBlock_end hv hne)
  refine ⟨s₁, hrun, hover, hstep, hstep.covers hc, fun k _ => ?_, hwrites, rfl⟩
  rw [hstep.touch.slots i hiu.1, raw_inodeOf]

/-- SOURCE: ext4.rs:1282-1320 -/
theorem writeFile_overwrites (hfile : (inodeOf v L s i).isFile = true) :
    ∃ s₁ total, recountBlocks v (inodeOf v L s i) s = (.ok total, s) ∧
      writeFile v i offset buf s = (.ok (), putSlot v L s₁ i (v.encodeInode
        { sizedInode (inodeOf v L s i) (offset + buf.length) with blocks := total })) ∧
      Overwritten v O i s s₁ ∧ slot v L s₁ i = slot v L s i ∧
      Good v L O (putSlot v L s₁ i (v.encodeInode
        { sizedInode (inodeOf v L s i) (offset + buf.length) with blocks := total })) := by
  have hc : Covers v s O i (inodeOf v L s i).raw := by
    rw [raw_inodeOf]
    exact hgood.slots i hiu
  obtain ⟨s₁, hrun, hover, hdone⟩ := writeLoop_done hv hL hgood hiu hne hmapped
  obtain ⟨total, _, htotal, rfl, hfin, hstored⟩ := hdone.store hv hL hgood hiu (offset + buf.length)
  refine ⟨s₁, total, recountBlocks_congr hv hc (hdone.step.covers hc) rfl (fun n hn => hover.nodes hn)
    htotal, ?_, hover, hdone.step.touch.slots i hiu.1, hstored.good⟩
  rw [writeFile_begin hv hL hgood hiu hfile hne (landing_eq hv hne (hmapped.endBlock_le hne)).2,
    Prog.bind_ok hrun, Prog.bind_ok htotal, hfin]

end Call

end Pinx.Analysis
