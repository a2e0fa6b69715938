import Pinx.Analysis.Ext4Ownership

/-!
# The steps of a call

What a call does to a volume, in pieces: a block is taken, a block nobody owns yet or a
data block of the inode at hand is written, and an insertion gives the inode its block.
Each piece is a `Step`, so the volume stays good, with all checksums valid, whether or not
the call gets to its end.
-/

namespace Pinx.Analysis

open Pinx.Foundation Pinx.Model

variable {v : Ext4} {L : Layout} {s s' s₁ : FsState} {O O' : ℕ → Option Use} {T : Prop}
  {W : ℕ → Prop} {i lb p q c : ℕ} {u : Use}

/-! ## Writing and giving blocks -/

theorem Good.free_of_unmarked (hgood : Good v L O s) (hp : marked v L s p = false) : O p = none := by
  cases hO : O p with
  | none => rfl
  | some u =>
    obtain ⟨-, -, -, hmark⟩ := hgood.used p u hO
    rw [hp] at hmark
    cases hmark

/-- Inode `i` gets block `q`; apart from `q` only leaves of `i` change. -/
theorem step_give (hgood : Good v L O s) (ht : Touches v L W s s') (hq : O q = none)
    (hu : u.ino = i) (hnew : IsBlock v q ∧ L.role q = .data ∧ marked v L s' q = true)
    (hW : ∀ b, W b → b = q ∨ O b = some (.node i))
    (hleaf : ∀ n, W n → O n = some (.node i) → NodeStep v s s' (give O q u) i n ∧
      (T → ExtentSum v i (genOf (slot v L s i)) (block v s' n)))
    (hnode : T → u = .node i → ExtentSum v i (genOf (slot v L s i)) (block v s' q))
    (hdata : T → (inodeOf v L s i).isDir = true → ∀ lb, u = .data i lb →
      DirSum v i (genOf (slot v L s i)) (block v s' q)) :
    Step v L T i O s (give O q u) s' := by
  have hsame : ∀ b w, O b = some w → ¬W b → block v s' b = block v s b := fun b w hb hnot =>
    ht.other b (hgood.used b w hb).2.2.1 hnot
  refine ⟨ht.mono fun b hb w hw => ?_, give_ext hq, fun b w hb => ?_, fun n hn => ?_,
    fun hT n hn => ?_, fun hT hdir b lb hb => ?_⟩
  · rcases hW b hb with rfl | hnode
    · rw [hq] at hw
      cases hw
    · rw [hnode] at hw
      cases hw
      rfl
  · rcases give_cases hb with ⟨rfl, rfl⟩ | ⟨-, hold⟩
    · exact Or.inr ⟨hu, hnew⟩
    · exact Or.inl hold
  · by_cases hwn : W n
    · exact (hleaf n hwn hn).1
    · exact Or.inl (hsame n _ hn hwn)
  · rcases give_cases hn with ⟨rfl, rfl⟩ | ⟨-, hold⟩
    · exact Or.inr (hnode hT rfl)
    · by_cases hwn : W n
      · exact Or.inr ((hleaf n hwn hold).2 hT)
      · exact Or.inl ⟨hold, hsame n _ hold hwn⟩
  · rcases give_cases hb with ⟨rfl, rfl⟩ | ⟨hne, hold⟩
    · exact Or.inr (hdata hT hdir lb rfl)
    · refine Or.inl ⟨hold, hsame b _ hold fun hwb => ?_⟩
      have hnode := (hW b hwb).resolve_left hne
      rw [hold] at hnode
      cases hnode

/-- Owners stay, and data blocks of `i` or blocks of nobody are written. -/
theorem step_write (hgood : Good v L O s) (ht : Touches v L W s s')
    (hW : ∀ b, W b → O b = none ∨ ∃ lb, O b = some (.data i lb) ∧
      (T → (inodeOf v L s i).isDir = true → DirSum v i (genOf (slot v L s i)) (block v s' b))) :
    Step v L T i O s O s' := by
  have hsame : ∀ b w, O b = some w → ¬W b → block v s' b = block v s b := fun b w hb hnot =>
    ht.other b (hgood.used b w hb).2.2.1 hnot
  have hnodes : ∀ n, O n = some (.node i) → block v s' n = block v s n := by
    intro n hn
    refine hsame n _ hn fun hwn => ?_
    rcases hW n hwn with hnone | ⟨lb, hdata, -⟩
    · rw [hn] at hnone
      cases hnone
    · rw [hn] at hdata
      cases hdata
  refine ⟨ht.mono fun b hb w hw => ?_, fun _ _ => id, fun _ _ => Or.inl,
    fun n hn => Or.inl (hnodes n hn), fun _ n hn => Or.inl ⟨hn, hnodes n hn⟩,
    fun hT hdir b lb hb => ?_⟩
  · rcases hW b hb with hnone | ⟨lb, hdata, -⟩
    · rw [hnone] at hw
      cases hw
    · rw [hdata] at hw
      cases hw
      rfl
  · by_cases hwb : W b
    · rcases hW b hwb with hnone | ⟨lb', hdata, hsum⟩
      · rw [hb] at hnone
        cases hnone
      · exact Or.inr (hsum hT hdir)
    · exact Or.inl ⟨hb, hsame b _ hb hwb⟩

section Blocks

variable (hv : GeometryOk v) (hL : LayoutOk v L) (hgood : Good v L O s)
include hv hL hgood

/-- A block is taken and belongs to nobody. -/
theorem BlockTaken.step (h : BlockTaken v L p s s') (i : ℕ) :
    Step v L T i O s O s' ∧ Held v L O s' p :=
  ⟨step_write hgood (h.touches hv hL fun _ => False) fun _ => False.elim, h.isBlock,
    h.role_eq hgood.toPlaced, h.marked_self, hgood.free_of_unmarked h.fresh⟩

theorem Held.write (hp : Held v L O s p) (i : ℕ) (w : Bytes) :
    Step v L T i O s O (setBlock v s p w) ∧ Held v L O (setBlock v s p w) p := by
  refine ⟨step_write hgood (touches_dataWrite hv hL hp.role (W := (· = p)) rfl) ?_, hp.isBlock,
    hp.role, ?_, hp.free⟩
  · rintro b rfl
    exact Or.inl hp.free
  · rw [marked_dataWrite hv hL hp.role hp.isBlock]
    exact hp.mark

theorem data_write (hp : O p = some (.data i lb)) (w : Bytes)
    (hsum : T → (inodeOf v L s i).isDir = true →
      DirSum v i (genOf (slot v L s i)) (w.clip v.bs)) :
    Step v L T i O s O (setBlock v s p w) := by
  have hrole := (hgood.used p _ hp).2.2.1
  refine step_write hgood (touches_dataWrite hv hL hrole (W := (· = p)) rfl) ?_
  rintro b rfl
  refine Or.inr ⟨lb, hp, ?_⟩
  rw [block_setBlock_self]
  exact hsum

end Blocks

theorem Held.after (hp : Held v L O s p) (h : Step v L T i O s O' s') (hfree : O' p = none) :
    Held v L O' s' p :=
  ⟨hp.isBlock, hp.role, h.touch.marks p hp.isBlock hp.mark, hfree⟩

/-! ## The pieces of an insertion -/

section Insertion

variable (hv : GeometryOk v) (hL : LayoutOk v L) (hT : T → v.metaCsum = true)
  (hgood : Good v L O s)
include hv hL hT hgood

/-- A record for block `p` goes into leaf `c`. -/
theorem LeafPut.step (h : LeafPut v i (genOf (slot v L s i)) c lb p s s')
    (hc : O c = some (.node i)) (hhead : HeadOk (block v s c) 0 v.leafMax 0)
    (hmaps : ∀ x ∈ (leafRecs (block v s c) 0).flatMap extentMaps, O x.2 = some (.data i x.1))
    (hp : Held v L O s p) (hsum : T → (inodeOf v L s i).isDir = true →
      DirSum v i (genOf (slot v L s i)) (block v s p)) :
    Step v L T i O s (give O p (.data i lb)) s' := by
  have ht := h.touches hv hL (hgood.used c _ hc).2.2.1
  obtain ⟨recs, hput, hleaf⟩ := h.put
  have hpc : p ≠ c := by
    rintro rfl
    rw [hp.free] at hc
    cases hc
  refine step_give hgood ht hp.free rfl ⟨hp.isBlock, hp.role, ht.marks p hp.isBlock hp.mark⟩
    ?_ ?_ (fun _ h => nomatch h) fun hT hdir _ _ => ?_
  · rintro b rfl
    exact Or.inr hc
  · rintro n rfl -
    refine ⟨Or.inr ⟨hhead, hleaf.head, fun x hx => ?_⟩, fun hT' => hleaf.sum (hT hT')⟩
    rw [hleaf.recs_eq] at hx
    rcases hput.maps hx with hold | rfl
    · exact give_ext hp.free _ _ (hmaps x hold)
    · exact give_self O p _
  · rw [ht.other p hp.role hpc]
    exact hsum hT hdir

/-- The upper half of leaf `c` goes to a new leaf `q`. -/
theorem LeafSplit.step (h : LeafSplit v L i (genOf (slot v L s i)) c q s s')
    (hc : O c = some (.node i)) (hhead : HeadOk (block v s c) 0 v.leafMax 0)
    (hmaps : ∀ x ∈ (leafRecs (block v s c) 0).flatMap extentMaps, O x.2 = some (.data i x.1)) :
    Step v L T i O s (give O q (.node i)) s' := by
  obtain ⟨ht, hrole, hblock, -, hfresh, hmark⟩ :=
    h.touches hv hL hgood.toPlaced (hgood.used c _ hc).2.2.1
  have hq := hgood.free_of_unmarked hfresh
  have hcq : c ≠ q := by
    rintro rfl
    rw [hq] at hc
    cases hc
  refine step_give hgood ht hq rfl ⟨hblock, hrole, hmark⟩ ?_ ?_ (fun hT' _ => h.upper.sum (hT hT'))
    fun _ _ _ h => nomatch h
  · rintro b (rfl | rfl)
    · exact Or.inr hc
    · exact Or.inl rfl
  · rintro n (rfl | rfl) hn
    · refine ⟨Or.inr ⟨hhead, h.lower.head, fun x hx => ?_⟩, fun hT' => h.lower.sum (hT hT')⟩
      rw [h.lower.recs_eq] at hx
      exact give_ext hq _ _ (hmaps x (maps_sub (fun _ => List.mem_of_mem_take) hx))
    · rw [hq] at hn
      cases hn

/-- The records of the root go to a new leaf `q`. -/
theorem Deepened.step {inode : Inode} (h : Deepened v L inode q s s') (hino : inode.ino = i)
    (hgen : inode.gen = genOf (slot v L s i)) : Step v L T i O s (give O q (.node i)) s' := by
  obtain ⟨ht, hrole, hblock, -, hfresh, hmark⟩ := h.touches hv hL hgood.toPlaced
  have hq := hgood.free_of_unmarked hfresh
  have hleaf := h.leaf
  rw [hino, hgen] at hleaf
  refine step_give hgood ht hq rfl ⟨hblock, hrole, hmark⟩ (fun b hb => Or.inl hb) ?_
    (fun hT' _ => hleaf.sum (hT hT')) fun _ _ _ h => nomatch h
  rintro n rfl hn
  rw [hq] at hn
  cases hn

end Insertion

/-! ## Insertion -/

/-- What a call knows of the inode it holds: it has the tree, and differs from the one on
disk in the root node, the size and the count of blocks only. -/
structure Opened (v : Ext4) (L : Layout) (O : ℕ → Option Use) (i : ℕ) (s : FsState)
    (inode : Inode) : Prop where
  ino : inode.ino = i
  covers : Covers v s O i inode.raw
  shallow : HasMagic inode.raw iblock → rootDepth inode.raw ≤ 1
  around : SameAround (slot v L s i) inode.raw
  mode : inode.mode = (inodeOf v L s i).mode
  flags : inode.flags = (inodeOf v L s i).flags

theorem Opened.gen_eq {inode : Inode} (h : Opened v L O i s inode) :
    inode.gen = genOf (slot v L s i) :=
  Bytes.getLE_congr fun j _ => h.around _ (Or.inr (by unfold iblock; omega))

theorem Opened.step {inode : Inode} (h : Opened v L O i s inode) (hi : IsInode v i)
    (hstep : Step v L T i O s O' s') : Opened v L O' i s' inode := by
  have hslot := hstep.touch.slots i hi
  refine ⟨h.ino, hstep.covers h.covers, h.shallow, ?_, ?_, ?_⟩
  · rw [hslot]
    exact h.around
  · rw [inodeOf_congr hslot]
    exact h.mode
  · rw [inodeOf_congr hslot]
    exact h.flags

/-- The same inode with another root. -/
theorem Opened.reroot {inode : Inode} {raw : Bytes} (h : Opened v L O i s inode)
    (haround : SameAround inode.raw raw) (hcov : Covers v s O i raw)
    (hshallow : rootDepth raw ≤ 1) : Opened v L O i s { inode with raw := raw } :=
  ⟨h.ino, hcov, fun _ => hshallow, h.around.trans haround, h.mode, h.flags⟩

theorem withHeader_eq (inode : Inode) :
    withHeader inode = { inode with raw := (withHeader inode).raw } := by
  unfold withHeader
  split <;> rfl

theorem Opened.withHeader {inode : Inode} (h : Opened v L O i s inode) :
    Opened v L O i s (withHeader inode) := by
  obtain ⟨hcases, haround⟩ := withHeader_head h.covers.ok h.shallow
  rcases hcases with ⟨hhead, hmaps⟩ | ⟨hsame, -⟩
  · rw [withHeader_eq]
    refine h.reroot haround (covers_flat hhead fun x hx => ?_) hhead.depth.le.step
    rw [hmaps] at hx
    exact h.covers.maps x hx
  · rw [hsame]
    exact h

/-- The ends of an insertion: the block belongs to the inode, or there was no room. -/
def Inserted (v : Ext4) (L : Layout) (T : Prop) (O : ℕ → Option Use) (i : ℕ) (s : FsState) (lb p : ℕ) :
    Except FsFail Inode × FsState → Prop :=
  Prog.Ends
    (fun inode s' => ∃ O', Step v L T i O s O' s' ∧ Opened v L O' i s' inode ∧
      O' p = some (.data i lb))
    fun e s' => Skips e ∨ ∃ O', Step v L T i O s O' s'

section Insert

variable (hv : GeometryOk v) (hL : LayoutOk v L) (hT : T → v.metaCsum = true)
  (hvol : Vol v L T O s) (hi : InUse v L s i) {inode : Inode} (hop : Opened v L O i s inode)
  (hp : Held v L O s p)
  (hsum : T → (inodeOf v L s i).isDir = true → DirSum v i (genOf (slot v L s i)) (block v s p))

include hvol hi hop hp hsum in
theorem inserted_root {raw : Bytes} (hhead : HeadOk inode.raw iblock 4 0)
    (hhead' : HeadOk raw iblock 4 0) (hput : Put (leafRecs inode.raw iblock) lb p (leafRecs raw iblock))
    (haround : SameAround inode.raw raw) :
    Inserted v L T O i s lb p (.ok { inode with raw := raw }, s) := by
  have hstep : Step v L T i O s (give O p (.data i lb)) s :=
    step_give hvol.toGood (Touches.refl v L (fun _ => False) s) hp.free rfl
      ⟨hp.isBlock, hp.role, hp.mark⟩ (fun _ => False.elim) (fun _ => False.elim)
      (fun _ h => nomatch h) fun hT hdir _ _ => hsum hT hdir
  have hcov : Covers v s (give O p (.data i lb)) i raw := by
    refine covers_flat hhead' fun x hx => ?_
    rcases hput.maps hx with hold | rfl
    · exact give_ext hp.free _ _ (hop.covers.flat hhead x hold)
    · exact give_self O p _
  refine Prog.ends_ok.mpr ⟨_, hstep, ?_, give_self O p _⟩
  exact (hop.step hi.1 hstep).reroot haround hcov hhead'.depth.le.step

include hv hL hT hvol hi hop hp hsum

theorem inserted_leaf {c : ℕ} (htree : TreeOk v s 1 inode.raw iblock 4)
    (hlast : ∃ first, (kidsOf inode.raw iblock).getLast? = some (first, c))
    (hput : LeafPut v inode.ino inode.gen c lb p s s') :
    Inserted v L T O i s lb p (.ok inode, s') := by
  obtain ⟨first, hlast⟩ := hlast
  have hmem := List.mem_of_getLast? hlast
  obtain ⟨hnodes, hmaps⟩ := hop.covers.kids htree
  rw [hop.ino, hop.gen_eq] at hput
  have hstep := hput.step hv hL hT hvol.toGood (hnodes _ hmem) (htree.2 _ hmem).2.2
    (hmaps (first, c) hmem) hp hsum
  exact Prog.ends_ok.mpr ⟨_, hstep, hop.step hi.1 hstep, give_self O p _⟩

theorem inserted_deepened {q : ℕ} (hhead : HeadOk inode.raw iblock 4 0)
    (hdeep : Deepened v L inode q s s₁) (hput : LeafPut v inode.ino inode.gen q lb p s₁ s') :
    Inserted v L T O i s lb p (.ok (deepRoot inode q), s') := by
  obtain ⟨ht, -, hblock, hzero, hfresh, -⟩ := hdeep.touches hv hL hvol.toPlaced
  have hne : p ≠ q := by
    rintro rfl
    rw [hp.mark] at hfresh
    cases hfresh
  have hstep₁ := hdeep.step hv hL hT hvol.toGood hop.ino hop.gen_eq
  have hvol₁ := hstep₁.vol hT (Or.inl hi) hvol
  have hslot := hstep₁.touch.slots i hi.1
  have hmaps : ∀ x ∈ (leafRecs (block v s₁ q) 0).flatMap extentMaps,
      give O q (.node i) x.2 = some (.data i x.1) := by
    intro x hx
    rw [hdeep.leaf.recs_eq] at hx
    exact hstep₁.ext _ _ (hop.covers.flat hhead x (maps_copied hx))
  -- the root on top of the new leaf
  obtain ⟨hhead', hkids, haround⟩ := deepRoot_kids hhead (hblock.2.trans_le hv.blocks)
  have hcov : Covers v s₁ (give O q (.node i)) i (deepRoot inode q).raw := by
    refine covers_deep ⟨hhead', ?_⟩ ?_ ?_
    all_goals
      rw [hkids]
      intro x hx
      cases List.mem_singleton.mp hx
    · exact ⟨hzero, hblock.2, hdeep.leaf.head⟩
    · exact give_self O q _
    · exact hmaps
  have hstep₂ : Step v L T i (give O q (.node i)) s₁
      (give (give O q (.node i)) p (.data i lb)) s' := by
    rw [hop.ino, hop.gen_eq, ← hslot] at hput
    refine hput.step hv hL hT hvol₁.toGood (give_self O q _) hdeep.leaf.head hmaps
      (hp.after hstep₁ ?_) fun hT' hdir => ?_
    · rw [give, Function.update_of_ne hne]
      exact hp.free
    · rw [inodeOf_congr hslot] at hdir
      rw [hslot, ht.other p hp.role hne]
      exact hsum hT' hdir
  have hstep := hstep₁.trans hi.1 hstep₂
  refine Prog.ends_ok.mpr ⟨_, hstep, ?_, give_self _ p _⟩
  exact (hop.step hi.1 hstep).reroot haround (hstep₂.covers hcov) hhead'.depth.le

theorem inserted_split {c q : ℕ} (htree : TreeOk v s 1 inode.raw iblock 4)
    (hlast : ∃ first, (kidsOf inode.raw iblock).getLast? = some (first, c))
    (hroom : (hdrOf inode.raw iblock).entries < (hdrOf inode.raw iblock).max)
    (hsplit : LeafSplit v L inode.ino inode.gen c q s s₁)
    (hput : LeafPut v inode.ino inode.gen q lb p s₁ s') :
    Inserted v L T O i s lb p (.ok (grownRoot inode (splitKey (leafRecs (block v s c) 0)) q), s') := by
  obtain ⟨first, hlast⟩ := hlast
  have hmem := List.mem_of_getLast? hlast
  obtain ⟨hnodes, hmaps⟩ := hop.covers.kids htree
  have hc := hnodes _ hmem
  have hrole := (hvol.used c _ hc).2.2.1
  obtain ⟨ht, -, hblock, -, hfresh, -⟩ := hsplit.touches hv hL hvol.toPlaced hrole
  have hgrown := hsplit.treeOk hv hL hvol.toPlaced hrole htree
    (fun x hx => (hvol.used _ _ (hnodes x hx)).2) hroom
  have hne : p ≠ q := by
    rintro rfl
    rw [hp.mark] at hfresh
    cases hfresh
  have hpc : p ≠ c := by
    rintro rfl
    rw [hp.free] at hc
    cases hc
  rw [hop.ino, hop.gen_eq] at hsplit
  have hstep₁ := hsplit.step hv hL hT hvol.toGood hc (htree.2 _ hmem).2.2 (hmaps (first, c) hmem)
  have hvol₁ := hstep₁.vol hT (Or.inl hi) hvol
  have hslot := hstep₁.touch.slots i hi.1
  have hupper : ∀ x ∈ (leafRecs (block v s₁ q) 0).flatMap extentMaps,
      give O q (.node i) x.2 = some (.data i x.1) := by
    intro x hx
    rw [hsplit.upper.recs_eq] at hx
    refine hstep₁.ext _ _ (hmaps _ hmem x ?_)
    exact maps_sub (fun _ => List.mem_of_mem_drop) (maps_copied hx)
  obtain ⟨hhead', hkids, haround⟩ := grownRoot_kids htree.headOk hroom
    (splitKey_lt _ fun e he => leafRecs_lt he) (hblock.2.trans_le hv.blocks)
  have hcov : Covers v s₁ (give O q (.node i)) i
      (grownRoot inode (splitKey (leafRecs (block v s c) 0)) q).raw := by
    -- the old leaves are still those of the old root
    have htree₁ : TreeOk v s₁ 1 inode.raw iblock 4 := by
      refine (tree_step htree fun n hn => ?_).1
      obtain ⟨x, hx, hn'⟩ := List.mem_flatMap.mp hn
      rcases List.mem_cons.mp hn' with rfl | hnil
      · exact (hstep₁.leaves _ (hnodes x hx)).imp_right fun h => ⟨h.1, h.2.1⟩
      · cases hnil
    obtain ⟨hnodes₁, hmaps₁⟩ := (hstep₁.covers hop.covers).kids htree₁
    refine covers_deep hgrown ?_ ?_
    all_goals
      rw [hkids]
      intro x hx
      rcases List.mem_append.mp hx with hold | hnew
    · exact hnodes₁ x hold
    · cases List.mem_singleton.mp hnew
      exact give_self O q _
    · exact hmaps₁ x hold
    · cases List.mem_singleton.mp hnew
      exact hupper
  have hstep₂ : Step v L T i (give O q (.node i)) s₁
      (give (give O q (.node i)) p (.data i lb)) s' := by
    rw [hop.ino, hop.gen_eq, ← hslot] at hput
    refine hput.step hv hL hT hvol₁.toGood (give_self O q _) hsplit.upper.head hupper
      (hp.after hstep₁ ?_) fun hT' hdir => ?_
    · rw [give, Function.update_of_ne hne]
      exact hp.free
    · rw [inodeOf_congr hslot] at hdir
      rw [hslot, ht.other p hp.role fun h => h.elim hpc hne]
      exact hsum hT' hdir
  have hstep := hstep₁.trans hi.1 hstep₂
  refine Prog.ends_ok.mpr ⟨_, hstep, ?_, give_self _ p _⟩
  exact (hop.step hi.1 hstep).reroot haround (hstep₂.covers hcov) hhead'.depth.le

/-- SOURCE: ext4.rs:944-992 -/
theorem insertExtent_step (hlb : lb < 2 ^ 32) :
    Inserted v L T O i s lb p (insertExtent v inode lb p s) := by
  have hnodes : ∀ n ∈ treeNodes v s inode.raw,
      IsBlock v n ∧ L.role n = .data ∧ marked v L s n = true := fun n hn =>
    (hvol.used n _ (hop.covers.nodes n hn)).2
  have hends := insertExtent_ends hv hL hvol.toPlaced hlb (hp.isBlock.2.trans_le hv.blocks)
    hop.covers.ok hop.shallow hnodes
  have hop' := hop.withHeader
  generalize withHeader inode = node at hends hop'
  generalize insertExtent v inode lb p s = r at hends ⊢
  cases hends with
  | root hhead hhead' hput haround =>
    exact inserted_root hvol hi hop' hp hsum hhead hhead' hput haround
  | deepened hhead hdeep hput => exact inserted_deepened hv hL hT hvol hi hop' hp hsum hhead hdeep hput
  | leaf htree hlast hput => exact inserted_leaf hv hL hT hvol hi hop' hp hsum htree hlast hput
  | split htree hlast hroom hsplit hput =>
    exact inserted_split hv hL hT hvol hi hop' hp hsum htree hlast hroom hsplit hput
  | noRoom h => exact Prog.ends_error.mpr (Or.inr ⟨O, Step.refl v L T i O s⟩)
  | rootFull htree hlast hsplit =>
    obtain ⟨first, hlast⟩ := hlast
    have hmem := List.mem_of_getLast? hlast
    obtain ⟨hkids, hmaps⟩ := hop'.covers.kids htree
    rw [hop'.ino, hop'.gen_eq] at hsplit
    have hold := hmaps _ hmem
    have hstep := hsplit.step hv hL hT hvol.toGood (hkids _ hmem) (htree.2 _ hmem).2.2 hold
    exact Prog.ends_error.mpr (Or.inr ⟨_, hstep⟩)
  | skips he h => exact Prog.ends_error.mpr (Or.inl he)

end Insert

end Pinx.Analysis
