import Pinx.Analysis.Ext4Insert
import Pinx.Analysis.Ext4Sums

/-!
# Who owns a block

`O` gives every block in use its one owner: an extent node of an inode, or the data at a
logical block of an inode.  That it is a function is what "no two owners" comes to.  A
volume is `Good` for `O` if `O` covers the trees of all inodes in use, those with links,
and owned blocks are marked data blocks; it is `Sealed` if all checksums are valid.

While a call works on inode `i`, the disk and the inode in memory may disagree: a new
leaf is known to the inode in memory only, and the inode is written last.  So `O` covers
both trees, and grows with every block the call takes (`Step`).
-/

namespace Pinx.Analysis

open Pinx.Foundation Pinx.Model

/-- What a block is used for. -/
inductive Use where
  | node (ino : ℕ)
  | data (ino lb : ℕ)
deriving DecidableEq, Repr

/-- The inode a block belongs to. -/
def Use.ino : Use → ℕ
  | .node i => i
  | .data i _ => i

variable {v : Ext4} {L : Layout} {s s' s'' : FsState} {O O' O'' : ℕ → Option Use} {i : ℕ}
  {raw : Bytes}

/-! ## Trees and their owner -/

/-- The tree with this root is sound, and all of it belongs to inode `i`. -/
structure Covers (v : Ext4) (s : FsState) (O : ℕ → Option Use) (i : ℕ) (raw : Bytes) : Prop where
  ok : RootOk v s raw
  nodes : ∀ n ∈ treeNodes v s raw, O n = some (.node i)
  maps : ∀ x ∈ treeMaps v s raw, O x.2 = some (.data i x.1)

/-- A node of inode `i` that stays, or a leaf whose records are known to `O'`. -/
def NodeStep (v : Ext4) (s s' : FsState) (O' : ℕ → Option Use) (i n : ℕ) : Prop :=
  block v s' n = block v s n ∨
    HeadOk (block v s n) 0 v.leafMax 0 ∧ HeadOk (block v s' n) 0 v.leafMax 0 ∧
      ∀ x ∈ (leafRecs (block v s' n) 0).flatMap extentMaps, O' x.2 = some (.data i x.1)

theorem Covers.step (hc : Covers v s O i raw) (hext : ∀ p u, O p = some u → O' p = some u)
    (hstep : ∀ n, O n = some (.node i) → NodeStep v s s' O' i n) : Covers v s' O' i raw := by
  by_cases hmagic : HasMagic raw iblock
  · have hnodes := hc.nodes
    have hmaps := hc.maps
    unfold treeNodes at hnodes
    unfold treeMaps at hmaps
    rw [if_pos hmagic] at hnodes hmaps
    obtain ⟨htree, hsame, hnew⟩ := @tree_step v s s' _ _ _ _ (hc.ok hmagic) fun n hn =>
      (hstep n (hnodes n hn)).imp_right fun h => ⟨h.1, h.2.1⟩
    refine ⟨fun _ => htree, fun n hn => ?_, fun x hx => ?_⟩
    · unfold treeNodes at hn
      rw [if_pos hmagic, hsame] at hn
      exact hext _ _ (hnodes n hn)
    · unfold treeMaps at hx
      rw [if_pos hmagic] at hx
      rcases hnew x hx with hold | ⟨n, hn, hne, hmem⟩
      · exact hext _ _ (hmaps x hold)
      · exact ((hstep n (hnodes n hn)).resolve_left hne).2.2 x hmem
  · refine ⟨fun h => absurd h hmagic, fun n hn => ?_, fun x hx => ?_⟩
    · unfold treeNodes at hn
      rw [if_neg hmagic] at hn
      cases hn
    · unfold treeMaps at hx
      rw [if_neg hmagic] at hx
      cases hx

theorem Covers.agree {raw' : Bytes} (hc : Covers v s O i raw)
    (h : NodeAgree raw raw' iblock iblock 4) : Covers v s O i raw' := by
  obtain ⟨hok, hnodes, hmaps, -⟩ := @root_agree v s 0 _ _ h hc.ok
  refine ⟨hok, ?_, ?_⟩
  · rw [hnodes]
    exact hc.nodes
  · rw [hmaps]
    exact hc.maps

/-- A root with records of its own. -/
theorem covers_flat (hhead : HeadOk raw iblock 4 0)
    (hmaps : ∀ x ∈ (leafRecs raw iblock).flatMap extentMaps, O x.2 = some (.data i x.1)) :
    Covers v s O i raw := by
  have hdepth : rootDepth raw = 0 := hhead.depth
  refine ⟨fun _ => ?_, fun n hn => ?_, fun x hx => ?_⟩
  · rw [hdepth]
    exact hhead
  · unfold treeNodes at hn
    rw [if_pos hhead.magic, hdepth] at hn
    cases hn
  · unfold treeMaps at hx
    rw [if_pos hhead.magic, hdepth] at hx
    exact hmaps x hx

/-- A root with one level of leaves. -/
theorem covers_deep (htree : TreeOk v s 1 raw iblock 4)
    (hnodes : ∀ x ∈ kidsOf raw iblock, O x.2 = some (.node i))
    (hmaps : ∀ x ∈ kidsOf raw iblock, ∀ y ∈ (leafRecs (block v s x.2) 0).flatMap extentMaps,
      O y.2 = some (.data i y.1)) : Covers v s O i raw := by
  have hdepth : rootDepth raw = 0 + 1 := htree.headOk.depth
  refine ⟨fun _ => ?_, fun n hn => ?_, fun y hy => ?_⟩
  · rw [hdepth]
    exact htree
  · unfold treeNodes at hn
    rw [if_pos htree.headOk.magic, hdepth] at hn
    obtain ⟨x, hx, hmem⟩ := List.mem_flatMap.mp hn
    rcases List.mem_cons.mp hmem with rfl | hnil
    · exact hnodes x hx
    · cases hnil
  · unfold treeMaps at hy
    rw [if_pos htree.headOk.magic, hdepth] at hy
    obtain ⟨x, hx, hmem⟩ := List.mem_flatMap.mp hy
    exact hmaps x hx y hmem

theorem Covers.kids (hc : Covers v s O i raw) (htree : TreeOk v s 1 raw iblock 4) :
    (∀ x ∈ kidsOf raw iblock, O x.2 = some (.node i)) ∧
      ∀ x ∈ kidsOf raw iblock, ∀ y ∈ (leafRecs (block v s x.2) 0).flatMap extentMaps,
        O y.2 = some (.data i y.1) := by
  have hdepth : rootDepth raw = 0 + 1 := htree.headOk.depth
  have hnodes := hc.nodes
  have hmaps := hc.maps
  unfold treeNodes at hnodes
  unfold treeMaps at hmaps
  rw [if_pos htree.headOk.magic, hdepth] at hnodes hmaps
  exact ⟨fun x hx => hnodes _ (List.mem_flatMap.mpr ⟨x, hx, List.mem_cons_self⟩),
    fun x hx y hy => hmaps _ (List.mem_flatMap.mpr ⟨x, hx, hy⟩)⟩

theorem Covers.flat (hc : Covers v s O i raw) (hhead : HeadOk raw iblock 4 0) :
    ∀ x ∈ (leafRecs raw iblock).flatMap extentMaps, O x.2 = some (.data i x.1) := by
  have hmaps := hc.maps
  unfold treeMaps at hmaps
  rw [if_pos hhead.magic, show rootDepth raw = 0 from hhead.depth] at hmaps
  exact hmaps

/-! ## Volumes -/

/-- The number of links in a slot of the inode table. -/
def linksOf (raw : Bytes) : ℕ := raw.getLE 0x1A 2

/-- An inode that something links to. -/
def InUse (v : Ext4) (L : Layout) (s : FsState) (i : ℕ) : Prop :=
  IsInode v i ∧ linksOf (slot v L s i) ≠ 0

instance (v : Ext4) (L : Layout) (s : FsState) (i : ℕ) : Decidable (InUse v L s i) :=
  inferInstanceAs (Decidable ((0 < i ∧ i ≤ v.inodesTotal) ∧ linksOf (slot v L s i) ≠ 0))

/-- `O` covers the trees of all inodes in use, these are marked, and what `O` gives an owner
is a marked data block. -/
structure Good (v : Ext4) (L : Layout) (O : ℕ → Option Use) (s : FsState) : Prop
    extends Placed v L s where
  used : ∀ p u, O p = some u →
    InUse v L s u.ino ∧ IsBlock v p ∧ L.role p = .data ∧ marked v L s p = true
  slots : ∀ i, InUse v L s i → Covers v s O i (slot v L s i)
  inodes : ∀ i, InUse v L s i → inodeMarked v L s i = true

/-- All checksums are valid: of the metadata, of inodes in use, of extent nodes, and of
directory blocks.  In an indexed directory only the leaves have this kind of tail. -/
structure Sealed (v : Ext4) (L : Layout) (O : ℕ → Option Use) (s : FsState) : Prop where
  metadata : MetaSums v L s
  inodes : ∀ i, InUse v L s i → InodeSum v i (slot v L s i)
  nodes : ∀ n i, O n = some (.node i) → ExtentSum v i (genOf (slot v L s i)) (block v s n)
  dirs : ∀ p i lb, O p = some (.data i lb) → (inodeOf v L s i).isDir = true →
    ((inodeOf v L s i).flags &&& 0x1000 ≠ 0 → HasTail v (block v s p)) →
    DirSum v i (genOf (slot v L s i)) (block v s p)

/-- A good volume whose checksums are valid if `T` asks for that. -/
structure Vol (v : Ext4) (L : Layout) (T : Prop) (O : ℕ → Option Use) (s : FsState) : Prop
    extends Good v L O s where
  checked : T → Sealed v L O s

/-- The data blocks of inode `i` and those of nobody. -/
def Mine (O : ℕ → Option Use) (i b : ℕ) : Prop := ∀ u, O b = some u → u.ino = i

/-- A step of a call that works on inode `i`. -/
structure Step (v : Ext4) (L : Layout) (T : Prop) (i : ℕ) (O : ℕ → Option Use) (s : FsState)
    (O' : ℕ → Option Use) (s' : FsState) : Prop where
  touch : Touches v L (Mine O i) s s'
  ext : ∀ p u, O p = some u → O' p = some u
  fresh : ∀ p u, O' p = some u → O p = some u ∨
    u.ino = i ∧ IsBlock v p ∧ L.role p = .data ∧ marked v L s' p = true
  leaves : ∀ n, O n = some (.node i) → NodeStep v s s' O' i n
  nodeSums : T → ∀ n, O' n = some (.node i) → O n = some (.node i) ∧ block v s' n = block v s n ∨
    ExtentSum v i (genOf (slot v L s i)) (block v s' n)
  dirSums : T → (inodeOf v L s i).isDir = true → ∀ p lb, O' p = some (.data i lb) →
    O p = some (.data i lb) ∧ block v s' p = block v s p ∨
      DirSum v i (genOf (slot v L s i)) (block v s' p)

variable {T : Prop}

theorem Step.refl (v : Ext4) (L : Layout) (T : Prop) (i : ℕ) (O : ℕ → Option Use) (s : FsState) :
    Step v L T i O s O s :=
  ⟨Touches.refl v L _ s, fun _ _ => id, fun _ _ => Or.inl, fun _ _ => Or.inl rfl,
    fun _ _ hn => Or.inl ⟨hn, rfl⟩, fun _ _ _ _ hp => Or.inl ⟨hp, rfl⟩⟩

theorem InUse.congr (h : InUse v L s i) (hslot : slot v L s' i = slot v L s i) : InUse v L s' i :=
  ⟨h.1, hslot ▸ h.2⟩

theorem inodeOf_congr (h : slot v L s' i = slot v L s i) : inodeOf v L s' i = inodeOf v L s i := by
  unfold inodeOf
  rw [h]

theorem NodeStep.trans {n : ℕ} (h : NodeStep v s s' O' i n) (h' : NodeStep v s' s'' O'' i n)
    (hext : ∀ p u, O' p = some u → O'' p = some u) : NodeStep v s s'' O'' i n := by
  rcases h' with hsame' | ⟨hhead, hhead', hmaps⟩
  · rcases h with hsame | ⟨hhead, hhead', hmaps⟩
    · exact Or.inl (hsame'.trans hsame)
    · refine Or.inr ⟨hhead, ?_, fun x hx => ?_⟩
      · rw [hsame']
        exact hhead'
      · rw [hsame'] at hx
        exact hext _ _ (hmaps x hx)
  · refine Or.inr ⟨?_, hhead', hmaps⟩
    rcases h with hsame | ⟨hhead₀, -, -⟩
    · rw [← hsame]
      exact hhead
    · exact hhead₀

theorem Step.trans (hi : IsInode v i) (h : Step v L T i O s O' s') (h' : Step v L T i O' s' O'' s'') :
    Step v L T i O s O'' s'' := by
  have hslot := h.touch.slots i hi
  refine ⟨?_, fun p u hp => h'.ext p u (h.ext p u hp), fun p u hp => ?_, fun n hn => ?_, ?_, ?_⟩
  · exact h.touch.trans (h'.touch.mono fun b hb u hu => hb u (h.ext b u hu))
  · rcases h'.fresh p u hp with hold | hnew
    · refine (h.fresh p u hold).imp_right fun ⟨hu, hp, hrole, hmark⟩ => ?_
      exact ⟨hu, hp, hrole, h'.touch.marks p hp hmark⟩
    · exact Or.inr hnew
  · exact (h.leaves n hn).trans (h'.leaves n (h.ext _ _ hn)) h'.ext
  · intro ht n hn
    rcases h'.nodeSums ht n hn with ⟨hold, hsame⟩ | hsum
    · rw [hsame]
      exact h.nodeSums ht n hold
    · rw [hslot] at hsum
      exact Or.inr hsum
  · intro ht hdir p lb hp
    have hdir' : (inodeOf v L s' i).isDir = true := by
      rw [inodeOf_congr hslot]
      exact hdir
    rcases h'.dirSums ht hdir' p lb hp with ⟨hold, hsame⟩ | hsum
    · rw [hsame]
      exact h.dirSums ht hdir p lb hold
    · rw [hslot] at hsum
      exact Or.inr hsum

/-- The inode in memory keeps its tree. -/
theorem Step.covers (h : Step v L T i O s O' s') (hc : Covers v s O i raw) : Covers v s' O' i raw :=
  hc.step h.ext h.leaves

/-- What belongs to others stays. -/
theorem Step.others (h : Step v L T i O s O' s') (hgood : Good v L O s) {p : ℕ} {u : Use}
    (hp : O p = some u) (hne : u.ino ≠ i) : block v s' p = block v s p :=
  h.touch.other p (hgood.used p u hp).2.2.1 fun hmine => hne (hmine u hp)

theorem Step.old {p : ℕ} {u : Use} (h : Step v L T i O s O' s') (hp : O' p = some u)
    (hne : u.ino ≠ i) : O p = some u :=
  (h.fresh p u hp).resolve_right fun hnew => hne hnew.1

/-- The checksums are valid after a step. -/
theorem Step.seals (h : Step v L T i O s O' s') (hgood : Good v L O s)
    (ht : T) (hmeta : v.metaCsum = true) (hs : Sealed v L O s)
    (howner : ∀ p u, O' p = some u → IsInode v u.ino) : Sealed v L O' s' := by
  have hslot := h.touch.slots
  refine ⟨h.touch.sums hmeta hs.metadata, fun j hj => ?_, fun n j hn => ?_,
    fun p j lb hp hdir htail => ?_⟩
  · rw [hslot j hj.1]
    exact hs.inodes j (hj.congr (hslot j hj.1).symm)
  · rw [hslot j (howner n _ hn)]
    by_cases hji : j = i
    · subst hji
      rcases h.nodeSums ht n hn with ⟨hold, hsame⟩ | hsum
      · rw [hsame]
        exact hs.nodes n j hold
      · exact hsum
    · have hold := h.old hn hji
      rw [h.others hgood hold hji]
      exact hs.nodes n j hold
  · have hj := hslot j (howner p _ hp)
    rw [inodeOf_congr hj] at hdir htail
    rw [hj]
    by_cases hji : j = i
    · subst hji
      rcases h.dirSums ht hdir p lb hp with ⟨hold, hsame⟩ | hsum
      · rw [hsame] at htail ⊢
        exact hs.dirs p j lb hold hdir htail
      · exact hsum
    · have hold := h.old hp hji
      rw [h.others hgood hold hji] at htail ⊢
      exact hs.dirs p j lb hold hdir htail

/-- A step keeps the volume good.  Only an inode in use gets new blocks. -/
theorem Step.vol (hT : T → v.metaCsum = true) (hi : InUse v L s i ∨ O' = O)
    (h : Step v L T i O s O' s') (hvol : Vol v L T O s) : Vol v L T O' s' := by
  have hslot := h.touch.slots
  have howner : ∀ p u, O' p = some u → InUse v L s u.ino := by
    intro p u hp
    rcases hi with hi | rfl
    · rcases h.fresh p u hp with hold | ⟨hu, -⟩
      · exact (hvol.used p u hold).1
      · exact hu ▸ hi
    · exact (hvol.used p u hp).1
  refine ⟨⟨h.touch.placed hvol.toPlaced, fun p u hp => ?_, fun j hj => ?_, fun j hj => ?_⟩,
    fun ht => h.seals hvol.toGood ht (hT ht) (hvol.checked ht) fun p u hp => (howner p u hp).1⟩
  · have huse := howner p u hp
    refine ⟨huse.congr (hslot _ huse.1), ?_⟩
    rcases h.fresh p u hp with hold | ⟨-, hnew⟩
    · obtain ⟨-, hblock, hrole, hmark⟩ := hvol.used p u hold
      exact ⟨hblock, hrole, h.touch.marks p hblock hmark⟩
    · exact hnew
  · have hj' := hj.congr (hslot j hj.1).symm
    rw [hslot j hj.1]
    by_cases hji : j = i
    · subst hji
      exact h.covers (hvol.slots j hj')
    · exact (hvol.slots j hj').step h.ext fun n hn => Or.inl (h.others hvol.toGood hn hji)
  · rw [h.touch.inodes j hj.1]
    exact hvol.inodes j (hj.congr (hslot j hj.1).symm)

/-! ## Blocks that nobody owns yet -/

/-- Block `p` is marked and belongs to nobody yet. -/
structure Held (v : Ext4) (L : Layout) (O : ℕ → Option Use) (s : FsState) (p : ℕ) : Prop where
  isBlock : IsBlock v p
  role : L.role p = .data
  mark : marked v L s p = true
  free : O p = none

/-- The owners with one more. -/
def give (O : ℕ → Option Use) (p : ℕ) (u : Use) : ℕ → Option Use := Function.update O p (some u)

theorem give_self (O : ℕ → Option Use) (p : ℕ) (u : Use) : give O p u p = some u :=
  Function.update_self ..

theorem give_ext {p : ℕ} {u : Use} (hp : O p = none) : ∀ q w, O q = some w → give O p u q = some w := by
  intro q w hq
  have hne : q ≠ p := by
    rintro rfl
    rw [hp] at hq
    cases hq
  rw [give, Function.update_of_ne hne, hq]

theorem give_cases {p q : ℕ} {u w : Use} (h : give O p u q = some w) :
    q = p ∧ w = u ∨ q ≠ p ∧ O q = some w := by
  by_cases hq : q = p
  · subst hq
    rw [give_self] at h
    exact Or.inl ⟨rfl, (Option.some.inj h).symm⟩
  · rw [give, Function.update_of_ne hq] at h
    exact Or.inr ⟨hq, h⟩

end Pinx.Analysis
