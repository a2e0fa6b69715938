import Pinx.Analysis.Ext4Create
import Pinx.Foundation.Transition

/-!
# Runs of a mounted volume

A run is a sequence of calls, each with a result or an error of the file system; a call
that panics or meets an I/O error ends it.  What well-formed means is said of the trees on
disk alone, with no owner map: `Ownership`, `Checksums` and, of the counts, `Accounts`.

A call on an inode in use with a tree of depth at most 1 keeps all three.
-/

namespace Pinx.Analysis

open Pinx.Foundation Pinx.Model

variable {v : Ext4} {L : Layout} {s s₀ s' : FsState} {O : ℕ → Option Use} {T : Prop} {i : ℕ}

/-! ## Calls -/

/-- The calls that change a volume. -/
inductive FsCall where
  | createFile (dir : ℕ) (name : List UInt8)
  | createDir (dir : ℕ) (name : List UInt8)
  | writeFile (ino offset : ℕ) (buf : List UInt8)

/-- The inode a call is asked to work on. -/
def FsCall.inode : FsCall → ℕ
  | .createFile dir _ => dir
  | .createDir dir _ => dir
  | .writeFile ino _ _ => ino

def FsCall.run (v : Ext4) : FsCall → Fs Unit
  | .createFile dir name => do let _ ← Model.createFile v dir name
  | .createDir dir name => do let _ ← Model.createDir v dir name
  | .writeFile ino offset buf => Model.writeFile v ino offset buf

instance : DecidablePred Skips := fun
  | .error e => match e with
    | .io => isTrue trivial
    | .noSpace | .notFound | .alreadyExists | .corrupt | .readOnly | .unsupported | .invalid =>
      isFalse id
  | .fault _ => isTrue trivial

/-- The state after a call, if it ends with a result or an error other than I/O. -/
def FsCall.exec (v : Ext4) (s : FsState) (c : FsCall) : Option FsState :=
  match c.run v s with
  | (.ok _, s') => some s'
  | (.error e, s') => if Skips e then none else some s'

/-- A call on an inode that is in use and has a shallow tree. -/
def ShallowCall (v : Ext4) (L : Layout) (s : FsState) (c : FsCall) (s' : FsState) : Prop :=
  Workable v L s c.inode ∧ c.exec v s = some s'

instance (v : Ext4) (L : Layout) (s : FsState) (i : ℕ) : Decidable (Workable v L s i) :=
  inferInstanceAs (Decidable ((0 < i ∧ i ≤ v.inodesTotal) → _ ∧ (HasMagic _ _ → _ ≤ _)))

/-! ## Well-formed volumes -/

/-- The blocks of the trees of inodes in use: all are marked data blocks, and none has two
owners. -/
structure Ownership (v : Ext4) (L : Layout) (s : FsState) : Prop extends Placed v L s where
  inodes : ∀ i, InUse v L s i → inodeMarked v L s i = true
  trees : ∀ i, InUse v L s i → RootOk v s (slot v L s i)
  nodes : ∀ i, InUse v L s i → ∀ n ∈ treeNodes v s (slot v L s i),
    IsBlock v n ∧ L.role n = .data ∧ marked v L s n = true
  maps : ∀ i, InUse v L s i → ∀ x ∈ treeMaps v s (slot v L s i),
    IsBlock v x.2 ∧ L.role x.2 = .data ∧ marked v L s x.2 = true
  nodesApart : ∀ i j, InUse v L s i → InUse v L s j → ∀ n ∈ treeNodes v s (slot v L s i),
    n ∈ treeNodes v s (slot v L s j) → i = j
  mapsApart : ∀ i j, InUse v L s i → InUse v L s j → ∀ x ∈ treeMaps v s (slot v L s i),
    ∀ y ∈ treeMaps v s (slot v L s j), x.2 = y.2 → i = j ∧ x.1 = y.1
  apart : ∀ i j, InUse v L s i → InUse v L s j → ∀ n ∈ treeNodes v s (slot v L s i),
    ∀ x ∈ treeMaps v s (slot v L s j), n ≠ x.2

instance (v : Ext4) (L : Layout) (s : FsState) : Decidable (PlacedAt v L s) :=
  inferInstanceAs (Decidable (∀ g < _, _ ∧ _ ∧ _))

theorem ends_of_isOk {r : Except FsFail Unit × FsState} (h : r.1.isOk = true) : r = (.ok (), r.2) := by
  obtain ⟨res, s⟩ := r
  cases res with
  | ok a => rfl
  | error e => cases h

/-- The tree of an inode is on marked data blocks. -/
def TreeHeld (v : Ext4) (L : Layout) (s : FsState) (i : ℕ) : Prop :=
  inodeMarked v L s i = true ∧ RootOk v s (slot v L s i) ∧
    ∀ p ∈ treeNodes v s (slot v L s i) ++ (treeMaps v s (slot v L s i)).map Prod.snd,
      (v.firstDataBlock ≤ p ∧ p < v.blocksTotal) ∧ L.role p = .data ∧ marked v L s p = true

/-- Two inodes have no block in common, and one inode no block twice. -/
def TreesApart (v : Ext4) (L : Layout) (s : FsState) (i j : ℕ) : Prop :=
  (∀ n ∈ treeNodes v s (slot v L s i), n ∈ treeNodes v s (slot v L s j) → i = j) ∧
    (∀ x ∈ treeMaps v s (slot v L s i), ∀ y ∈ treeMaps v s (slot v L s j),
      x.2 = y.2 → i = j ∧ x.1 = y.1) ∧
    ∀ n ∈ treeNodes v s (slot v L s i), ∀ x ∈ treeMaps v s (slot v L s j), n ≠ x.2

instance (v : Ext4) (L : Layout) (s : FsState) (i : ℕ) : Decidable (TreeHeld v L s i) :=
  inferInstanceAs (Decidable (_ ∧ RootOk _ _ _ ∧ ∀ p ∈ _, _))

instance (v : Ext4) (L : Layout) (s : FsState) (i j : ℕ) : Decidable (TreesApart v L s i j) :=
  inferInstanceAs (Decidable ((∀ n ∈ _, _ → _) ∧ (∀ x ∈ _, ∀ y ∈ _, _ → _) ∧ ∀ n ∈ _, ∀ x ∈ _, _))

/-- Ownership as it is evaluated on a sample: metadata only in the blocks `bs`, and only the
inodes `us` in use. -/
def OwnedAt (v : Ext4) (L : Layout) (s : FsState) (bs us : List ℕ) : Prop :=
  PlacedAt v L s ∧ (∀ b ∈ bs, marked v L s b = true) ∧
    (∀ i ∈ List.range (v.inodesTotal + 1), InUse v L s i → i ∈ us) ∧
    ∀ i ∈ us, TreeHeld v L s i ∧ ∀ j ∈ us, TreesApart v L s i j

instance (v : Ext4) (L : Layout) (s : FsState) (bs us : List ℕ) : Decidable (OwnedAt v L s bs us) :=
  inferInstanceAs (Decidable (_ ∧ (∀ b ∈ _, _) ∧ (∀ i ∈ _, _ → _) ∧ ∀ i ∈ _, _ ∧ ∀ j ∈ _, _))

theorem OwnedAt.mem {bs us : List ℕ} (h : OwnedAt v L s bs us) {i : ℕ} (hi : InUse v L s i) : i ∈ us :=
  h.2.2.1 i (List.mem_range.mpr (Nat.lt_succ_of_le hi.1.2)) hi

theorem OwnedAt.ownership {bs us : List ℕ} (h : OwnedAt v L s bs us)
    (hrole : ∀ {b}, L.role b ≠ .data → b ∈ bs) : Ownership v L s where
  placed := h.1
  metadata b hb := h.2.1 b (hrole hb)
  inodes i hi := (h.2.2.2 i (h.mem hi)).1.1
  trees i hi := (h.2.2.2 i (h.mem hi)).1.2.1
  nodes i hi n hn := (h.2.2.2 i (h.mem hi)).1.2.2 n (List.mem_append_left _ hn)
  maps i hi x hx :=
    (h.2.2.2 i (h.mem hi)).1.2.2 x.2 (List.mem_append_right _ (List.mem_map_of_mem hx))
  nodesApart i j hi hj := ((h.2.2.2 i (h.mem hi)).2 j (h.mem hj)).1
  mapsApart i j hi hj := ((h.2.2.2 i (h.mem hi)).2 j (h.mem hj)).2.1
  apart i j hi hj := ((h.2.2.2 i (h.mem hi)).2 j (h.mem hj)).2.2

/-- The checksums of the superblock, the descriptors and the bitmaps, of inodes in use, of
their extent nodes and of directory blocks.  In an indexed directory only the leaves have a
tail. -/
structure Checksums (v : Ext4) (L : Layout) (s : FsState) : Prop where
  metadata : MetaSums v L s
  inodes : ∀ i, InUse v L s i → InodeSum v i (slot v L s i)
  nodes : ∀ i, InUse v L s i → ∀ n ∈ treeNodes v s (slot v L s i),
    ExtentSum v i (genOf (slot v L s i)) (block v s n)
  dirs : ∀ i, InUse v L s i → (inodeOf v L s i).isDir = true →
    ∀ x ∈ treeMaps v s (slot v L s i),
      ((inodeOf v L s i).flags &&& 0x1000 ≠ 0 → HasTail v (block v s x.2)) →
      DirSum v i (genOf (slot v L s i)) (block v s x.2)

/-! ## Owner maps and well-formed volumes -/

open Classical in
/-- The owner of a block, read off the trees. -/
noncomputable def ownerOf (v : Ext4) (L : Layout) (s : FsState) (p : ℕ) : Option Use :=
  if h : ∃ i, InUse v L s i ∧ p ∈ treeNodes v s (slot v L s i) then some (.node h.choose)
  else if h : ∃ i, InUse v L s i ∧ ∃ lb, (lb, p) ∈ treeMaps v s (slot v L s i) then
    some (.data h.choose h.choose_spec.2.choose)
  else none

theorem ownerOf_node {p : ℕ} (h : ownerOf v L s p = some (.node i)) :
    InUse v L s i ∧ p ∈ treeNodes v s (slot v L s i) := by
  unfold ownerOf at h
  split at h
  · rename_i hex
    cases h
    exact hex.choose_spec
  · split at h <;> cases h

theorem ownerOf_data {p lb : ℕ} (h : ownerOf v L s p = some (.data i lb)) :
    InUse v L s i ∧ (lb, p) ∈ treeMaps v s (slot v L s i) := by
  unfold ownerOf at h
  split at h
  · cases h
  · split at h
    · rename_i hex
      cases h
      exact ⟨hex.choose_spec.1, hex.choose_spec.2.choose_spec⟩
    · cases h

/-- A well-formed volume is good for the owners read off it. -/
theorem Ownership.good (h : Ownership v L s) : Good v L (ownerOf v L s) s := by
  have hnode : ∀ i, InUse v L s i → ∀ n ∈ treeNodes v s (slot v L s i),
      ownerOf v L s n = some (.node i) := by
    intro i hi n hn
    have hex : ∃ i, InUse v L s i ∧ n ∈ treeNodes v s (slot v L s i) := ⟨i, hi, hn⟩
    unfold ownerOf
    rw [dif_pos hex, h.nodesApart _ i hex.choose_spec.1 hi n hex.choose_spec.2 hn]
  have hdata : ∀ i, InUse v L s i → ∀ x ∈ treeMaps v s (slot v L s i),
      ownerOf v L s x.2 = some (.data i x.1) := by
    intro i hi x hx
    have hno : ¬∃ j, InUse v L s j ∧ x.2 ∈ treeNodes v s (slot v L s j) := by
      rintro ⟨j, hj, hn⟩
      exact h.apart j i hj hi _ hn x hx rfl
    have hex : ∃ j, InUse v L s j ∧ ∃ lb, (lb, x.2) ∈ treeMaps v s (slot v L s j) :=
      ⟨i, hi, x.1, hx⟩
    obtain ⟨hi', hlb'⟩ := h.mapsApart _ i hex.choose_spec.1 hi _ hex.choose_spec.2.choose_spec x hx rfl
    unfold ownerOf
    rw [dif_neg hno, dif_pos hex]
    exact congrArg some (congr (congrArg Use.data hi') hlb')
  refine ⟨h.toPlaced, fun p u hp => ?_, fun i hi => ⟨h.trees i hi, hnode i hi, hdata i hi⟩, h.inodes⟩
  cases u with
  | node i =>
    obtain ⟨hi, hn⟩ := ownerOf_node hp
    exact ⟨hi, h.nodes i hi p hn⟩
  | data i lb =>
    obtain ⟨hi, hx⟩ := ownerOf_data hp
    exact ⟨hi, h.maps i hi _ hx⟩

theorem Checksums.sealed (h : Checksums v L s) : Sealed v L (ownerOf v L s) s := by
  refine ⟨h.metadata, h.inodes, fun n i hn => ?_, fun p i lb hp hdir htail => ?_⟩
  · obtain ⟨hi, hmem⟩ := ownerOf_node hn
    exact h.nodes i hi n hmem
  · obtain ⟨hi, hmem⟩ := ownerOf_data hp
    exact h.dirs i hi hdir _ hmem htail

/-- What a good volume comes to, without its owners. -/
theorem Good.ownership (h : Good v L O s) : Ownership v L s where
  toPlaced := h.toPlaced
  inodes := h.inodes
  trees i hi := (h.slots i hi).ok
  nodes i hi n hn := (h.used n _ ((h.slots i hi).nodes n hn)).2
  maps i hi x hx := (h.used x.2 _ ((h.slots i hi).maps x hx)).2
  nodesApart i j hi hj n hn hn' := by
    have howner := (h.slots i hi).nodes n hn
    rw [(h.slots j hj).nodes n hn'] at howner
    cases howner
    rfl
  mapsApart i j hi hj x hx y hy heq := by
    have howner := (h.slots i hi).maps x hx
    rw [heq, (h.slots j hj).maps y hy] at howner
    injection Option.some.inj howner with hino hlb
    exact ⟨hino.symm, hlb.symm⟩
  apart i j hi hj n hn x hx heq := by
    have howner := (h.slots i hi).nodes n hn
    rw [heq, (h.slots j hj).maps x hx] at howner
    cases howner

theorem Sealed.checksums (hgood : Good v L O s) (h : Sealed v L O s) : Checksums v L s where
  metadata := h.metadata
  inodes := h.inodes
  nodes i hi n hn := h.nodes n i ((hgood.slots i hi).nodes n hn)
  dirs i hi hdir x hx htail := h.dirs x.2 i x.1 ((hgood.slots i hi).maps x hx) hdir htail

/-! ## One call -/

/-- A call on a well-formed volume. -/
theorem shallowCall_settled (hv : GeometryOk v) (hL : LayoutOk v L) (hT : T → v.metaCsum = true)
    (hown : Ownership v L s) (hsums : T → Checksums v L s) {c : FsCall}
    (hcall : ShallowCall v L s c s') : Settled v L T s s' := by
  obtain ⟨hok, hexec⟩ := hcall
  have hvol : Vol v L T (ownerOf v L s) s := ⟨hown.good, fun ht => (hsums ht).sealed⟩
  have hends : Prog.Ends (fun _ s' => Settled v L T s s')
      (fun e s' => Skips e ∨ Settled v L T s s') (c.run v s) := by
    cases c with
    | createFile dir name =>
      exact Prog.Ends.bind (create_settled hv hL hT hvol hok name false) fun _ _ h =>
        Prog.ends_ok.mpr h
    | createDir dir name =>
      exact Prog.Ends.bind (create_settled hv hL hT hvol hok name true) fun _ _ h =>
        Prog.ends_ok.mpr h
    | writeFile ino offset buf => exact writeFile_settled hv hL hT hvol hok offset buf
  unfold FsCall.exec at hexec
  generalize c.run v s = r at hends hexec
  obtain ⟨r, s₁⟩ := r
  cases r with
  | ok a =>
    cases hexec
    have hset := Prog.ends_ok.mp hends
    exact hset
  | error e =>
    dsimp only at hexec
    split at hexec
    · cases hexec
    · rename_i hskip
      cases hexec
      exact (Prog.ends_error.mp hends).resolve_left hskip

end Pinx.Analysis
