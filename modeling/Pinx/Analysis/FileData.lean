import Pinx.Analysis.Directories
import Pinx.Analysis.FileReads

/-!
# ext4: the bytes of a file

What `read_file` returns is a matter of one function: the block a lookup finds for a
logical block, or zeros where it finds none.  A write is described by what it does to
that function.
-/

namespace Pinx.Analysis

open Pinx.Foundation Pinx.Model

variable {v : Ext4} {L : Layout} {s s' s'' : FsState} {O : ℕ → Option Use} {i x lb n : ℕ}
  {raw raw' raw'' : Bytes}

/-- Logical block `lb` of the file with this root, as a read finds it. -/
def blockAt (v : Ext4) (s : FsState) (raw : Bytes) (lb : ℕ) : Except FsFail Bytes :=
  match treeLook v s raw lb with
  | .error e => .error e
  | .ok none => .ok fun _ => 0
  | .ok (some p) => .ok (block v s p)

/-- Byte `x` of the file with this root, as a read finds it. -/
def byteAt (v : Ext4) (s : FsState) (raw : Bytes) (x : ℕ) : Except FsFail UInt8 :=
  (blockAt v s raw (x / v.bs % 2 ^ 32)).map fun blk => blk (x % v.bs)

theorem blockAt_none (h : treeLook v s raw lb = .ok none) :
    blockAt v s raw lb = .ok fun _ => 0 := by
  rw [blockAt, h]

theorem blockAt_some {p : ℕ} (h : treeLook v s raw lb = .ok (some p)) :
    blockAt v s raw lb = .ok (block v s p) := by
  rw [blockAt, h]

/-- A block is read as it was if it is found where it was and has the bytes it had. -/
theorem blockAt_congr (hlook : treeLook v s' raw' lb = treeLook v s raw lb)
    (hblock : ∀ p, treeLook v s raw lb = .ok (some p) → block v s' p = block v s p) :
    blockAt v s' raw' lb = blockAt v s raw lb := by
  unfold blockAt
  rw [hlook]
  split
  · rfl
  · rfl
  · rename_i p hp
    rw [hblock p hp]

theorem byteAt_eq_ok {c : UInt8} :
    byteAt v s raw x = .ok c ↔
      ∃ b, blockAt v s raw (x / v.bs % 2 ^ 32) = .ok b ∧ b (x % v.bs) = c := by
  unfold byteAt
  cases blockAt v s raw (x / v.bs % 2 ^ 32) with
  | error e => exact ⟨nofun, nofun⟩
  | ok b => exact ⟨fun h => ⟨b, rfl, Except.ok.inj h⟩, fun ⟨b', hb, h⟩ => by cases hb; exact congrArg _ h⟩

/-- The bytes of a file are a matter of its root, its nodes and its blocks. -/
theorem byteAt_congr (hc : Covers v s O i raw) (hagree : NodeAgree raw raw' iblock iblock 4)
    (hblocks : ∀ p u, O p = some u → u.ino = i → block v s' p = block v s p) (x : ℕ) :
    byteAt v s' raw' x = byteAt v s raw x := by
  unfold byteAt
  rw [blockAt_congr (treeLook_congr hc hagree (fun n hn => hblocks n _ hn rfl) _) fun p hp =>
    hblocks p _ (hc.maps _ (treeLook_mem hp)) rfl]

/-! ## Reading -/

section Reading

variable (hv : GeometryOk v) (hgood : Good v L O s) {inode : Inode}
  (hc : Covers v s O i inode.raw)
include hv hgood hc

/-- A read of one byte is a matter of the tree and the blocks. -/
theorem fileByte_eq (x : ℕ) : fileByte v inode x s = (byteAt v s inode.raw x, s) := by
  unfold fileByte byteAt blockAt
  cases hlook : treeLook v s inode.raw (x / v.bs % 2 ^ 32) with
  | error e => rw [Prog.bind_error (by rw [mapBlock_eq hv hc.ok, hlook])]; rfl
  | ok found =>
    rw [Prog.bind_ok (by rw [mapBlock_eq hv hc.ok, hlook])]
    cases found with
    | none => rfl
    | some p =>
      exact Prog.bind_ok (readFsb_ok hv (hgood.used p _ (hc.maps _ (treeLook_mem hlook))).2.1.2)

end Reading

/-- The root of an inode on disk. -/
theorem raw_inodeOf (v : Ext4) (L : Layout) (s : FsState) (i : ℕ) :
    (inodeOf v L s i).raw = slot v L s i := Bytes.clip_clip _

section ReadFile

variable (hv : GeometryOk v) (hL : LayoutOk v L) (hgood : Good v L O s) (hi : InUse v L s i)
  (hfile : (inodeOf v L s i).isFile = true)
include hv hL hgood hi hfile

/-- A file whose bytes are those of `f` is read as `f` has it, up to its size. -/
theorem readFile_eq {f : ℕ → UInt8} (offset len : ℕ)
    (hf : ∀ y < (inodeOf v L s i).size, byteAt v s (slot v L s i) y = .ok (f y)) :
    readFile v i offset len s =
      (.ok ((List.range' offset (min ((inodeOf v L s i).size - offset) len)).map f), s) := by
  have hcov := hgood.slots i hi
  rw [← raw_inodeOf] at hcov hf
  refine (readFile_iff hv.bs_pos (readInode_ok hv hL hgood.placed hi.1) hfile).mpr ⟨?_, fun k hk => ?_⟩
  · rw [List.length_map, List.length_range', Nat.min_comm]
  · rw [List.length_map, List.length_range'] at hk
    rw [fileByte_eq hv hgood hcov, hf _ (by omega), List.getD_eq_getElem _ _ (by simpa using hk)]
    simp

/-- One byte of a file that is read. -/
theorem readFile_one {c : UInt8} :
    (readFile v i x 1 s).1 = .ok [c] ↔
      x < (inodeOf v L s i).size ∧ byteAt v s (slot v L s i) x = .ok c := by
  have hcov := hgood.slots i hi
  rw [← raw_inodeOf] at hcov ⊢
  have hreads : Prog.Reads (readFile v i x 1) := (reads_readInto v i x _).bind fun _ => Prog.reads_pure _
  have hone : readFile v i x 1 s = (.ok [c], s) ↔ [c].length = min 1 ((inodeOf v L s i).size - x) ∧
      ReadsBytes v (inodeOf v L s i) s x [c] :=
    readFile_iff hv.bs_pos (readInode_ok hv hL hgood.placed hi.1) hfile
  have hbyte : ReadsBytes v (inodeOf v L s i) s x [c] ↔ byteAt v s (inodeOf v L s i).raw x = .ok c := by
    constructor
    · intro h
      have := h 0 Nat.zero_lt_one
      rw [Nat.add_zero, fileByte_eq hv hgood hcov] at this
      exact congrArg Prod.fst this
    · intro h k hk
      rw [Nat.lt_one_iff.mp hk, Nat.add_zero, fileByte_eq hv hgood hcov, h]
      rfl
  rw [hreads.eq, Prod.mk.injEq, and_iff_left rfl, hbyte, List.length_singleton] at hone
  rw [hone]
  exact and_congr_left fun _ => by omega

end ReadFile

/-! ## Writing -/

/-- Bytes outside of `[cur, cur + n)` that a read found are found as they were. -/
def KeepsBytes (v : Ext4) (s : FsState) (raw : Bytes) (s' : FsState) (raw' : Bytes) (cur n : ℕ) : Prop :=
  ∀ x c, x < (2 ^ 32 - 1) * v.bs → x < cur ∨ cur + n ≤ x → byteAt v s raw x = .ok c →
    byteAt v s' raw' x = .ok c

/-- What writing `bytes` from byte `cur` on does to a file. -/
structure WritesBytes (v : Ext4) (s : FsState) (raw : Bytes) (s' : FsState) (raw' : Bytes) (cur : ℕ)
    (bytes : List UInt8) : Prop where
  keeps : KeepsBytes v s raw s' raw' cur bytes.length
  written : ∀ k < bytes.length, byteAt v s' raw' (cur + k) = .ok (bytes.getD k 0)

variable {cur m : ℕ} {bytes more : List UInt8}

theorem KeepsBytes.refl (v : Ext4) (s : FsState) (raw : Bytes) (cur n : ℕ) :
    KeepsBytes v s raw s raw cur n := fun _ _ _ _ h => h

theorem KeepsBytes.trans (h : KeepsBytes v s raw s' raw' cur n)
    (h' : KeepsBytes v s' raw' s'' raw'' (cur + n) m) :
    KeepsBytes v s raw s'' raw'' cur (n + m) := by
  intro x c hx hout hbyte
  refine h' x c hx ?_ (h x c hx ?_ hbyte)
  · omega
  · omega

/-- The bytes of a file may be read from any state and root that give the same ones. -/
theorem WritesBytes.read_from (h : WritesBytes v s raw s' raw' cur bytes)
    (hsame : ∀ x, byteAt v s'' raw'' x = byteAt v s' raw' x) :
    WritesBytes v s raw s'' raw'' cur bytes :=
  ⟨fun x c hx hout hbyte => (hsame x).trans (h.keeps x c hx hout hbyte),
    fun k hk => (hsame _).trans (h.written k hk)⟩

theorem WritesBytes.append (h : WritesBytes v s raw s' raw' cur bytes)
    (h' : WritesBytes v s' raw' s'' raw'' (cur + bytes.length) more)
    (hend : cur + bytes.length ≤ (2 ^ 32 - 1) * v.bs) :
    WritesBytes v s raw s'' raw'' cur (bytes ++ more) := by
  refine ⟨?_, fun k hk => ?_⟩
  · rw [List.length_append]
    exact h.keeps.trans h'.keeps
  · rw [List.length_append] at hk
    by_cases hfirst : k < bytes.length
    · rw [List.getD_append _ _ _ _ hfirst]
      exact h'.keeps _ _ (by omega) (Or.inl (by omega)) (h.written k hfirst)
    · rw [List.getD_append_right _ _ _ _ (Nat.not_lt.mp hfirst)]
      have hsecond := h'.written (k - bytes.length) (by omega)
      rwa [show cur + bytes.length + (k - bytes.length) = cur + k by omega] at hsecond

/-- A block with a part of it replaced, as it is read back. -/
theorem blit_in_block {b src : Bytes} {a k : ℕ} (hk : k < v.bs) :
    Bytes.clip v.bs (b.blit a n src) k = if a ≤ k ∧ k < a + n then src (k - a) else b k :=
  Bytes.clip_inside hk

section Turn

variable (hbs : 0 < v.bs)
include hbs

/-- The block of a byte within the numbers there are. -/
theorem block_number (hx : x < (2 ^ 32 - 1) * v.bs) :
    x / v.bs < 2 ^ 32 - 1 ∧ x / v.bs % 2 ^ 32 = x / v.bs := by
  have hlt := (Nat.div_lt_iff_lt_mul hbs).mpr hx
  exact ⟨hlt, Nat.mod_eq_of_lt (by omega)⟩

/-- A turn that changes a part of one block. -/
theorem keepsBytes_of_block
    (hothers : ∀ y < 2 ^ 32 - 1, y ≠ cur / v.bs → ∀ b, blockAt v s raw y = .ok b →
      blockAt v s' raw' y = .ok b)
    (hhere : ∀ b, blockAt v s raw (cur / v.bs) = .ok b → ∃ b', blockAt v s' raw' (cur / v.bs) = .ok b' ∧
      ∀ k < v.bs, k < cur % v.bs ∨ cur % v.bs + n ≤ k → b' k = b k) :
    KeepsBytes v s raw s' raw' cur n := by
  intro x c hx hout hbyte
  obtain ⟨hlt, hmod⟩ := block_number hbs hx
  obtain ⟨b, hb, rfl⟩ := byteAt_eq_ok.mp hbyte
  rw [hmod] at hb
  rw [byteAt_eq_ok, hmod]
  by_cases hsame : x / v.bs = cur / v.bs
  · rw [hsame] at hb ⊢
    obtain ⟨b', hb', hkeep⟩ := hhere b hb
    refine ⟨b', hb', hkeep _ (Nat.mod_lt x hbs) ?_⟩
    have h₁ := Nat.div_add_mod x v.bs
    have h₂ := Nat.div_add_mod cur v.bs
    rw [hsame] at h₁
    omega
  · exact ⟨b, hothers _ hlt hsame b hb, rfl⟩

/-- A turn that replaces a part of one block by the first bytes of a list. -/
theorem writesBytes_of_block (hcur : cur < (2 ^ 32 - 1) * v.bs) (hfit : cur % v.bs + n ≤ v.bs)
    (hlen : n ≤ bytes.length)
    (hothers : ∀ y < 2 ^ 32 - 1, y ≠ cur / v.bs → ∀ b, blockAt v s raw y = .ok b →
      blockAt v s' raw' y = .ok b)
    {b : Bytes} (hold : blockAt v s raw (cur / v.bs) = .ok b)
    (hnew : blockAt v s' raw' (cur / v.bs) =
      .ok (Bytes.clip v.bs (b.blit (cur % v.bs) n fun k => bytes.getD k 0))) :
    WritesBytes v s raw s' raw' cur (bytes.take n) := by
  have hlength : (bytes.take n).length = n := by
    rw [List.length_take]
    omega
  refine ⟨?_, fun k hk => ?_⟩
  · rw [hlength]
    refine keepsBytes_of_block hbs hothers fun b' hb' => ⟨_, hnew, fun k hk hout => ?_⟩
    rw [hold] at hb'
    cases hb'
    rw [blit_in_block hk, if_neg (by omega)]
  · rw [hlength] at hk
    obtain ⟨hdiv, hmod⟩ := add_in_block (v := v) (x := cur) (n := k) (by omega)
    rw [byteAt_eq_ok, hdiv, (block_number hbs hcur).2, hmod]
    refine ⟨_, hnew, ?_⟩
    rw [blit_in_block (by omega), if_pos ⟨by omega, by omega⟩, Nat.add_sub_cancel_left,
      List.getD_eq_getElem?_getD, List.getD_eq_getElem?_getD, List.getElem?_take_of_lt hk]

end Turn

end Pinx.Analysis
