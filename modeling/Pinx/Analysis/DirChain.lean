import Mathlib.Data.List.Basic
import Pinx.Analysis.Ext4Layout

/-!
# Directory blocks as chains of entries

A directory block is a chain of entries of various lengths, each of which says where the
next one starts.  A well-formed chain denotes the list of its entries, and what
`lookup`, `read_dir` and `add_dirent` do with a block are functions of that list.
-/

namespace Pinx.Analysis

open Pinx.Foundation Pinx.Model

/-! ## Chains -/

/-- An entry of a directory block.  One with inode number 0 is unused, and what it has for
a name does not count. -/
@[ext] structure Dirent where
  ino : ℕ
  reclen : ℕ
  ft : ℕ
  name : List UInt8
deriving DecidableEq, Repr

def direntAt (b : Bytes) (pos : ℕ) : Dirent where
  ino := b.getLE pos 4
  reclen := b.getLE (pos + 4) 2
  ft := b.getLE (pos + 7) 1
  name := if b.getLE pos 4 = 0 then [] else b.slice (pos + 8) (b.getLE (pos + 6) 1)

/-- The bytes an entry needs. -/
def Dirent.size (e : Dirent) : ℕ := roundDirSize e.name.length

/-- The entries of a block from `pos` on, each aligned and long enough, up to `stop`. -/
def EntryChain (b : Bytes) (stop : ℕ) : ℕ → List Dirent → Prop
  | pos, [] => pos = stop
  | pos, e :: es => direntAt b pos = e ∧ e.reclen % 4 = 0 ∧ e.size ≤ e.reclen ∧
      EntryChain b stop (pos + e.reclen) es

instance decidableEntryChain (b : Bytes) (stop : ℕ) :
    (pos : ℕ) → (es : List Dirent) → Decidable (EntryChain b stop pos es)
  | pos, [] => inferInstanceAs (Decidable (pos = stop))
  | pos, e :: es =>
    have := decidableEntryChain b stop (pos + e.reclen) es
    inferInstanceAs (Decidable (direntAt b pos = e ∧ e.reclen % 4 = 0 ∧ e.size ≤ e.reclen ∧
      EntryChain b stop (pos + e.reclen) es))

variable {v : Ext4} {b b' : Bytes} {pos mid stop needed fuel : ℕ} {e : Dirent}
  {es xs ys : List Dirent} {name : List UInt8} {ino ft : ℕ}

theorem le_roundDirSize (n : ℕ) : n + 8 ≤ roundDirSize n ∧ roundDirSize n ≤ n + 11 ∧
    roundDirSize n % 4 = 0 := by
  unfold roundDirSize
  omega

theorem Dirent.le_size (e : Dirent) : e.name.length + 8 ≤ e.size :=
  (le_roundDirSize _).1

theorem chain_append :
    EntryChain b stop pos (xs ++ ys) ↔ ∃ mid, EntryChain b mid pos xs ∧ EntryChain b stop mid ys := by
  induction xs generalizing pos with
  | nil => exact ⟨fun h => ⟨pos, rfl, h⟩, fun ⟨mid, heq, h⟩ => heq ▸ h⟩
  | cons e es ih =>
    constructor
    · rintro ⟨hat, halign, hsize, h⟩
      obtain ⟨mid, h₁, h₂⟩ := ih.mp h
      exact ⟨mid, ⟨hat, halign, hsize, h₁⟩, h₂⟩
    · rintro ⟨mid, ⟨hat, halign, hsize, h₁⟩, h₂⟩
      exact ⟨hat, halign, hsize, ih.mpr ⟨mid, h₁, h₂⟩⟩

/-- A chain ends where its entries say. -/
theorem EntryChain.end_unique {stop' : ℕ} (h : EntryChain b stop pos es) (h' : EntryChain b stop' pos es) :
    stop = stop' := by
  induction es generalizing pos with
  | nil => exact h.symm.trans h'
  | cons e es ih => exact ih h.2.2.2 h'.2.2.2

theorem EntryChain.length_le (h : EntryChain b stop pos es) : pos + 8 * es.length ≤ stop := by
  induction es generalizing pos with
  | nil => exact le_of_eq h
  | cons e es ih =>
    have hrest := ih h.2.2.2
    have hsize := h.2.2.1
    have := e.le_size
    rw [List.length_cons]
    omega

/-- An entry depends on its own bytes only. -/
theorem direntAt_congr (hsize : (direntAt b pos).size ≤ (direntAt b pos).reclen)
    (h : ∀ k, pos ≤ k → k < pos + (direntAt b pos).reclen → b' k = b k) :
    direntAt b' pos = direntAt b pos := by
  have hle := (direntAt b pos).le_size
  have hfield : ∀ a n, a + n ≤ 8 → b'.getLE (pos + a) n = b.getLE (pos + a) n := fun a n han =>
    Bytes.getLE_congr fun j hj => h _ (by omega) (by omega)
  have hino : b'.getLE pos 4 = b.getLE pos 4 := hfield 0 4 (by omega)
  have hlen : b'.getLE (pos + 6) 1 = b.getLE (pos + 6) 1 := hfield 6 1 (by omega)
  have hname : (direntAt b' pos).name = (direntAt b pos).name := by
    unfold direntAt
    dsimp only
    rw [hino, hlen]
    by_cases hzero : b.getLE pos 4 = 0
    · rw [if_pos hzero, if_pos hzero]
    · have hfull : (direntAt b pos).name.length = b.getLE (pos + 6) 1 := by
        unfold direntAt
        dsimp only
        rw [if_neg hzero, Bytes.slice, List.length_map, List.length_range]
      rw [if_neg hzero, if_neg hzero]
      exact Bytes.slice_congr fun j hj => h _ (by omega) (by omega)
  have hrec : (direntAt b' pos).reclen = (direntAt b pos).reclen := hfield 4 2 (by omega)
  have hft : (direntAt b' pos).ft = (direntAt b pos).ft := hfield 7 1 (by omega)
  exact Dirent.ext hino hrec hft hname

/-- A chain depends on the bytes between its ends only. -/
theorem EntryChain.congr (h : EntryChain b stop pos es) (hb : ∀ k, pos ≤ k → k < stop → b' k = b k) :
    EntryChain b' stop pos es := by
  induction es generalizing pos with
  | nil => exact h
  | cons e es ih =>
    obtain ⟨rfl, halign, hsize, hrest⟩ := h
    have hle := hrest.length_le
    refine ⟨direntAt_congr hsize fun k hlo hhi => hb k hlo (by omega), halign, hsize, ?_⟩
    exact ih hrest fun k hlo hhi => hb k (by omega) hhi

/-! ## What a block lists -/

/-- The entries in use, as `read_dir` reports them. -/
def liveOf (es : List Dirent) : List DirEnt :=
  (es.filter fun e => e.ino ≠ 0).map fun e => ⟨e.ino, e.ft, e.name⟩

theorem liveOf_append : liveOf (xs ++ ys) = liveOf xs ++ liveOf ys := by
  unfold liveOf
  rw [List.filter_append, List.map_append]

theorem liveOf_dead (h : e.ino = 0) : liveOf (e :: es) = liveOf es := by
  simp [liveOf, h]

theorem liveOf_cons (h : e.ino ≠ 0) : liveOf (e :: es) = ⟨e.ino, e.ft, e.name⟩ :: liveOf es := by
  simp [liveOf, h]

/-- The inode number a list of entries gives a name. -/
def binding (name : List UInt8) (entries : List DirEnt) : Option ℕ :=
  (entries.find? fun d => d.name = name).map DirEnt.ino

theorem binding_append (name : List UInt8) (xs ys : List DirEnt) :
    binding name (xs ++ ys) = (binding name xs).or (binding name ys) := by
  unfold binding
  rw [List.find?_append]
  cases xs.find? fun d => d.name = name <;> rfl

/-- What is known of the first entry of a chain: the turn of each loop over it. -/
theorem EntryChain.head (h : EntryChain b stop pos (e :: es)) :
    pos + 8 ≤ stop ∧ b.getLE pos 4 = e.ino ∧ b.getLE (pos + 4) 2 = e.reclen ∧ e.reclen ≠ 0 ∧
      b.getLE (pos + 7) 1 = e.ft ∧ pos + e.reclen ≤ stop ∧ (e.ino ≠ 0 →
        b.slice (pos + 8) (b.getLE (pos + 6) 1) = e.name ∧ b.getLE (pos + 6) 1 = e.name.length) := by
  obtain ⟨rfl, halign, hsize, hrest⟩ := h
  have hle := (direntAt b pos).le_size
  have hend := hrest.length_le
  refine ⟨by omega, rfl, rfl, by omega, rfl, by omega, fun hne => ?_⟩
  have hname : (direntAt b pos).name = b.slice (pos + 8) (b.getLE (pos + 6) 1) := if_neg hne
  refine ⟨hname.symm, ?_⟩
  rw [hname, Bytes.slice, List.length_map, List.length_range]

section Loops

variable (hlimit : v.dirLimit ≤ maxBlockSize) (h : EntryChain b v.dirLimit pos es)
include hlimit h

/-- SOURCE: ext4.rs:1159-1173 -/
theorem lookupBlk_chain (hfuel : es.length ≤ fuel) :
    lookupBlk v b name fuel pos = .ok (binding name (liveOf es)) := by
  induction es generalizing pos fuel with
  | nil =>
    cases fuel with
    | zero => rfl
    | succ fuel =>
      have hpos : pos = v.dirLimit := h
      rw [lookupBlk, if_pos (by omega)]
      rfl
  | cons e es ih =>
    obtain ⟨fuel, rfl⟩ : ∃ n, fuel = n + 1 := ⟨fuel - 1, by rw [List.length_cons] at hfuel; omega⟩
    obtain ⟨hroom, hino, hrec, hne, -, hend, hname⟩ := h.head
    have hsize := h.2.2.1
    have hle := e.le_size
    have hnext := ih h.2.2.2 (Nat.le_of_succ_le_succ hfuel)
    rw [lookupBlk, if_neg (by omega)]
    dsimp only
    rw [hrec, if_neg hne, hino, hnext]
    by_cases hdead : e.ino = 0
    · rw [if_neg (fun h => h.1 hdead), liveOf_dead hdead]
    · obtain ⟨hslice, hlen⟩ := hname hdead
      rw [liveOf_cons hdead]
      unfold binding
      rw [List.find?_cons]
      by_cases heq : e.name = name
      · rw [if_pos ⟨hdead, by rw [hlen, heq]⟩, if_neg (by rw [← heq]; omega),
          if_pos (by rw [← heq, ← hlen]; exact hslice), decide_eq_true heq]
        rfl
      · rw [decide_eq_false heq]
        dsimp only
        by_cases hsame : b.getLE (pos + 6) 1 = name.length
        · rw [if_pos ⟨hdead, hsame⟩, if_neg (by omega),
            if_neg (by rw [← hsame, hslice]; exact heq)]
        · rw [if_neg (fun h => hsame h.2)]

/-- SOURCE: ext4.rs:1123-1140 -/
theorem listBlk_chain (cap : ℕ) (out : List DirEnt) (n : ℕ) (hfuel : es.length ≤ fuel) :
    listBlk v b cap fuel pos out n =
      .ok (out ++ (liveOf es).take (cap - n), n + (liveOf es).length) := by
  induction es generalizing pos fuel out n with
  | nil =>
    have hend : liveOf [] = [] := rfl
    rw [hend, List.take_nil, List.append_nil, List.length_nil, Nat.add_zero]
    cases fuel with
    | zero => rfl
    | succ fuel =>
      have hpos : pos = v.dirLimit := h
      rw [listBlk, if_pos (by omega)]
  | cons e es ih =>
    obtain ⟨fuel, rfl⟩ : ∃ n, fuel = n + 1 := ⟨fuel - 1, by rw [List.length_cons] at hfuel; omega⟩
    obtain ⟨hroom, hino, hrec, hne, hft, hend, hname⟩ := h.head
    have hsize := h.2.2.1
    have hle := e.le_size
    have hbyte : b.getLE (pos + 6) 1 ≤ 255 := Nat.le_of_lt_succ (Bytes.getLE_lt b (pos + 6) 1)
    have hnext := fun out n => ih h.2.2.2 out n (Nat.le_of_succ_le_succ hfuel)
    rw [listBlk, if_neg (by omega)]
    dsimp only
    rw [hrec, if_neg hne, hino, hft]
    by_cases hdead : e.ino = 0
    · rw [if_neg (fun h => h.1 hdead), hnext, liveOf_dead hdead]
    · obtain ⟨hslice, hlen⟩ := hname hdead
      rw [if_pos ⟨hdead, hbyte⟩, liveOf_cons hdead, hslice, hnext, hnext, List.length_cons]
      by_cases hcap : n < cap
      · rw [if_pos hcap, if_neg (by omega), show cap - n = cap - (n + 1) + 1 by omega,
          List.take_succ_cons, List.append_assoc, List.singleton_append,
          show n + 1 + (liveOf es).length = n + ((liveOf es).length + 1) by omega]
      · rw [if_neg hcap, show cap - n = 0 by omega, show cap - (n + 1) = 0 by omega, List.take_zero,
          List.take_zero, show n + 1 + (liveOf es).length = n + ((liveOf es).length + 1) by omega]

omit hlimit in
/-- The first unused entry that is long enough, or else what was seen of the last entry. -/
theorem findSlot_chain (lastPos lastRec lastActual : ℕ) (hfuel : es.length < fuel) :
    (∃ xs e ys mid, es = xs ++ e :: ys ∧ EntryChain b mid pos xs ∧ e.ino = 0 ∧ needed ≤ e.reclen ∧
      findSlot v b needed fuel pos lastPos lastRec lastActual = some (.unused mid e.reclen)) ∨
    ∃ p r a, findSlot v b needed fuel pos lastPos lastRec lastActual =
        (if a + needed ≤ r then some (.behind p a (r - a)) else none) ∧
      (es = [] ∧ p = lastPos ∧ r = lastRec ∧ a = lastActual ∨
        ∃ xs e, es = xs ++ [e] ∧ EntryChain b p pos xs ∧ r = e.reclen ∧
          (e.ino = 0 ∧ a = 0 ∧ r < needed ∨ e.ino ≠ 0 ∧ a = e.size)) := by
  induction es generalizing pos fuel lastPos lastRec lastActual with
  | nil =>
    obtain ⟨fuel, rfl⟩ : ∃ n, fuel = n + 1 := ⟨fuel - 1, by omega⟩
    have hpos : pos = v.dirLimit := h
    refine Or.inr ⟨lastPos, lastRec, lastActual, ?_, Or.inl ⟨rfl, rfl, rfl, rfl⟩⟩
    rw [findSlot]
    dsimp only
    rw [if_pos (Or.inl (by omega))]
  | cons e es ih =>
    obtain ⟨fuel, rfl⟩ : ∃ n, fuel = n + 1 := ⟨fuel - 1, by rw [List.length_cons] at hfuel; omega⟩
    obtain ⟨hroom, hino, hrec, hne, -, hend, hname⟩ := h.head
    rw [findSlot]
    dsimp only
    rw [hrec, hino, if_neg (by omega)]
    by_cases hfit : e.ino = 0 ∧ needed ≤ e.reclen
    · rw [if_pos hfit]
      exact Or.inl ⟨[], e, es, pos, rfl, rfl, hfit.1, hfit.2, rfl⟩
    · rw [if_neg hfit]
      -- what the last entry takes up, if it is this one
      have hactual : e.ino = 0 ∧ (if e.ino = 0 then 0 else roundDirSize (b.getLE (pos + 6) 1)) = 0 ∧
          e.reclen < needed ∨
          e.ino ≠ 0 ∧ (if e.ino = 0 then 0 else roundDirSize (b.getLE (pos + 6) 1)) = e.size := by
        by_cases hdead : e.ino = 0
        · exact Or.inl ⟨hdead, if_pos hdead, not_le.mp fun hle => hfit ⟨hdead, hle⟩⟩
        · refine Or.inr ⟨hdead, ?_⟩
          rw [if_neg hdead, (hname hdead).2]
          rfl
      rcases ih h.2.2.2 pos e.reclen (if e.ino = 0 then 0 else roundDirSize (b.getLE (pos + 6) 1))
          (Nat.lt_of_succ_lt_succ hfuel) with
        ⟨xs, e', ys, mid, hes, hxs, hdead, hfit', hfind⟩ | ⟨p, r, a, hfind, hlast⟩
      · refine Or.inl ⟨e :: xs, e', ys, mid, by rw [hes]; rfl, ?_, hdead, hfit', hfind⟩
        exact ⟨h.1, h.2.1, h.2.2.1, hxs⟩
      · refine Or.inr ⟨p, r, a, hfind, Or.inr ?_⟩
        rcases hlast with ⟨rfl, rfl, rfl, rfl⟩ | ⟨xs, e', hes, hxs, hr, ha⟩
        · exact ⟨[], e, rfl, rfl, rfl, hactual⟩
        · exact ⟨e :: xs, e', by rw [hes]; rfl, ⟨h.1, h.2.1, h.2.2.1, hxs⟩, hr, ha⟩

end Loops

/-! ## Writing an entry -/

/-- The bytes `fill_entry` leaves.
SOURCE: ext4.rs:259-265 -/
def putEntry (b : Bytes) (pos reclen ino ft : ℕ) (name : List UInt8) : Bytes :=
  ((((b.putLE pos 4 ino).putLE (pos + 4) 2 reclen).putLE (pos + 6) 1 name.length).putLE
    (pos + 7) 1 ft).blit (pos + 8) name.length fun k => name.getD k 0

theorem fillEntry_ok {reclen : ℕ} (s : FsState) (h : pos + 8 + name.length ≤ maxBlockSize) :
    fillEntry b pos reclen ino ft name s = (.ok (putEntry b pos reclen ino ft name), s) := by
  rw [fillEntry, if_neg (by omega)]
  rfl

theorem putEntry_outside {reclen k : ℕ} (h : k < pos ∨ pos + 8 + name.length ≤ k) :
    putEntry b pos reclen ino ft name k = b k := by
  unfold putEntry
  rw [Bytes.blit_outside (by omega), Bytes.putLE_outside (by omega), Bytes.putLE_outside (by omega),
    Bytes.putLE_outside (by omega), Bytes.putLE_outside (by omega)]

/-- A new entry fits what the format can hold. -/
structure EntryFits (reclen ino ft : ℕ) (name : List UInt8) : Prop where
  ino_pos : ino ≠ 0
  ino_lt : ino < 2 ^ 32
  ft_lt : ft < 256
  name_le : name.length ≤ 255
  reclen_lt : reclen < 2 ^ 16

theorem direntAt_putEntry {reclen : ℕ} (hfits : EntryFits reclen ino ft name) :
    direntAt (putEntry b pos reclen ino ft name) pos = ⟨ino, reclen, ft, name⟩ := by
  obtain ⟨hpos, hino, hft, hname, hrec⟩ := hfits
  have hino' : (putEntry b pos reclen ino ft name).getLE pos 4 = ino := by
    unfold putEntry
    rw [Bytes.getLE_blit_outside (by omega), Bytes.getLE_putLE_outside (by omega),
      Bytes.getLE_putLE_outside (by omega), Bytes.getLE_putLE_outside (by omega), Bytes.getLE_putLE]
    exact Nat.mod_eq_of_lt hino
  have hrec' : (putEntry b pos reclen ino ft name).getLE (pos + 4) 2 = reclen := by
    unfold putEntry
    rw [Bytes.getLE_blit_outside (by omega), Bytes.getLE_putLE_outside (by omega),
      Bytes.getLE_putLE_outside (by omega), Bytes.getLE_putLE]
    exact Nat.mod_eq_of_lt hrec
  have hlen' : (putEntry b pos reclen ino ft name).getLE (pos + 6) 1 = name.length := by
    unfold putEntry
    rw [Bytes.getLE_blit_outside (by omega), Bytes.getLE_putLE_outside (by omega),
      Bytes.getLE_putLE]
    exact Nat.mod_eq_of_lt (by omega)
  have hft' : (putEntry b pos reclen ino ft name).getLE (pos + 7) 1 = ft := by
    unfold putEntry
    rw [Bytes.getLE_blit_outside (by omega), Bytes.getLE_putLE]
    exact Nat.mod_eq_of_lt (by omega)
  have hname' : (putEntry b pos reclen ino ft name).slice (pos + 8) name.length = name := by
    refine List.ext_getElem (by simp [Bytes.slice]) fun k hk hk' => ?_
    simp only [Bytes.slice, List.getElem_map, List.getElem_range]
    unfold putEntry
    rw [Bytes.blit_inside (by omega) (by omega), Nat.add_sub_cancel_left, List.getD,
      List.getElem?_eq_getElem hk', Option.getD_some]
  unfold direntAt
  rw [hino', hrec', hft', hlen', if_neg hpos, hname']

/-- An unused entry is filled. -/
theorem EntryChain.fill_unused (h : EntryChain b stop pos (xs ++ e :: ys)) (hxs : EntryChain b mid pos xs)
    (hneed : roundDirSize name.length ≤ e.reclen) (hfits : EntryFits e.reclen ino ft name) :
    EntryChain (putEntry b mid e.reclen ino ft name) stop pos (xs ++ ⟨ino, e.reclen, ft, name⟩ :: ys) := by
  obtain ⟨mid', hxs', hrest⟩ := chain_append.mp h
  cases hxs.end_unique hxs'
  have hround := le_roundDirSize name.length
  obtain ⟨-, halign, hsize, hys⟩ := hrest
  refine chain_append.mpr ⟨mid, hxs.congr fun k _ hk => putEntry_outside (Or.inl hk),
    direntAt_putEntry hfits, halign, hneed, ?_⟩
  exact hys.congr fun k hk _ => putEntry_outside (Or.inr (by omega))

/-- The end of the last entry becomes an entry. -/
theorem EntryChain.fill_behind (h : EntryChain b stop pos (xs ++ [e])) (hxs : EntryChain b mid pos xs)
    (hneed : e.size + roundDirSize name.length ≤ e.reclen)
    (hfits : EntryFits (e.reclen - e.size) ino ft name) :
    EntryChain (putEntry (b.putLE (mid + 4) 2 e.size) (mid + e.size) (e.reclen - e.size) ino ft name)
      stop pos (xs ++ [{ e with reclen := e.size }, ⟨ino, e.reclen - e.size, ft, name⟩]) := by
  obtain ⟨mid', hxs', hrest⟩ := chain_append.mp h
  cases hxs.end_unique hxs'
  obtain ⟨hat, halign, hsize, hstop⟩ := hrest
  have hround := le_roundDirSize name.length
  have hround' := le_roundDirSize e.name.length
  have hle := e.le_size
  have hesize : e.size % 4 = 0 := hround'.2.2
  have hlt : e.reclen < 2 ^ 16 := by
    rw [← hat]
    exact Bytes.getLE_lt b (mid + 4) 2
  -- the last entry is where it was, with a shorter record
  have hshort : direntAt (b.putLE (mid + 4) 2 e.size) mid = { e with reclen := e.size } := by
    have hfield : ∀ a n, a + n ≤ 4 ∨ 6 ≤ a →
        (b.putLE (mid + 4) 2 e.size).getLE (mid + a) n = b.getLE (mid + a) n := fun a n han =>
      Bytes.getLE_putLE_outside (by omega)
    have hino : (b.putLE (mid + 4) 2 e.size).getLE mid 4 = b.getLE mid 4 := hfield 0 4 (by omega)
    have hslice : ∀ n, (b.putLE (mid + 4) 2 e.size).slice (mid + 8) n = b.slice (mid + 8) n :=
      fun n => Bytes.slice_congr fun j _ => Bytes.putLE_outside (by omega)
    have hname : (direntAt (b.putLE (mid + 4) 2 e.size) mid).name = e.name := by
      rw [← congrArg Dirent.name hat]
      unfold direntAt
      dsimp only
      rw [hino, hfield 6 1 (by omega), hslice]
    refine Dirent.ext (hino.trans (congrArg Dirent.ino hat)) ?_
      ((hfield 7 1 (by omega)).trans (congrArg Dirent.ft hat)) hname
    exact (Bytes.getLE_putLE _ _ _ _).trans (Nat.mod_eq_of_lt (show e.size < 2 ^ 16 by omega))
  have hshort' : direntAt (putEntry (b.putLE (mid + 4) 2 e.size) (mid + e.size)
      (e.reclen - e.size) ino ft name) mid = { e with reclen := e.size } := by
    rw [← hshort]
    refine direntAt_congr ?_ fun k _ hk => putEntry_outside (Or.inl ?_)
    · rw [hshort]
      exact le_refl e.size
    · rw [hshort] at hk
      exact hk
  refine chain_append.mpr ⟨mid, hxs.congr fun k _ hk => ?_, hshort', hesize, le_refl e.size,
    direntAt_putEntry hfits, ?_, ?_, ?_⟩
  · rw [putEntry_outside (Or.inl (by omega)), Bytes.putLE_outside (Or.inl (by omega))]
  · show (e.reclen - e.size) % 4 = 0
    omega
  · show roundDirSize name.length ≤ e.reclen - e.size
    omega
  · show mid + e.size + (e.reclen - e.size) = stop
    have : mid + e.reclen = stop := hstop
    omega

/-! ## The three places for an entry -/

/-- One entry more, somewhere in a list. -/
def OneMore (new : DirEnt) (before after : List DirEnt) : Prop :=
  ∃ xs ys, before = xs ++ ys ∧ after = xs ++ new :: ys

section OneMore

variable {new : DirEnt} {before after : List DirEnt}

theorem binding_eq_none {entries : List DirEnt} :
    binding name entries = none ↔ name ∉ entries.map DirEnt.name := by
  simp [binding]

/-- One binding more. -/
theorem OneMore.binding_eq (h : OneMore new before after)
    (hfresh : binding new.name before = none) (n : List UInt8) :
    binding n after = if n = new.name then some new.ino else binding n before := by
  obtain ⟨xs, ys, rfl, rfl⟩ := h
  have hcons : binding n (new :: ys) = if n = new.name then some new.ino else binding n ys := by
    unfold binding
    rw [List.find?_cons]
    by_cases hn : n = new.name
    · simp [hn]
    · have hne : ¬new.name = n := fun heq => hn heq.symm
      simp [hn, hne]
  rw [binding_append, hcons, binding_append]
  by_cases hn : n = new.name
  · rw [binding_append, Option.or_eq_none_iff] at hfresh
    rw [if_pos hn, if_pos hn, hn, hfresh.1]
    rfl
  · rw [if_neg hn, if_neg hn]

theorem OneMore.nodup (h : OneMore new before after) (hfresh : binding new.name before = none)
    (hnodup : (before.map DirEnt.name).Nodup) : (after.map DirEnt.name).Nodup := by
  rw [binding_eq_none] at hfresh
  obtain ⟨xs, ys, rfl, rfl⟩ := h
  rw [List.map_append] at hfresh hnodup
  rw [List.map_append, List.map_cons, List.perm_middle.nodup_iff, List.nodup_cons]
  exact ⟨hfresh, hnodup⟩

/-- One block of several has an entry more. -/
theorem oneMore_flatMap {f f' : ℕ → List DirEnt} {k n : ℕ} (hk : k < n)
    (hone : OneMore new (f k) (f' k)) (hother : ∀ x, x ≠ k → f' x = f x) :
    OneMore new ((List.range n).flatMap f) ((List.range n).flatMap f') := by
  induction n with
  | zero => exact absurd hk (Nat.not_lt_zero k)
  | succ n ih =>
    simp only [List.range_succ, List.flatMap_append, List.flatMap_singleton]
    rcases Nat.lt_succ_iff_lt_or_eq.mp hk with hlt | rfl
    · obtain ⟨xs, ys, hf, hf'⟩ := ih hlt
      refine ⟨xs, ys ++ f n, ?_, ?_⟩
      · rw [hf, List.append_assoc]
      · rw [hf', hother n (by omega), List.append_assoc, List.cons_append]
    · obtain ⟨xs, ys, hf, hf'⟩ := hone
      have hsame : (List.range k).flatMap f' = (List.range k).flatMap f :=
        List.flatMap_congr fun x hx => hother x (by rw [List.mem_range] at hx; omega)
      refine ⟨(List.range k).flatMap f ++ xs, ys, ?_, ?_⟩
      · rw [hf, List.append_assoc]
      · rw [hsame, hf', List.append_assoc]

end OneMore

section Blocks

variable (hv : GeometryOk v)
include hv

theorem dirLimit_le : v.dirLimit ≤ v.bs ∧ v.dirLimit % 4 = 0 ∧ 1012 ≤ v.dirLimit ∧
    v.dirLimit ≤ maxBlockSize := by
  unfold Ext4.dirLimit maxBlockSize
  rcases hv.bs with h | h | h <;> rw [h] <;> split <;> omega

/-- The checksum of a directory block stands behind its entries. -/
theorem EntryChain.tail {gen : ℕ} (i : ℕ) (h : EntryChain b v.dirLimit 0 es) :
    EntryChain (Bytes.clip v.bs (v.dirTailCsum i gen b)) v.dirLimit 0 es := by
  obtain ⟨hle, -, hbig, -⟩ := dirLimit_le hv
  refine h.congr fun k _ hk => ?_
  rw [Bytes.clip_inside (by omega)]
  unfold Ext4.dirTailCsum
  unfold Ext4.dirLimit at hk hbig
  split
  · rename_i hmeta
    rw [if_pos hmeta] at hk hbig
    dsimp only
    rw [Bytes.putLE_outside (by omega), Bytes.putLE_outside (by omega),
      Bytes.putLE_outside (by omega), Bytes.putLE_outside (by omega), Bytes.putLE_outside (by omega)]
  · rfl

theorem EntryChain.turns_le (h : EntryChain b v.dirLimit 0 es) : es.length ≤ maxBlockSize := by
  have hlen := h.length_le
  have hle := (dirLimit_le hv).2.2.2
  omega

/-- An entry in the slot that was found for it. -/
theorem fillSlot_chain (h : EntryChain b v.dirLimit 0 es) {slot : DirSlot} (s : FsState)
    (hfind : findSlot v b (roundDirSize name.length) (maxBlockSize + 1) 0 0 0 0 = some slot)
    (hfits : EntryFits 0 ino ft name) :
    ∃ b' es', fillSlot b slot ino ft name s = (.ok b', s) ∧ EntryChain b' v.dirLimit 0 es' ∧
      OneMore ⟨ino, ft, name⟩ (liveOf es) (liveOf es') := by
  have hlimit := (dirLimit_le hv).2.2.2
  have hround := le_roundDirSize name.length
  obtain ⟨hpos, hino, hft, hname, -⟩ := hfits
  have hfuel : es.length < maxBlockSize + 1 := Nat.lt_succ_of_le (h.turns_le hv)
  rcases findSlot_chain h 0 0 0 hfuel with
    ⟨xs, e, ys, mid, hes, hxs, hdead, hneed, hslot⟩ | ⟨p, r, a, hslot, hlast⟩
  · cases hfind.symm.trans hslot
    subst hes
    obtain ⟨mid', hxs', hrest⟩ := chain_append.mp h
    cases hxs.end_unique hxs'
    have hend := hrest.head.2.2.2.2.2.1
    have hlt : e.reclen < 2 ^ 16 := by
      rw [← hrest.1]
      exact Bytes.getLE_lt b (mid + 4) 2
    refine ⟨_, _, fillEntry_ok s (by omega),
      h.fill_unused hxs hneed ⟨hpos, hino, hft, hname, hlt⟩, liveOf xs, liveOf ys, ?_, ?_⟩
    · rw [liveOf_append, liveOf_dead hdead]
    · rw [liveOf_append, liveOf_cons hpos]
  · rw [hslot] at hfind
    split at hfind
    · rename_i hroom
      cases hfind
      -- the last entry is in use, or it would have been taken as an unused one
      rcases hlast with ⟨-, -, rfl, rfl⟩ | ⟨xs, e, hes, hxs, rfl, ⟨-, rfl, hshort⟩ | ⟨hlive, rfl⟩⟩
      · omega
      · omega
      · subst hes
        obtain ⟨mid', hxs', hrest⟩ := chain_append.mp h
        cases hxs.end_unique hxs'
        have hend := hrest.head.2.2.2.2.2.1
        have hlt : e.reclen < 2 ^ 16 := by
          rw [← hrest.1]
          exact Bytes.getLE_lt b (p + 4) 2
        have hfits' : EntryFits (e.reclen - e.size) ino ft name :=
          ⟨hpos, hino, hft, hname, by omega⟩
        refine ⟨_, _, fillEntry_ok s (by omega), h.fill_behind hxs hroom hfits',
          liveOf (xs ++ [e]), [], (List.append_nil _).symm, ?_⟩
        have hlive' : ({ e with reclen := e.size } : Dirent).ino ≠ 0 := hlive
        rw [liveOf_append, liveOf_append, liveOf_cons hlive', liveOf_cons hlive, liveOf_cons hpos,
          List.append_assoc]
        rfl
    · cases hfind

/-- A new block with one entry in it. -/
theorem chain_fresh (hfits : EntryFits 0 ino ft name) :
    EntryChain (putEntry (fun _ => 0) 0 v.dirLimit ino ft name) v.dirLimit 0
      [⟨ino, v.dirLimit, ft, name⟩] := by
  obtain ⟨-, halign, hbig, hlimit⟩ := dirLimit_le hv
  have hround := le_roundDirSize name.length
  obtain ⟨hpos, hino, hft, hname, -⟩ := hfits
  unfold maxBlockSize at hlimit
  refine ⟨direntAt_putEntry ⟨hpos, hino, hft, hname, by omega⟩, halign, ?_, Nat.zero_add _⟩
  show roundDirSize name.length ≤ v.dirLimit
  omega

end Blocks

end Pinx.Analysis
