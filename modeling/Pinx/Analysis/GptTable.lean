import Pinx.Foundation.Transition
import Pinx.Model.BlockDevice

/-!
# The partition table

`detect` reads the entry array sector by sector: it feeds each sector to the checksum, the last one
only in part, and walks its slots with a counter of its own.  All this agrees with the array taken as
a whole (`scanEntries_spec`).  So a table is accepted exactly if its fields and both checksums are
right and every sector of it can be read, and the partitions remembered are the first sixteen
entries in use (`detect_caches_table`).  No field of a damaged disk stops the machine but one, the
length of the header, which is used as a slice length before anything vouches for it
(`gpt_calls_complete_iff`).
-/

namespace Pinx.Analysis

open Pinx.Foundation Pinx.Model

variable {disk lba entriesLba entrySize numEntries : ℕ} {bus : Bus}

/-! ## Sectors -/

/-- The sector is on the disk, and the transfer `k` turns from now completes. -/
def Readable (bus : Bus) (disk lba k : ℕ) : Prop :=
  lba < 2 ^ 48 ∧ (∃ dev, bus.device disk = some dev ∧ lba < dev.sectors) ∧
    bus.answers (bus.turn + k) = .completes

theorem ahciRead_readable (h : Readable bus disk lba 0) :
    ahciRead disk lba 512 bus =
      (.ok (some (Bytes.clip 512 fun k => bus.content disk (lba * 512 + k))),
        bus.issue ⟨disk, false, lba, 1⟩ fun _ => 0) := by
  obtain ⟨hlba, ⟨dev, hdev, hsector⟩, hanswer⟩ := h
  unfold ahciRead ahciTransfer
  rw [hdev]
  dsimp only
  rw [if_neg (by omega), xfer, if_neg (by decide), if_neg (by decide)]
  rw [Nat.add_zero] at hanswer
  rw [hanswer, Nat.mod_eq_of_lt hlba, show 512 / 512 % 2 ^ 16 = 1 from rfl]
  simp only [Bool.false_eq_true, if_false, Bus.sectorsOf, Nat.one_mul]

theorem ahciRead_unreadable (h : ¬Readable bus disk lba 0) :
    ∃ bus', ahciRead disk lba 512 bus = (.ok none, bus') := by
  unfold ahciRead ahciTransfer
  cases hdev : bus.device disk with
  | none => exact ⟨bus, rfl⟩
  | some dev =>
    dsimp only
    by_cases hrange : 2 ^ 48 ≤ lba ∨ dev.sectors < lba + 512 / 512
    · rw [if_pos hrange]
      exact ⟨bus, rfl⟩
    · rw [if_neg hrange, xfer, if_neg (by decide), if_neg (by decide)]
      cases hanswer : bus.answers bus.turn with
      | refuses => exact ⟨_, rfl⟩
      | fails left => exact ⟨_, rfl⟩
      | completes => exact absurd ⟨by omega, ⟨dev, hdev, by omega⟩, hanswer⟩ h

/-- A read leaves the disks alone, and the next transfers come one turn sooner. -/
theorem readable_issue (bus : Bus) (cmd : Command) (left : Bytes) (disk lba k : ℕ) :
    Readable (bus.issue cmd left) disk lba k ↔ Readable bus disk lba (k + 1) := by
  unfold Readable
  rw [show (bus.issue cmd left).turn + k = bus.turn + (k + 1) from Nat.add_right_comm bus.turn 1 k]
  exact Iff.rfl

theorem content_issue_read (bus : Bus) (left : Bytes) (disk lba count : ℕ) :
    (bus.issue ⟨disk, false, lba, count⟩ left).content = bus.content := by
  funext d
  simp [Bus.issue]

/-! ## Entries -/

/-- The partition of an entry, if it is in use and its range is not empty. -/
def entryPartition (disk : ℕ) (e : Bytes) : Option GptPartition :=
  if e.slice 0 16 = List.replicate 16 0 ∨ e.getLE 32 8 = 0 ∨ e.getLE 40 8 < e.getLE 32 8 then none
  else some ⟨disk, e.getLE 32 8, e.getLE 40 8, e.slice 0 16, e.slice 16 16, e.slice 56 72⟩

theorem entryPartition_congr {e e' : Bytes} (h : ∀ k < 128, e k = e' k) :
    entryPartition disk e = entryPartition disk e' := by
  have hget : ∀ a, a + 8 ≤ 128 → e.getLE a 8 = e'.getLE a 8 := fun a ha =>
    Bytes.getLE_congr fun j hj => h (a + j) (by omega)
  have hslice : ∀ a n, a + n ≤ 128 → e.slice a n = e'.slice a n := fun a n ha =>
    Bytes.slice_congr fun j hj => h (a + j) (by omega)
  unfold entryPartition
  rw [hget 32 (by omega), hget 40 (by omega), hslice 0 16 (by omega), hslice 16 16 (by omega),
    hslice 56 72 (by omega)]

/-- The partition is kept unless sixteen are. -/
def keepPartition (parts : List GptPartition) : Option GptPartition → List GptPartition
  | none => parts
  | some part => if parts.length < maxPartitions then parts ++ [part] else parts

theorem checkSlice_eq {len a b : ℕ} (hab : a ≤ b) (hlen : b ≤ len) : checkSlice len a b = .ok () :=
  if_pos ⟨hab, hlen⟩

theorem entryName_eq (hsize : 128 ≤ entrySize) (e : Bytes) :
    entryName entrySize e = .ok (e.slice 56 72) := by
  have hname : min (entrySize - 56) 72 = 72 := by omega
  unfold entryName
  rw [hname]
  dsimp only
  rw [if_pos (by omega), checkSlice_eq (by omega) (by omega), Nat.sub_self, List.replicate_zero,
    List.append_nil]
  rfl

/-- SOURCE: gpt.rs:161-187 -/
theorem addEntry_eq (hsize : 128 ≤ entrySize) (e : Bytes) (parts : List GptPartition) :
    addEntry disk entrySize e parts = .ok (keepPartition parts (entryPartition disk e)) := by
  have hzero : (e.slice 0 16).all (· == 0) = true ↔ e.slice 0 16 = List.replicate 16 0 := by
    rw [List.eq_replicate_iff]
    simp [Bytes.slice]
  unfold addEntry entryPartition
  rw [entryName_eq hsize, checkSlice_eq (by omega) (by omega), checkSlice_eq (by omega) (by omega),
    checkSlice_eq (by omega) (by omega), checkSlice_eq (by omega) (by omega)]
  dsimp only [bind, Except.bind, pure, Except.pure]
  by_cases hunused : e.slice 0 16 = List.replicate 16 0
  · rw [if_pos (hzero.mpr hunused), if_pos (Or.inl hunused)]
    rfl
  rw [if_neg (hzero.not.mpr hunused)]
  by_cases hrange : e.getLE 32 8 = 0 ∨ e.getLE 40 8 < e.getLE 32 8
  · rw [if_pos (hrange.imp_right Or.inl), if_pos (Or.inr hrange)]
    rfl
  rw [if_neg (not_or.mpr ⟨hunused, hrange⟩), keepPartition]
  by_cases hfull : maxPartitions ≤ parts.length
  · rw [if_pos (Or.inr (Or.inr hfull)), if_neg (not_lt.mpr hfull)]
  · have hkeep : ¬(e.getLE 32 8 = 0 ∨ e.getLE 40 8 < e.getLE 32 8 ∨ maxPartitions ≤ parts.length) := by
      rw [← or_assoc]
      exact not_or.mpr ⟨hrange, hfull⟩
    rw [if_neg hkeep, if_pos (not_le.mp hfull)]

/-! ## The array as a whole -/

/-- The first sixteen partitions among the first `n` entries. -/
def firstPartitions (entry : ℕ → Option GptPartition) (n : ℕ) : List GptPartition :=
  ((List.range n).filterMap entry).take maxPartitions

theorem firstPartitions_succ (entry : ℕ → Option GptPartition) (n : ℕ) :
    firstPartitions entry (n + 1) = keepPartition (firstPartitions entry n) (entry n) := by
  unfold firstPartitions
  rw [List.range_succ, List.filterMap_append]
  cases hentry : entry n with
  | none => simp [hentry, keepPartition]
  | some part =>
    rw [keepPartition, List.length_take, List.filterMap_cons_some hentry, List.filterMap_nil]
    split
    · rw [List.take_of_length_le (by simp; omega), List.take_of_length_le (by omega)]
    · rw [List.take_append_of_le_length (by omega)]

/-- The slots of a sector are the next entries of the array. -/
theorem scanSlots_eq {entry : ℕ → Option GptPartition} {esec : Bytes} (hsize : 128 ≤ entrySize)
    {n slot index : ℕ} (hroom : (slot + n) * entrySize ≤ 512) (hle : index ≤ numEntries)
    (hentry : ∀ j < n,
      entryPartition disk (fun k => esec ((slot + j) * entrySize + k)) = entry (index + j)) :
    scanSlots disk esec entrySize numEntries n slot index (firstPartitions entry index) =
      .ok (min numEntries (index + n), firstPartitions entry (min numEntries (index + n))) := by
  induction n generalizing slot index with
  | zero =>
    rw [scanSlots, Nat.add_zero, min_eq_right hle]
  | succ n ih =>
    rw [scanSlots]
    by_cases hend : numEntries ≤ index
    · rw [if_pos hend, le_antisymm hle hend, min_eq_left (Nat.le_add_right _ _)]
    · have hslot : slot * entrySize + entrySize ≤ 512 := by
        calc slot * entrySize + entrySize = (slot + 1) * entrySize := by ring
          _ ≤ (slot + (n + 1)) * entrySize := Nat.mul_le_mul_right _ (by omega)
          _ ≤ 512 := hroom
      have hhead := hentry 0 (Nat.succ_pos n)
      rw [Nat.add_zero, Nat.add_zero] at hhead
      rw [if_neg hend]
      dsimp only
      rw [checkSlice_eq (Nat.le_add_right _ _) hslot, addEntry_eq hsize, hhead,
        ← firstPartitions_succ]
      dsimp only [bind, Except.bind]
      rw [ih (by rwa [Nat.add_assoc, Nat.add_comm 1 n]) (by omega) fun j hj => ?_]
      · rw [Nat.add_right_comm index 1 n]
        rfl
      · have hnext := hentry (j + 1) (by omega)
        rwa [Nat.add_comm j 1, ← Nat.add_assoc, ← Nat.add_assoc] at hnext

/-- Reading the array from sector `s` on: the checksum runs over the rest of its bytes, and the
partitions are those of the whole.  If a sector cannot be read, nothing is returned. -/
theorem scanEntries_spec {content : Bytes} {per : ℕ} (hper : per * entrySize = 512)
    (hsize : 128 ≤ entrySize) {n s : ℕ} (hsectors : s + n = (numEntries * entrySize + 511) / 512)
    (hlba : entriesLba + s < 2 ^ 64) (crc : ℕ) (bus : Bus) (hcontent : bus.content disk = content) :
    let array : Bytes := fun k => content (entriesLba * 512 + k)
    let entry := fun i => entryPartition disk fun k => array (i * entrySize + k)
    let run := scanEntries disk entriesLba (numEntries * entrySize) entrySize numEntries n s crc
      (min numEntries (s * per)) (firstPartitions entry (min numEntries (s * per))) bus
    ((∀ j < n, Readable bus disk (entriesLba + s + j) j) → ∃ bus', run =
      (.ok (some (crc32 crc (array.slice (s * 512) (numEntries * entrySize - s * 512)),
        firstPartitions entry numEntries)), bus')) ∧
    ((¬∀ j < n, Readable bus disk (entriesLba + s + j) j) → ∃ bus', run = (.ok none, bus')) := by
  intro array entry run
  induction n generalizing s crc bus with
  | zero =>
    have hend : numEntries ≤ s * per := by
      refine Nat.le_of_mul_le_mul_right ?_ (show 0 < entrySize by omega)
      rw [Nat.mul_assoc, hper]
      omega
    have hnone : numEntries * entrySize - s * 512 = 0 := by omega
    refine ⟨fun _ => ⟨bus, ?_⟩, fun h => absurd (fun j hj => absurd hj (Nat.not_lt_zero j)) h⟩
    rw [hnone]
    simp only [run, scanEntries, Prog.pure_apply, min_eq_left hend]
    rfl
  | succ n ih =>
    have hmore : s * 512 < numEntries * entrySize := by omega
    have hindex : s * per < numEntries := by
      refine Nat.lt_of_mul_lt_mul_right (a := entrySize) ?_
      rwa [Nat.mul_assoc, hper]
    have hslots : 512 / entrySize = per :=
      Nat.div_eq_of_eq_mul_left (by omega) hper.symm
    set bus₁ := bus.issue ⟨disk, false, entriesLba + s, 1⟩ fun _ => 0 with hbus₁
    have hall : (∀ j < n + 1, Readable bus disk (entriesLba + s + j) j) ↔
        Readable bus disk (entriesLba + s) 0 ∧
          ∀ j < n, Readable bus₁ disk (entriesLba + (s + 1) + j) j := by
      rw [Nat.forall_lt_succ_left]
      refine and_congr Iff.rfl (forall₂_congr fun j _ => ?_)
      rw [hbus₁, readable_issue, show entriesLba + s + (j + 1) = entriesLba + (s + 1) + j by omega]
    -- one sector
    have hstep (hread : Readable bus disk (entriesLba + s) 0) : run =
        scanEntries disk entriesLba (numEntries * entrySize) entrySize numEntries n (s + 1)
          (crc32 crc (array.slice (s * 512) (min (numEntries * entrySize - s * 512) 512)))
          (min numEntries ((s + 1) * per)) (firstPartitions entry (min numEntries ((s + 1) * per)))
          bus₁ := by
      have hrun := ahciRead_readable hread
      have hcrc : (Bytes.clip 512 fun k => bus.content disk ((entriesLba + s) * 512 + k)).slice 0
          (min (numEntries * entrySize - s * 512) 512) =
          array.slice (s * 512) (min (numEntries * entrySize - s * 512) 512) := by
        refine Bytes.slice_congr fun j hj => ?_
        rw [Bytes.clip_inside (by omega), hcontent]
        exact congrArg content (by ring)
      have hscan : scanSlots disk (Bytes.clip 512 fun k => bus.content disk ((entriesLba + s) * 512 + k))
          entrySize numEntries per 0 (s * per) (firstPartitions entry (s * per)) =
          .ok (min numEntries (s * per + per), firstPartitions entry (min numEntries (s * per + per))) := by
        refine scanSlots_eq hsize (by rw [Nat.zero_add, hper]) hindex.le fun j hj => ?_
        refine entryPartition_congr fun k hk => ?_
        have hend : (j + 1) * entrySize ≤ 512 := hper ▸ Nat.mul_le_mul_right entrySize hj
        rw [Nat.succ_mul] at hend
        rw [Nat.zero_add, Bytes.clip_inside (by omega), hcontent]
        refine congrArg content ?_
        rw [Nat.add_mul, Nat.add_mul, Nat.mul_assoc, hper]
        ring
      simp only [run, scanEntries]
      rw [if_neg (not_le.mpr hlba)]
      refine (Prog.bind_ok hrun).trans ?_
      dsimp only
      rw [if_neg (not_lt.mpr hmore.le), hslots, min_eq_right hindex.le]
      refine (Prog.bind_ok (by rw [hscan]; rfl)).trans ?_
      rw [hcrc, Nat.succ_mul]
    have hstop (hread : ¬Readable bus disk (entriesLba + s) 0) : ∃ bus', run = (.ok none, bus') := by
      obtain ⟨bus', hrun⟩ := ahciRead_unreadable hread
      refine ⟨bus', ?_⟩
      simp only [run, scanEntries]
      rw [if_neg (not_le.mpr hlba)]
      exact (Prog.bind_ok hrun).trans rfl
    rw [hall]
    by_cases hread : Readable bus disk (entriesLba + s) 0
    · rw [hstep hread]
      obtain ⟨hok, hfail⟩ := ih (s := s + 1) (by omega) (by have := hread.1; omega)
        (crc32 crc (array.slice (s * 512) (min (numEntries * entrySize - s * 512) 512))) bus₁
        ((congrFun (content_issue_read bus _ disk _ 1) disk).trans hcontent)
      refine ⟨fun h => ?_, fun h => hfail fun h' => h ⟨hread, h'⟩⟩
      obtain ⟨bus', hrun⟩ := hok h.2
      refine ⟨bus', hrun.trans ?_⟩
      have hbytes : array.slice (s * 512) (numEntries * entrySize - s * 512) =
          array.slice (s * 512) (min (numEntries * entrySize - s * 512) 512) ++
            array.slice ((s + 1) * 512) (numEntries * entrySize - (s + 1) * 512) := by
        rw [Bytes.slice_split array (s * 512) _ 512, Nat.succ_mul, Nat.sub_sub]
      rw [hbytes, crc32_append]
    · exact ⟨fun h => absurd h.1 hread, fun _ => hstop hread⟩

/-! ## The header -/

/-- The fields of a header.
SOURCE: gpt.rs:99-103, 127 -/
structure GptFields where
  headerSize : ℕ
  headerCrc : ℕ
  entriesLba : ℕ
  numEntries : ℕ
  entrySize : ℕ
  entryCrc : ℕ
deriving DecidableEq

def gptFields (header : Bytes) : GptFields :=
  ⟨header.getLE 12 4, header.getLE 16 4, header.getLE 72 8, header.getLE 80 4, header.getLE 84 4,
    header.getLE 88 4⟩

def GptFields.entriesBytes (f : GptFields) : ℕ := f.numEntries * f.entrySize

def GptFields.entriesSectors (f : GptFields) : ℕ := (f.entriesBytes + 511) / 512

/-- The right fields, and the right checksum over the header with that field zeroed. -/
structure ValidHeader (header : Bytes) : Prop where
  signature : header.slice 0 8 = gptSignature
  headerSize : 92 ≤ (gptFields header).headerSize
  numEntries : 0 < (gptFields header).numEntries
  entrySize : (gptFields header).entrySize ∈ [128, 256, 512]
  headerCrc : gptCrc ((header.putLE 16 4 0).slice 0 (gptFields header).headerSize) =
    (gptFields header).headerCrc

/-- A header that says it is longer than its sector, and is not refused for another field. -/
structure LongHeader (header : Bytes) : Prop where
  signature : header.slice 0 8 = gptSignature
  headerSize : 512 < (gptFields header).headerSize
  numEntries : 0 < (gptFields header).numEntries
  entrySize : 128 ≤ (gptFields header).entrySize

theorem entrySize_mem_iff {n : ℕ} :
    (128 ≤ n ∧ ¬(n = 0 ∨ 512 < n ∨ 512 % n ≠ 0)) ↔ n ∈ [128, 256, 512] := by
  constructor
  · rintro ⟨hlow, hn⟩
    obtain ⟨c, hc⟩ : n ∣ 512 := Nat.dvd_of_mod_eq_zero (by omega)
    have hfour : c ≤ 4 := by
      refine Nat.le_of_mul_le_mul_left ?_ (show 0 < 128 by omega)
      calc 128 * c ≤ n * c := Nat.mul_le_mul_right c hlow
        _ = 128 * 4 := hc.symm
    have hc' : c = 0 ∨ c = 1 ∨ c = 2 ∨ c = 3 ∨ c = 4 := by omega
    simp only [List.mem_cons, List.not_mem_nil, or_false]
    rcases hc' with rfl | rfl | rfl | rfl | rfl <;> omega
  · intro h
    simp only [List.mem_cons, List.not_mem_nil, or_false] at h
    rcases h with rfl | rfl | rfl <;> omega

/-- A sector of the disk has the header's bytes. -/
theorem slice_header {header : Bytes} {a n : ℕ} (h : a + n ≤ 512) :
    (Bytes.clip 512 header).slice a n = header.slice a n :=
  Bytes.slice_congr fun j _ => Bytes.clip_inside (by omega)

theorem slice_header_zeroed {header : Bytes} {n : ℕ} (hn : n ≤ 512) :
    ((Bytes.clip 512 header).putLE 16 4 0).slice 0 n = (header.putLE 16 4 0).slice 0 n := by
  refine Bytes.slice_congr fun j hj => ?_
  unfold Bytes.putLE Bytes.blit
  rw [Bytes.clip_inside (by omega)]

/-- Such a header stops the machine. -/
theorem parseTable_long {header : Bytes} (h : LongHeader header) (bus : Bus) :
    parseTable disk (Bytes.clip 512 header) bus = (.error (.fault .outOfBounds), bus) := by
  obtain ⟨hsig, hsize, hnum, hentry⟩ := h
  dsimp only [gptFields] at hsize hnum hentry
  rw [parseTable, slice_header (by omega), Bytes.getLE_clip (by omega),
    Bytes.getLE_clip (by omega), Bytes.getLE_clip (by omega), if_neg (not_not.mpr hsig)]
  dsimp only
  rw [if_neg (by omega), checkSlice, if_neg (by omega)]
  rfl

/-- SOURCE: gpt.rs:95-122 -/
theorem parseTable_invalid {header : Bytes} (hlong : ¬LongHeader header) (h : ¬ValidHeader header)
    (bus : Bus) : parseTable disk (Bytes.clip 512 header) bus = (.ok none, bus) := by
  rw [parseTable, slice_header (by omega), Bytes.getLE_clip (by omega),
    Bytes.getLE_clip (by omega), Bytes.getLE_clip (by omega), Bytes.getLE_clip (by omega)]
  by_cases hsig : header.slice 0 8 = gptSignature
  case neg =>
    rw [if_pos hsig]
    rfl
  dsimp only
  rw [if_neg (not_not.mpr hsig)]
  by_cases hfields : header.getLE 12 4 < 92 ∨ header.getLE 80 4 = 0 ∨ header.getLE 84 4 < 128
  · rw [if_pos hfields]
    rfl
  have hsize : header.getLE 12 4 ≤ 512 := by
    by_contra hsize
    exact hlong ⟨hsig, not_le.mp hsize, by dsimp only [gptFields]; omega, by dsimp only [gptFields]; omega⟩
  rw [if_neg hfields, checkSlice_eq (Nat.zero_le _) hsize, slice_header_zeroed hsize]
  refine (Prog.bind_ok (Prog.lift_apply _ _)).trans ?_
  by_cases hcrc : gptCrc ((header.putLE 16 4 0).slice 0 (header.getLE 12 4)) = header.getLE 16 4
  case neg =>
    rw [if_pos hcrc]
    rfl
  rw [if_neg (not_not.mpr hcrc)]
  have hentry : header.getLE 84 4 = 0 ∨ 512 < header.getLE 84 4 ∨ 512 % header.getLE 84 4 ≠ 0 := by
    by_contra hentry
    refine h ⟨hsig, ?_, ?_, entrySize_mem_iff.mp ⟨?_, hentry⟩, hcrc⟩
    all_goals
      dsimp only [gptFields]
      omega
  rw [if_pos hentry]
  rfl

/-- SOURCE: gpt.rs:95-202 -/
theorem parseTable_valid {header : Bytes} (hlong : ¬LongHeader header) (h : ValidHeader header)
    (bus : Bus) : parseTable disk (Bytes.clip 512 header) bus =
      (scanEntries disk (gptFields header).entriesLba (gptFields header).entriesBytes
        (gptFields header).entrySize (gptFields header).numEntries (gptFields header).entriesSectors
        0 0xFFFFFFFF 0 [] >>= finishTable disk (Bytes.clip 512 header)) bus := by
  obtain ⟨hsig, hsize, hnum, hentry, hcrc⟩ := h
  obtain ⟨hlow, hdivides⟩ := entrySize_mem_iff.mpr hentry
  have hshort : (gptFields header).headerSize ≤ 512 := by
    by_contra hsize
    exact hlong ⟨hsig, not_le.mp hsize, hnum, hlow⟩
  have hbytes : ¬2 ^ 64 ≤ (gptFields header).numEntries * (gptFields header).entrySize := by
    have hn : (gptFields header).numEntries < 2 ^ 32 := Bytes.getLE_lt _ 80 4
    have := Nat.mul_le_mul hn.le (show (gptFields header).entrySize ≤ 512 by omega)
    omega
  dsimp only [gptFields] at *
  rw [parseTable, slice_header (by omega), Bytes.getLE_clip (by omega),
    Bytes.getLE_clip (by omega), Bytes.getLE_clip (by omega), Bytes.getLE_clip (by omega),
    Bytes.getLE_clip (by omega), if_neg (not_not.mpr hsig)]
  dsimp only
  rw [if_neg (by omega), checkSlice_eq (Nat.zero_le _) hshort, slice_header_zeroed hshort]
  refine (Prog.bind_ok (Prog.lift_apply _ _)).trans ?_
  rw [if_neg (not_not.mpr hcrc), if_neg hdivides, if_neg hbytes]
  rfl

/-! ## The table of a disk -/

/-- The second sector of a disk. -/
def gptHeader (content : Bytes) : Bytes := fun k => content (512 + k)

/-- The entry array, from its first byte on. -/
def entryArray (content : Bytes) : Bytes :=
  fun k => content ((gptFields (gptHeader content)).entriesLba * 512 + k)

/-- The first sixteen entries in use with a valid range. -/
def tablePartitions (disk : ℕ) (content : Bytes) : List GptPartition :=
  let f := gptFields (gptHeader content)
  firstPartitions (fun i => entryPartition disk fun k => entryArray content (i * f.entrySize + k))
    f.numEntries

/-- What is remembered of a table. -/
def gptTable (disk : ℕ) (content : Bytes) : GptDisk :=
  let f := gptFields (gptHeader content)
  let parts := tablePartitions disk content
  ⟨true, parts.length, f.entriesLba, f.numEntries, f.entrySize,
    parts ++ List.replicate (maxPartitions - parts.length) (emptyPartition disk)⟩

/-- A table that can be read, with a valid header and the right checksum over the array. -/
structure ValidTable (bus : Bus) (disk : ℕ) : Prop where
  readable : Readable bus disk 1 0
  header : ValidHeader (gptHeader (bus.content disk))
  entriesReadable : ∀ s < (gptFields (gptHeader (bus.content disk))).entriesSectors,
    Readable bus disk ((gptFields (gptHeader (bus.content disk))).entriesLba + s) (s + 1)
  entryCrc : gptCrc ((entryArray (bus.content disk)).slice 0
    (gptFields (gptHeader (bus.content disk))).entriesBytes) =
      (gptFields (gptHeader (bus.content disk))).entryCrc

/-- SOURCE: gpt.rs:140-202 -/
theorem readEntries_spec {content : Bytes} (h : ValidHeader (gptHeader content)) (bus : Bus)
    (hcontent : bus.content disk = content) {f : GptFields} (hf : gptFields (gptHeader content) = f) :
    ((∀ s < f.entriesSectors, Readable bus disk (f.entriesLba + s) s) → ∃ bus',
      scanEntries disk f.entriesLba f.entriesBytes f.entrySize f.numEntries f.entriesSectors
        0 0xFFFFFFFF 0 [] bus =
        (.ok (some (crc32 0xFFFFFFFF ((entryArray content).slice 0 f.entriesBytes),
          tablePartitions disk content)), bus')) ∧
    ((¬∀ s < f.entriesSectors, Readable bus disk (f.entriesLba + s) s) → ∃ bus',
      scanEntries disk f.entriesLba f.entriesBytes f.entrySize f.numEntries f.entriesSectors
        0 0xFFFFFFFF 0 [] bus = (.ok none, bus')) := by
  obtain ⟨hlow, hdivides⟩ := entrySize_mem_iff.mpr h.entrySize
  have hlba : (gptFields (gptHeader content)).entriesLba < 2 ^ 64 := Bytes.getLE_lt _ 72 8
  have hper : 512 / (gptFields (gptHeader content)).entrySize *
      (gptFields (gptHeader content)).entrySize = 512 :=
    Nat.div_mul_cancel (Nat.dvd_of_mod_eq_zero (by omega))
  rw [hf] at hlow hlba hper
  have hsectors : 0 + f.entriesSectors = (f.numEntries * f.entrySize + 511) / 512 := Nat.zero_add _
  have hscan := scanEntries_spec hper hlow hsectors hlba 0xFFFFFFFF bus hcontent
  simp only [Nat.zero_mul, Nat.min_zero, Nat.add_zero, Nat.sub_zero, firstPartitions, List.range_zero,
    List.filterMap_nil, List.take_nil] at hscan
  unfold tablePartitions entryArray GptFields.entriesBytes
  rw [hf]
  exact hscan

/-- SOURCE: gpt.rs:190-202 -/
theorem finishTable_eq (content : Bytes) (data : List UInt8) :
    finishTable disk (Bytes.clip 512 (gptHeader content))
        (some (crc32 0xFFFFFFFF data, tablePartitions disk content)) =
      pure (if gptCrc data = (gptFields (gptHeader content)).entryCrc then
        some (gptTable disk content) else none) := by
  rw [finishTable, Bytes.getLE_clip (by omega), Bytes.getLE_clip (by omega),
    Bytes.getLE_clip (by omega), Bytes.getLE_clip (by omega)]
  unfold gptCrc gptTable gptFields
  by_cases hcrc : crc32 0xFFFFFFFF data ^^^ 0xFFFFFFFF = (gptHeader content).getLE 88 4
  · rw [if_neg (not_not.mpr hcrc), if_pos hcrc]
  · rw [if_pos hcrc, if_neg hcrc]

/-- A table is found exactly if it is valid. -/
theorem readTable_spec (hlong : Readable bus disk 1 0 → ¬LongHeader (gptHeader (bus.content disk))) :
    (ValidTable bus disk → ∃ bus',
      readTable disk bus = (.ok (some (gptTable disk (bus.content disk))), bus')) ∧
    (¬ValidTable bus disk → ∃ bus', readTable disk bus = (.ok none, bus')) := by
  by_cases hread : Readable bus disk 1 0
  case neg =>
    obtain ⟨bus', hrun⟩ := ahciRead_unreadable hread
    exact ⟨fun h => absurd h.readable hread, fun _ => ⟨bus', (Prog.bind_ok hrun).trans rfl⟩⟩
  have hrun : readTable disk bus = parseTable disk (Bytes.clip 512 (gptHeader (bus.content disk)))
      (bus.issue ⟨disk, false, 1, 1⟩ fun _ => 0) := Prog.bind_ok (ahciRead_readable hread)
  rw [hrun]
  by_cases hheader : ValidHeader (gptHeader (bus.content disk))
  case neg =>
    rw [parseTable_invalid (hlong hread) hheader]
    exact ⟨fun h => absurd h.header hheader, fun _ => ⟨_, rfl⟩⟩
  obtain ⟨hok, hfail⟩ := readEntries_spec hheader (bus.issue ⟨disk, false, 1, 1⟩ fun _ => 0)
    (congrFun (content_issue_read bus _ disk 1 1) disk) rfl
  simp only [readable_issue] at hok hfail
  rw [parseTable_valid (hlong hread) hheader]
  by_cases hentries : ∀ s < (gptFields (gptHeader (bus.content disk))).entriesSectors,
      Readable bus disk ((gptFields (gptHeader (bus.content disk))).entriesLba + s) (s + 1)
  case neg =>
    obtain ⟨bus', hscan⟩ := hfail hentries
    exact ⟨fun h => absurd h.entriesReadable hentries,
      fun _ => ⟨bus', (Prog.bind_ok hscan).trans rfl⟩⟩
  obtain ⟨bus', hscan⟩ := hok hentries
  rw [Prog.bind_ok hscan, finishTable_eq, Prog.pure_apply]
  by_cases hcrc : gptCrc ((entryArray (bus.content disk)).slice 0
      (gptFields (gptHeader (bus.content disk))).entriesBytes) =
        (gptFields (gptHeader (bus.content disk))).entryCrc
  · rw [if_pos hcrc]
    exact ⟨fun _ => ⟨bus', rfl⟩, fun h => absurd ⟨hread, hheader, hentries, hcrc⟩ h⟩
  · rw [if_neg hcrc]
    exact ⟨fun h => absurd h.entryCrc hcrc, fun _ => ⟨bus', rfl⟩⟩

theorem readTable_long (hread : Readable bus disk 1 0)
    (h : LongHeader (gptHeader (bus.content disk))) :
    ∃ bus', readTable disk bus = (.error (.fault .outOfBounds), bus') :=
  ⟨_, (Prog.bind_ok (ahciRead_readable hread)).trans (parseTable_long h _)⟩

/-- Only valid tables are found. -/
theorem readTable_some {table : GptDisk} {bus' : Bus} (h : readTable disk bus = (.ok (some table), bus')) :
    table = gptTable disk (bus.content disk) := by
  by_cases hlong : Readable bus disk 1 0 ∧ LongHeader (gptHeader (bus.content disk))
  · obtain ⟨bus₁, hrun⟩ := readTable_long hlong.1 hlong.2
    rw [hrun] at h
    cases h
  obtain ⟨hok, hfail⟩ := readTable_spec (not_and.mp hlong)
  by_cases hvalid : ValidTable bus disk
  · obtain ⟨bus₁, hrun⟩ := hok hvalid
    rw [hrun] at h
    cases h
    rfl
  · obtain ⟨bus₁, hrun⟩ := hfail hvalid
    rw [hrun] at h
    cases h

/-! ## What is remembered -/

/-- What `detect` asks of a partition. -/
def Accepted (disk : ℕ) (part : GptPartition) : Prop :=
  part.disk = disk ∧ 0 < part.startLba ∧ part.startLba ≤ part.lastLba ∧ part.lastLba < 2 ^ 64

theorem entryPartition_accepted {e : Bytes} {part : GptPartition}
    (h : entryPartition disk e = some part) : Accepted disk part := by
  unfold entryPartition at h
  split at h
  · cases h
  · rename_i hrange
    cases h
    obtain ⟨-, hstart, hlast⟩ := not_or.mp hrange |>.imp_right not_or.mp
    exact ⟨rfl, Nat.pos_of_ne_zero hstart, not_lt.mp hlast, Bytes.getLE_lt e 40 8⟩

theorem tablePartitions_accepted {content : Bytes} {part : GptPartition}
    (h : part ∈ tablePartitions disk content) : Accepted disk part := by
  obtain ⟨i, -, hentry⟩ := List.mem_filterMap.mp (List.mem_of_mem_take h)
  exact entryPartition_accepted hentry

/-- SOURCE: gpt.rs:230-232 -/
theorem Accepted.blockCount {part : GptPartition} (h : Accepted disk part) :
    part.blockCount = .ok (part.lastLba - part.startLba + 1) := by
  obtain ⟨-, hstart, hlast, hmax⟩ := h
  unfold GptPartition.blockCount
  rw [if_neg (by omega)]

theorem gptTable_partCount (disk : ℕ) (content : Bytes) :
    (gptTable disk content).partCount = (tablePartitions disk content).length := rfl

theorem gptTable_parts_take (disk : ℕ) (content : Bytes) :
    (gptTable disk content).parts.take (gptTable disk content).partCount =
      tablePartitions disk content :=
  List.take_left

section Cached

variable {disks : Vector GptDisk 8} {content : Bytes}

/-- The partitions that can be asked for are those of the table. -/
theorem partition_table (hdisk : disk < 8) (htable : disks[disk] = gptTable disk content) (index : ℕ) :
    partition disks disk index = .ok (tablePartitions disk content)[index]? := by
  have hparsed : disks[disk].parsed = true := congrArg GptDisk.parsed htable
  have hcount : disks[disk].partCount = (tablePartitions disk content).length := by
    rw [htable, gptTable_partCount]
  unfold partition
  rw [dif_pos hdisk]
  by_cases hindex : (tablePartitions disk content).length ≤ index
  · rw [if_pos (Or.inr (hcount.trans_le hindex)), List.getElem?_eq_none hindex]
  · have hpart : disks[disk].parts[index]? = (tablePartitions disk content)[index]? := by
      rw [htable]
      exact List.getElem?_append_left (by omega)
    rw [if_neg (by rw [hparsed, hcount]; simpa using hindex), hpart,
      List.getElem?_eq_getElem (by omega)]

theorem partitionCount_table (hdisk : disk < 8) (htable : disks[disk] = gptTable disk content) :
    partitionCount disks disk = (tablePartitions disk content).length := by
  have hparsed : disks[disk].parsed = true := congrArg GptDisk.parsed htable
  rw [partitionCount, dif_pos hdisk, if_pos hparsed, htable, gptTable_partCount]

theorem detectCached_some (hdisk : disk < 8) {table : GptDisk} {bus' : Bus}
    (h : readTable disk bus = (.ok (some table), bus')) :
    detectCached disks disk bus = (.ok (true, disks.set disk table), bus') := by
  rw [detectCached, dif_pos hdisk, Prog.bind_ok h]
  rfl

theorem detectCached_none (hdisk : disk < 8) {bus' : Bus} (h : readTable disk bus = (.ok none, bus')) :
    detectCached disks disk bus = (.ok (false, disks), bus') := by
  rw [detectCached, dif_pos hdisk, Prog.bind_ok h]
  rfl

/-- **The partition table.**  `detect` finds a table exactly if it is valid.  It then remembers, for
this disk only, the first sixteen entries in use with a valid range, in their order; otherwise
nothing changes. -/
theorem detect_caches_table (disks : Vector GptDisk 8) (hdisk : disk < 8)
    (hsize : (gptFields (gptHeader (bus.content disk))).headerSize ≤ 512) :
    (ValidTable bus disk → ∃ disks' bus', detectCached disks disk bus = (.ok (true, disks'), bus') ∧
      disks' = disks.set disk (gptTable disk (bus.content disk)) ∧
      partitionCount disks' disk = (tablePartitions disk (bus.content disk)).length ∧
      ∀ index, partition disks' disk index = .ok (tablePartitions disk (bus.content disk))[index]?) ∧
    (¬ValidTable bus disk → ∃ bus', detectCached disks disk bus = (.ok (false, disks), bus')) := by
  obtain ⟨hok, hfail⟩ := readTable_spec fun _ hlong => absurd hlong.headerSize (not_lt.mpr hsize)
  constructor
  · intro hvalid
    obtain ⟨bus', hrun⟩ := hok hvalid
    have htable : (disks.set disk (gptTable disk (bus.content disk)))[disk] =
        gptTable disk (bus.content disk) := Vector.getElem_set_self hdisk
    exact ⟨_, bus', detectCached_some hdisk hrun, rfl, partitionCount_table hdisk htable,
      partition_table hdisk htable⟩
  · intro hinvalid
    obtain ⟨bus', hrun⟩ := hfail hinvalid
    exact ⟨bus', detectCached_none hdisk hrun⟩

/-- A disk with one partition, sectors 34 to 99999. -/
def tableBus : Bus where
  devices := [⟨true, 100000⟩]
  content := fun _ =>
    let blank : Bytes := fun _ => 0
    let header := ((blank.putLE 0 8 0x5452415020494645).putLE 12 4 92).putLE 16 4 0x3E846878
    let header := ((header.putLE 72 8 2).putLE 80 4 1).putLE 84 4 128
    let entry := ((blank.putLE 0 1 1).putLE 32 8 34).putLE 40 8 99999
    (blank.blit 512 512 (header.putLE 88 4 0x7D32C7F3)).blit 1024 128 entry
  issued := []
  answers := fun _ => .completes
  turn := 0

/-- The partition of that table. -/
def tablePartition : GptPartition :=
  ⟨0, 34, 99999, 1 :: List.replicate 15 0, List.replicate 16 0, List.replicate 72 0⟩

theorem fields_tableBus :
    gptFields (gptHeader (tableBus.content 0)) = ⟨92, 0x3E846878, 2, 1, 128, 0x7D32C7F3⟩ := by
  decide +kernel

theorem parts_tableBus : tablePartitions 0 (tableBus.content 0) = [tablePartition] := by
  decide +kernel

theorem validTable_tableBus : ValidTable tableBus 0 := by
  have hread : ∀ lba < 100000, ∀ k, Readable tableBus 0 lba k := fun lba hlba k =>
    ⟨by omega, ⟨_, rfl, hlba⟩, rfl⟩
  refine ⟨hread 1 (by omega) 0, ⟨by decide +kernel, ?_, ?_, ?_, ?_⟩, fun s hs => ?_, ?_⟩
  · rw [fields_tableBus]
  · rw [fields_tableBus]
    decide
  · rw [fields_tableBus]
    decide
  · rw [fields_tableBus]
    decide +kernel
  · rw [fields_tableBus] at hs ⊢
    have hone : s < 1 := hs
    exact hread (2 + s) (by omega) _
  · rw [fields_tableBus]
    decide +kernel

theorem detect_caches_one_partition :
    ValidTable tableBus 0 ∧ ∃ disks' bus',
      detectCached gptDisks 0 tableBus = (.ok (true, disks'), bus') ∧ partitionCount disks' 0 = 1 ∧
        partition disks' 0 0 = .ok (some tablePartition) := by
  obtain ⟨disks', bus', hrun, -, hcount, hpart⟩ :=
    (detect_caches_table gptDisks (by omega) (by rw [fields_tableBus]; decide)).1 validTable_tableBus
  rw [parts_tableBus] at hcount hpart
  exact ⟨validTable_tableBus, disks', bus', hrun, hcount, hpart 0⟩

/-! ## Calls on any disk -/

/-- A call of `detect` that returns; the disks may change between calls. -/
def DetectStep (disks : Vector GptDisk 8) (call : ℕ × Bus) (disks' : Vector GptDisk 8) : Prop :=
  ∃ found bus', detectCached disks call.1 call.2 = (.ok (found, disks'), bus')

/-- Of every disk nothing is remembered, or a table. -/
def Remembers (disks : Vector GptDisk 8) : Prop :=
  ∀ d (_ : d < 8), disks[d].parsed = false ∨ ∃ content, disks[d] = gptTable d content

theorem Remembers.step {disks' : Vector GptDisk 8} {call : ℕ × Bus} (h : Remembers disks)
    (hstep : DetectStep disks call disks') : Remembers disks' := by
  obtain ⟨found, bus', hrun⟩ := hstep
  unfold detectCached at hrun
  split at hrun
  · rename_i hdisk
    obtain ⟨r, bus₁, hread, hrest⟩ := Prog.bind_eq_ok.mp hrun
    cases r with
    | none =>
      cases hrest
      exact h
    | some table =>
      cases hrest
      intro d hd
      rw [Vector.getElem_set]
      split
      · rename_i heq
        subst heq
        exact Or.inr ⟨_, readTable_some hread⟩
      · exact h d hd
  · cases hrun
    exact h

/-- No later call stops the machine. -/
theorem Remembers.partition (h : Remembers disks) (d index : ℕ) :
    ∃ r, Model.partition disks d index = .ok r ∧ ∀ part ∈ r, ∃ n, part.blockCount = .ok n := by
  by_cases hd : d < 8
  case neg => exact ⟨none, by rw [Model.partition, dif_neg hd], fun _ hpart => (nomatch hpart)⟩
  rcases h d hd with hparsed | ⟨content, htable⟩
  · refine ⟨none, ?_, fun _ hpart => (nomatch hpart)⟩
    rw [Model.partition, dif_pos hd, if_pos (Or.inl hparsed)]
  · refine ⟨_, partition_table hd htable index, fun part hpart => ?_⟩
    exact ⟨_, (tablePartitions_accepted (List.mem_of_getElem? hpart)).blockCount⟩

/-- A disk whose header can be read and is too long. -/
def StopsDetect (bus : Bus) (disk : ℕ) : Prop :=
  disk < 8 ∧ Readable bus disk 1 0 ∧ LongHeader (gptHeader (bus.content disk))

/-- **Damaged tables.**  Whatever is on a disk, `detect` returns, and so do all calls of `partition`
and `block_count` after it, except for a header that says it is longer than its sector. -/
theorem gpt_calls_complete_iff (hdisks : Reaches DetectStep gptDisks disks) (disk : ℕ) (bus : Bus) :
    (∃ found disks' bus', detectCached disks disk bus = (.ok (found, disks'), bus') ∧
      ∀ d index, ∃ r, partition disks' d index = .ok r ∧ ∀ part ∈ r, ∃ n, part.blockCount = .ok n) ↔
      ¬StopsDetect bus disk := by
  have hremembers : Remembers disks := by
    refine hdisks.invariant (I := Remembers) ?_ fun _ _ _ => Remembers.step
    intro d hd
    exact Or.inl (by rw [gptDisks, Vector.getElem_replicate])
  constructor
  · rintro ⟨found, disks', bus', hrun, -⟩ ⟨hdisk, hread, hlong⟩
    obtain ⟨bus₁, hstop⟩ := readTable_long hread hlong
    rw [detectCached, dif_pos hdisk, Prog.bind_error hstop] at hrun
    cases hrun
  · intro hstop
    have hreturns : ∃ found disks' bus', detectCached disks disk bus = (.ok (found, disks'), bus') := by
      by_cases hdisk : disk < 8
      case neg => exact ⟨_, _, bus, by rw [detectCached, dif_neg hdisk, Prog.pure_apply]⟩
      obtain ⟨hok, hfail⟩ := readTable_spec fun hread hlong => hstop ⟨hdisk, hread, hlong⟩
      by_cases hvalid : ValidTable bus disk
      · obtain ⟨bus', hrun⟩ := hok hvalid
        exact ⟨_, _, bus', detectCached_some hdisk hrun⟩
      · obtain ⟨bus', hrun⟩ := hfail hvalid
        exact ⟨_, _, bus', detectCached_none hdisk hrun⟩
    obtain ⟨found, disks', bus', hrun⟩ := hreturns
    have hstep : DetectStep disks (disk, bus) disks' := ⟨found, bus', hrun⟩
    exact ⟨found, disks', bus', hrun, (hremembers.step hstep).partition⟩

end Cached

theorem short_tableBus : ¬StopsDetect tableBus 0 := by
  rintro ⟨-, -, hlong⟩
  have hsize := hlong.headerSize
  rw [fields_tableBus] at hsize
  exact absurd hsize (by simp)

/-- A second `detect` of the disk, when its partition is already known. -/
theorem gpt_calls_complete_again : ∃ disks, Reaches DetectStep gptDisks disks ∧
    partition disks 0 0 = .ok (some tablePartition) ∧ ∃ found disks' bus',
      detectCached disks 0 tableBus = (.ok (found, disks'), bus') ∧
      ∀ d index, ∃ r, partition disks' d index = .ok r ∧ ∀ part ∈ r, ∃ n, part.blockCount = .ok n := by
  obtain ⟨bus₁, hread⟩ :=
    (readTable_spec fun hread hlong => short_tableBus ⟨by omega, hread, hlong⟩).1 validTable_tableBus
  have hstep : DetectStep gptDisks (0, tableBus) (gptDisks.set 0 (gptTable 0 (tableBus.content 0))) :=
    ⟨true, bus₁, detectCached_some (by omega) hread⟩
  have hreach := (Reaches.refl gptDisks).tail hstep
  have htable : (gptDisks.set 0 (gptTable 0 (tableBus.content 0)))[0] =
      gptTable 0 (tableBus.content 0) := Vector.getElem_set_self _
  refine ⟨_, hreach, ?_, (gpt_calls_complete_iff hreach 0 tableBus).mpr short_tableBus⟩
  rw [partition_table (by omega) htable, parts_tableBus]
  rfl

/-- A header of 513 bytes. -/
def longHeaderBus : Bus where
  devices := [⟨true, 100000⟩]
  content := fun _ =>
    let blank : Bytes := fun _ => 0
    let header := (blank.putLE 0 8 0x5452415020494645).putLE 12 4 513
    blank.blit 512 512 ((header.putLE 80 4 1).putLE 84 4 128)
  issued := []
  answers := fun _ => .completes
  turn := 0

theorem long_header_stops_detect :
    (detectCached gptDisks 0 longHeaderBus).1 = .error (.fault .outOfBounds) := by
  have hlong : (gptHeader (longHeaderBus.content 0)).slice 0 8 = gptSignature ∧
      512 < (gptFields (gptHeader (longHeaderBus.content 0))).headerSize ∧
      0 < (gptFields (gptHeader (longHeaderBus.content 0))).numEntries ∧
      128 ≤ (gptFields (gptHeader (longHeaderBus.content 0))).entrySize := by
    decide +kernel
  have hread : Readable longHeaderBus 0 1 0 := ⟨by omega, ⟨_, rfl, by simp⟩, rfl⟩
  obtain ⟨bus', hrun⟩ := readTable_long hread ⟨hlong.1, hlong.2.1, hlong.2.2.1, hlong.2.2.2⟩
  rw [detectCached, dif_pos (by omega), Prog.bind_error hrun]

end Pinx.Analysis
