import Pinx.Analysis.Ext4Accounts

/-!
# The search for a free bit

`alloc_bit` goes through the groups in order and through the bits of each bitmap in order.  Here
it is said for any volume and any content of its blocks how that ends: at the first bit it may
take, with no such bit in any group, or at a group it cannot read.  The results for volumes with
a layout, and for volumes `mount` accepts, follow from this one.
-/

namespace Pinx.Analysis

open Pinx.Foundation Pinx.Model

variable {v : Ext4} {s : FsState} {w : Bool} {g b lo hi : ℕ} {bm : Bytes}

/-- The number a bit stands for. -/
def unitAt (v : Ext4) (wantInode : Bool) (g j : ℕ) : ℕ :=
  if wantInode then g * v.ipg + j + 1 else v.firstDataBlock + g * v.bpg + j

/-- The bits of a bitmap the search looks at. -/
def scannedBits (v : Ext4) (wantInode : Bool) : ℕ := unitsOf v wantInode / 8 * 8

/-- The bitmap of a group is in block `b` and reads `bm`. -/
structure BitmapRead (v : Ext4) (s : FsState) (w : Bool) (g b : ℕ) (bm : Bytes) : Prop where
  place : readBitmap v g w s = (.ok b, s)
  content : readFsb v b s = (.ok bm, s)

/-- The search takes bit `j` of the bitmap of group `g` when it comes to it. -/
structure TakesBit (v : Ext4) (s : FsState) (w : Bool) (g : ℕ) (bm : Bytes) (j : ℕ) : Prop where
  clear : bm.testBit j = false
  below : w = false → unitAt v false g j < v.blocksTotal
  spare : w = false → blockReserved v g (unitAt v false g j) s = (.ok false, s)

/-- Bit `j` of group `g` stands for a unit that is free. -/
def FreeAt (v : Ext4) (s : FsState) (w : Bool) (g j : ℕ) : Prop :=
  ∃ b bm, BitmapRead v s w g b bm ∧ TakesBit v s w g bm j

/-- The guard stops at a block of group `g`. -/
def GuardStops (v : Ext4) (s : FsState) (w : Bool) (g : ℕ) (e : FsFail) : Prop :=
  w = false ∧ ∃ j < scannedBits v false, unitAt v false g j < v.blocksTotal ∧
    blockReserved v g (unitAt v false g j) s = (.error e, s)

/-- The search cannot get past group `g`. -/
inductive SearchStops (v : Ext4) (s : FsState) (w : Bool) (g : ℕ) : FsFail → Prop
  | place {e : FsFail} (h : readBitmap v g w s = (.error e, s)) : SearchStops v s w g e
  | content {e : FsFail} {b : ℕ} (hb : readBitmap v g w s = (.ok b, s))
      (h : readFsb v b s = (.error e, s)) : SearchStops v s w g e
  | bits (h : maxBlockSize * 8 < scannedBits v w) : SearchStops v s w g (.fault .outOfBounds)
  | guard {e : FsFail} (h : GuardStops v s w g e) : SearchStops v s w g e

/-! ## The routines of the search -/

theorem reads_blockReserved (v : Ext4) (g p : ℕ) : Prog.Reads (blockReserved v g p) :=
  (Prog.reads_pure _).ite (Prog.Reads.handle ((reads_groupDescriptor v g).bind fun _ =>
    (Prog.reads_fail _).ite (Prog.reads_pure _)))

theorem reads_readBitmap (v : Ext4) (g : ℕ) (w : Bool) : Prog.Reads (readBitmap v g w) :=
  (reads_groupDescriptor v g).bind fun _ => Prog.reads_pure _

/-- A block that can be read can be written. -/
theorem writeFsb_of_read (h : readFsb v b s = (.ok bm, s)) (buf : Bytes) :
    writeFsb v b buf s = (.ok (), setBlock v s b buf) := by
  unfold readFsb at h
  unfold writeFsb
  split at h
  · cases h
  · rename_i hfit
    rw [if_neg hfit]
    split at h
    · cases h
    · rename_i hin
      rw [if_neg hin]
      rfl

/-! ## One bitmap -/

/-- How the scan of the bits from `lo` to `hi` of one bitmap may end. -/
inductive Scanned (v : Ext4) (s : FsState) (w : Bool) (g b : ℕ) (bm : Bytes) (lo hi : ℕ) :
    Except FsFail (Option ℕ) × FsState → Prop
  | found {j : ℕ} (hlo : lo ≤ j) (hhi : j < hi) (htakes : TakesBit v s w g bm j)
      (hfirst : ∀ k, lo ≤ k → k < j → ¬TakesBit v s w g bm k) :
      Scanned v s w g b bm lo hi (.ok (some (unitAt v w g j)), setBlock v s b (bm.setBit j))
  | passed (hnone : ∀ k, lo ≤ k → k < hi → ¬TakesBit v s w g bm k) :
      Scanned v s w g b bm lo hi (.ok none, s)
  | bits (hbits : maxBlockSize * 8 < hi) : Scanned v s w g b bm lo hi (.error (.fault .outOfBounds), s)
  | guard {e : FsFail} {j : ℕ} (hw : w = false) (hj : j < hi) (hbelow : unitAt v false g j < v.blocksTotal)
      (hstop : blockReserved v g (unitAt v false g j) s = (.error e, s)) :
      Scanned v s w g b bm lo hi (.error e, s)

/-- A bit that is not taken is passed over. -/
theorem Scanned.pass {r : Except FsFail (Option ℕ) × FsState} (hlo : ¬TakesBit v s w g bm lo)
    (h : Scanned v s w g b bm (lo + 1) hi r) : Scanned v s w g b bm lo hi r := by
  have hnext : ∀ k, lo ≤ k → (lo + 1 ≤ k → ¬TakesBit v s w g bm k) → ¬TakesBit v s w g bm k := by
    intro k hk hrest
    rcases Nat.eq_or_lt_of_le hk with rfl | hlt
    · exact hlo
    · exact hrest hlt
  cases h with
  | found hle hlt htakes hfirst =>
    exact .found (by omega) hlt htakes fun k hk hkj => hnext k hk fun hk' => hfirst k hk' hkj
  | passed hnone => exact .passed fun k hk hkhi => hnext k hk fun hk' => hnone k hk' hkhi
  | bits hbits => exact .bits hbits
  | guard hw hj hbelow hstop => exact .guard hw hj hbelow hstop

/-- SOURCE: ext4.rs:705-735 -/
theorem allocScan_scanned (hread : readFsb v b s = (.ok bm, s)) (w : Bool) (g n idx : ℕ) :
    Scanned v s w g b bm idx (idx + n) (allocScan v w g b bm n idx s) := by
  induction n generalizing idx with
  | zero => exact .passed fun k hle hlt => absurd hle (by omega)
  | succ n ih =>
    have hnext := ih (idx + 1)
    rw [show idx + 1 + n = idx + (n + 1) by omega] at hnext
    have hnone : ∀ k, idx ≤ k → k < idx → ¬TakesBit v s w g bm k := fun k hle hlt => by omega
    have hwrite := writeFsb_of_read hread (bm.setBit idx)
    unfold allocScan
    by_cases hbound : maxBlockSize * 8 ≤ idx
    · rw [if_pos hbound]
      exact .bits (by omega)
    rw [if_neg hbound]
    by_cases hbit : bm.testBit idx = true
    · rw [if_pos hbit]
      exact hnext.pass fun htakes => Bool.false_ne_true (htakes.clear.symm.trans hbit)
    have hclear : bm.testBit idx = false := Bool.eq_false_of_not_eq_true hbit
    rw [if_neg hbit]
    cases w with
    | true =>
      rw [if_pos rfl, Prog.bind_ok hwrite]
      exact .found le_rfl (by omega) ⟨hclear, fun h => (nomatch h), fun h => (nomatch h)⟩ hnone
    | false =>
      rw [if_neg Bool.false_ne_true]
      by_cases htotal : v.blocksTotal ≤ unitAt v false g idx
      · rw [if_pos (show v.blocksTotal ≤ v.firstDataBlock + g * v.bpg + idx from htotal)]
        exact hnext.pass fun htakes => absurd (htakes.below rfl) (by omega)
      rw [if_neg (show ¬v.blocksTotal ≤ v.firstDataBlock + g * v.bpg + idx from htotal)]
      have hguard := (reads_blockReserved v g (unitAt v false g idx)).eq s
      -- the guard's answer decides
      cases hanswer : (blockReserved v g (unitAt v false g idx) s).1 with
      | error e =>
        rw [hanswer] at hguard
        rw [Prog.bind_error (show blockReserved v g (v.firstDataBlock + g * v.bpg + idx) s = _ from hguard)]
        exact .guard rfl (by omega) (not_le.mp htotal) hguard
      | ok answer =>
        rw [hanswer] at hguard
        rw [Prog.bind_ok (show blockReserved v g (v.firstDataBlock + g * v.bpg + idx) s = _ from hguard)]
        cases answer with
        | true =>
          rw [if_pos rfl]
          refine hnext.pass fun htakes => ?_
          rw [htakes.spare rfl] at hguard
          cases hguard
        | false =>
          rw [if_neg Bool.false_ne_true, Prog.bind_ok hwrite]
          exact .found le_rfl (by omega) ⟨hclear, fun _ => not_le.mp htotal, fun _ => hguard⟩ hnone

/-! ## The groups -/

/-- How the search in the groups from `lo` to `hi` may end. -/
inductive Searched (v : Ext4) (s : FsState) (w : Bool) (lo hi : ℕ) :
    Except FsFail ℕ × FsState → Prop
  | found {g j b : ℕ} {bm : Bytes} (hlo : lo ≤ g) (hhi : g < hi) (hj : j < scannedBits v w)
      (hread : BitmapRead v s w g b bm) (htakes : TakesBit v s w g bm j)
      (hfirst : ∀ h k, lo ≤ h → h < g ∨ h = g ∧ k < j → k < scannedBits v w → ¬FreeAt v s w h k) :
      Searched v s w lo hi (.ok (unitAt v w g j), setBlock v s b (bm.setBit j))
  | full (hread : ∀ g, lo ≤ g → g < hi → ∃ b bm, BitmapRead v s w g b bm)
      (hnone : ∀ g k, lo ≤ g → g < hi → k < scannedBits v w → ¬FreeAt v s w g k) :
      Searched v s w lo hi (.error (.error .noSpace), s)
  | stopped {g : ℕ} {e : FsFail} (hlo : lo ≤ g) (hhi : g < hi) (hstops : SearchStops v s w g e)
      (hnone : ∀ h k, lo ≤ h → h < g → k < scannedBits v w → ¬FreeAt v s w h k) :
      Searched v s w lo hi (.error e, s)

theorem BitmapRead.freeAt_iff (h : BitmapRead v s w g b bm) {j : ℕ} :
    FreeAt v s w g j ↔ TakesBit v s w g bm j := by
  refine ⟨fun ⟨b', bm', hread, htakes⟩ => ?_, fun htakes => ⟨b, bm, h, htakes⟩⟩
  have hb : b' = b := Except.ok.inj (Prod.mk.inj (hread.place.symm.trans h.place)).1
  subst hb
  have hbm : bm' = bm := Except.ok.inj (Prod.mk.inj (hread.content.symm.trans h.content)).1
  rwa [hbm] at htakes

/-- A group without a free unit is passed over. -/
theorem Searched.pass {r : Except FsFail ℕ × FsState} (hread : BitmapRead v s w lo b bm)
    (hlo : ∀ k < scannedBits v w, ¬FreeAt v s w lo k) (h : Searched v s w (lo + 1) hi r) :
    Searched v s w lo hi r := by
  have hnext : ∀ g k, lo ≤ g → k < scannedBits v w → (lo + 1 ≤ g → ¬FreeAt v s w g k) →
      ¬FreeAt v s w g k := by
    intro g k hg hk hrest
    rcases Nat.eq_or_lt_of_le hg with rfl | hlt
    · exact hlo k hk
    · exact hrest hlt
  cases h with
  | found hle hlt hj hread' htakes hfirst =>
    exact .found (by omega) hlt hj hread' htakes fun g k hg hbefore hk =>
      hnext g k hg hk fun hg' => hfirst g k hg' hbefore hk
  | full hreads hnone =>
    refine .full (fun g hg hghi => ?_) fun g k hg hghi hk =>
      hnext g k hg hk fun hg' => hnone g k hg' hghi hk
    rcases Nat.eq_or_lt_of_le hg with rfl | hlt
    · exact ⟨b, bm, hread⟩
    · exact hreads g hlt hghi
  | stopped hle hlt hstops hnone =>
    exact .stopped (by omega) hlt hstops fun g k hg hgs hk =>
      hnext g k hg hk fun hg' => hnone g k hg' hgs hk

/-- SOURCE: ext4.rs:696-740 -/
theorem allocGroups_searched (v : Ext4) (s : FsState) (w : Bool) (n g : ℕ) :
    Searched v s w g (g + n) (allocGroups v w n g s) := by
  induction n generalizing g with
  | zero => exact .full (fun h hle hlt => by omega) fun h k hle hlt => by omega
  | succ n ih =>
    have hbefore : ∀ h k, g ≤ h → h < g → k < scannedBits v w → ¬FreeAt v s w h k :=
      fun h k hle hlt => by omega
    unfold allocGroups
    have hplace := (reads_readBitmap v g w).eq s
    cases hb : (readBitmap v g w s).1 with
    | error e =>
      rw [hb] at hplace
      rw [Prog.bind_error hplace]
      exact .stopped le_rfl (by omega) (.place hplace) hbefore
    | ok b =>
      rw [hb] at hplace
      rw [Prog.bind_ok hplace]
      have hcontent := (reads_readFsb v b).eq s
      cases hbm : (readFsb v b s).1 with
      | error e =>
        rw [hbm] at hcontent
        rw [Prog.bind_error hcontent]
        exact .stopped le_rfl (by omega) (.content hplace hcontent) hbefore
      | ok bm =>
        rw [hbm] at hcontent
        rw [Prog.bind_ok hcontent]
        have hread : BitmapRead v s w g b bm := ⟨hplace, hcontent⟩
        have hscan := allocScan_scanned hcontent w g (scannedBits v w) 0
        rw [Nat.zero_add] at hscan
        change Searched v s w g (g + (n + 1)) ((allocScan v w g b bm (scannedBits v w) 0 >>= _) s)
        rw [Prog.bind_apply]
        generalize allocScan v w g b bm (scannedBits v w) 0 s = r at hscan
        cases hscan with
        | @found j _ hj htakes hfirst =>
          refine .found le_rfl (by omega) hj hread htakes fun h k hle hlt hk => ?_
          rcases hlt with hlt | ⟨rfl, hlt⟩
          · omega
          · rw [hread.freeAt_iff]
            exact hfirst k (Nat.zero_le k) hlt
        | passed hnone =>
          have hrest := ih (g + 1)
          rw [show g + 1 + n = g + (n + 1) by omega] at hrest
          refine hrest.pass hread fun k hk => ?_
          rw [hread.freeAt_iff]
          exact hnone k (Nat.zero_le k) hk
        | bits hbits => exact .stopped le_rfl (by omega) (.bits hbits) hbefore
        | guard hw hj hbelow hstop =>
          subst hw
          exact .stopped le_rfl (by omega) (.guard ⟨rfl, _, hj, hbelow, hstop⟩) hbefore

/-- SOURCE: ext4.rs:696-740 -/
theorem allocBit_searched (v : Ext4) (s : FsState) (w : Bool) :
    Searched v s w 0 v.numGroups (allocBit v w s) := by
  have hrun := allocGroups_searched v s w v.numGroups 0
  rwa [Nat.zero_add] at hrun

end Pinx.Analysis
