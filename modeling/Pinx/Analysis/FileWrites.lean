import Pinx.Analysis.FileGrowth

/-!
# ext4: `write_file`

The loop of a write, block by block: what it does to the file it works on, and what it
leaves of the file on disk when it stops halfway.  The inode is written last, so a call
that stops leaves the old root, over leaves that have changed.
-/

namespace Pinx.Analysis

open Pinx.Foundation Pinx.Model

variable {v : Ext4} {L : Layout} {s s' s₁ : FsState} {O O' : ℕ → Option Use} {i lb lo hi p x : ℕ}
  {raw raw₀ raw' : Bytes}

/-! ## The blocks a write misses -/

/-- The blocks from `lo` up to `hi` that are holes. -/
def missing (v : Ext4) (s : FsState) (raw : Bytes) (lo hi : ℕ) : List ℕ :=
  (List.range' lo (hi - lo)).filter fun x => treeLook v s raw x = .ok none

theorem mem_missing : x ∈ missing v s raw lo hi ↔ lo ≤ x ∧ x < hi ∧ treeLook v s raw x = .ok none := by
  rw [missing, List.mem_filter, List.mem_range'_1, decide_eq_true_iff]
  constructor
  · rintro ⟨⟨hlo, hhi⟩, hnone⟩
    exact ⟨hlo, by omega, hnone⟩
  · rintro ⟨hlo, hhi, hnone⟩
    exact ⟨⟨hlo, by omega⟩, hnone⟩

theorem missing_hole (hlt : lo < hi) (h : treeLook v s raw lo = .ok none) :
    missing v s raw lo hi = lo :: missing v s raw (lo + 1) hi := by
  unfold missing
  rw [show hi - lo = hi - (lo + 1) + 1 by omega, List.range'_succ, List.filter_cons,
    if_pos (decide_eq_true h)]

theorem missing_mapped (hlt : lo < hi) (h : treeLook v s raw lo ≠ .ok none) :
    missing v s raw lo hi = missing v s raw (lo + 1) hi := by
  unfold missing
  rw [show hi - lo = hi - (lo + 1) + 1 by omega, List.range'_succ, List.filter_cons,
    if_neg (by rw [decide_eq_true_iff]; exact h)]

/-- Lookups that end alike miss the same blocks. -/
theorem missing_congr (h : ∀ x, lo ≤ x → x < hi → treeLook v s' raw' x = treeLook v s raw x) :
    missing v s' raw' lo hi = missing v s raw lo hi := by
  unfold missing
  refine List.filter_congr fun x hx => ?_
  obtain ⟨hlo, hhi⟩ := List.mem_range'_1.mp hx
  rw [h x hlo (by omega)]

/-- A write to the blocks from `lo` up to `hi` finds them, or can add those it misses. -/
structure Ready (v : Ext4) (s : FsState) (raw : Bytes) (lo hi : ℕ) : Prop where
  found : ∀ x, lo ≤ x → x < hi → ∃ r, treeLook v s raw x = .ok r
  adds : missing v s raw lo hi = [] ∨ Addable v s raw (missing v s raw lo hi)

theorem Ready.congr (h : Ready v s raw lo hi) (hc : Covers v s O i raw)
    (hnodes : ∀ n, O n = some (.node i) → block v s' n = block v s n) : Ready v s' raw lo hi := by
  have hlook : ∀ x, treeLook v s' raw x = treeLook v s raw x :=
    treeLook_congr hc (fun _ _ => rfl) hnodes
  refine ⟨fun x hlo hhi => ?_, ?_⟩
  · rw [hlook]
    exact h.found x hlo hhi
  · rw [missing_congr fun x _ _ => hlook x]
    exact h.adds.imp_right fun hadd => hadd.congr hc hnodes

/-! ## One block -/

/-- Block `lb` of an open file is there, and its bytes are `blk`. -/
structure BlockOpened (v : Ext4) (L : Layout) (O : ℕ → Option Use) (i : ℕ) (s : FsState)
    (inode : Inode) (lb hi : ℕ) (O' : ℕ → Option Use) (s' : FsState) (inode' : Inode) (blk : Bytes) :
    Prop where
  step : Step v L False i O s O' s'
  opened : Opened v L O' i s' inode'
  data : ∀ q x, O q = some (.data i x) → block v s' q = block v s q
  others : ∀ x < 2 ^ 32 - 1, x ≠ lb → treeLook v s' inode'.raw x = treeLook v s inode.raw x
  bytes : blockAt v s inode.raw lb = .ok blk
  self : ∃ r, treeLook v s' inode'.raw lb = .ok r
  rest : Ready v s' inode'.raw (lb + 1) hi
  same : inode' = { inode with raw := inode'.raw }

/-- An allocation with what it means that it fails. -/
theorem allocBlock_full (hv : GeometryOk v) (hL : LayoutOk v L) (hp : PlacedAt v L s) :
    (∃ p s', allocBlock v s = (.ok p, s') ∧ BlockTaken v L p s s') ∨
    NoRoom v L s ∧ allocBlock v s = (.error (.error .noSpace), s) ∨
    ¬SmallCounts s ∧ ∃ e s', Skips e ∧ allocBlock v s = (.error e, s') := by
  rcases allocBlock_ends hv hL hp with ⟨g, j, s', hg, hj, hfree, hfirst, hrun, ht⟩ | hfull | hbig
  · exact Or.inl ⟨_, s', hrun, ht.blockTaken hv hL hg hj hfree hfirst⟩
  · exact Or.inr (Or.inl hfull)
  · exact Or.inr (Or.inr hbig)

section Open

variable (hv : GeometryOk v) (hL : LayoutOk v L) (hgood : Good v L O s) (hiu : InUse v L s i)
  {inode : Inode} (hop : Opened v L O i s inode) (hready : Ready v s inode.raw lb hi)
  (hlb : lb < hi) (hhi : hi ≤ 2 ^ 32 - 1)
include hv hL hgood hiu hop hready hlb hhi

/-- SOURCE: ext4.rs:1301-1307 -/
theorem openBlock_ends :
    Prog.Ends (fun r s' => ∃ O', BlockOpened v L O i s inode lb hi O' s' r.1 r.2)
      (fun e _ => Skips e ∧ ¬SmallCounts s ∨ e = .error .noSpace) (openBlock v inode lb s) := by
  unfold openBlock
  obtain ⟨found, hlook⟩ := hready.found lb (le_refl lb) hlb
  rw [Prog.bind_ok (by rw [mapBlock_eq hv hop.covers.ok, hlook])]
  cases found with
  | some fsb =>
    have howner := hop.covers.maps _ (treeLook_mem hlook)
    have hne : treeLook v s inode.raw lb ≠ .ok none := by
      rw [hlook]
      simp
    have hmiss := missing_mapped hlb hne
    dsimp only
    rw [Prog.bind_ok (readFsb_ok hv (hgood.used fsb _ howner).2.1.2)]
    refine Prog.ends_ok.mpr ⟨O, Step.refl v L False i O s, hop, fun _ _ _ => rfl, fun _ _ _ => rfl,
      blockAt_some hlook, ⟨_, hlook⟩, ⟨fun x hlo hhi => hready.found x (by omega) hhi, ?_⟩, rfl⟩
    rw [← hmiss]
    exact hready.adds
  | none =>
    have hmiss := missing_hole hlb hlook
    have hadd : Addable v s inode.raw (lb :: missing v s inode.raw (lb + 1) hi) := by
      rcases hready.adds with hnil | hadd
      · rw [hmiss] at hnil
        cases hnil
      · rwa [hmiss] at hadd
    dsimp only
    rcases allocBlock_full hv hL hgood.placed with ⟨p, s₁, hrun, htaken⟩ | ⟨-, hrun⟩ |
      ⟨hbig, e, s₁, he, hrun⟩
    · rw [Prog.bind_ok hrun]
      obtain ⟨hstep, hheld⟩ := htaken.step (T := False) hv hL hgood i
      have hvol₁ := hstep.vol False.elim (Or.inr rfl) ⟨hgood, False.elim⟩
      have hslot := hstep.touch.slots i hiu.1
      -- the allocator writes no block that is in use
      have hkeep : ∀ q u, O q = some u → block v s₁ q = block v s q := fun q u hq =>
        htaken.other q (not_bookkeeping_data (hgood.used q u hq).2.2.1)
      have hlook₁ : ∀ x, treeLook v s₁ inode.raw x = treeLook v s inode.raw x :=
        treeLook_congr hop.covers (fun _ _ => rfl) fun n hn => hkeep n _ hn
      have hins := insertExtent_added hv hL hvol₁.toGood (hiu.congr hslot) (hop.step hiu.1 hstep) hheld
        (by omega) (hadd.congr hop.covers fun n hn => hkeep n _ hn) (fun x hx => (mem_missing.mp hx).1)
        (by rw [hlook₁, hlook])
      refine Prog.Ends.bind (Q := fun inode' s' => ∃ O', Added v L O i s₁ inode lb p
        (missing v s inode.raw (lb + 1) hi) O' s' inode') (hins.weaken (fun _ _ => id) ?_) ?_
      · rintro e s' (⟨he, hbig⟩ | hfull)
        · exact Or.inl ⟨he, fun hsmall => hbig (hsmall.mono hstep.touch.counts)⟩
        · exact Or.inr hfull
      · rintro inode' s' ⟨O', hadded⟩
        have hothers : ∀ x < 2 ^ 32 - 1, x ≠ lb →
            treeLook v s' inode'.raw x = treeLook v s inode.raw x := fun x hx hne => by
          rw [hadded.others x hx hne, hlook₁]
        have hmiss' : missing v s' inode'.raw (lb + 1) hi = missing v s inode.raw (lb + 1) hi :=
          missing_congr fun x hlo hx => hothers x (by omega) (by omega)
        refine Prog.ends_ok.mpr ⟨O', hstep.trans hiu.1 hadded.step, hadded.opened,
          fun q x hq => (hadded.data q x hq).trans (hkeep q _ hq), hothers, blockAt_none hlook, ?_,
          ⟨fun x hlo hx => ?_, ?_⟩, hadded.same⟩
        · exact hadded.self.elim (fun h => ⟨_, h⟩) fun h => ⟨_, h⟩
        · obtain ⟨r, hr⟩ := hready.found x (by omega) hx
          exact ⟨r, by rw [hothers x (by omega) (by omega), hr]⟩
        · rw [hmiss']
          exact Or.inr hadded.rest
    · rw [Prog.bind_error hrun]
      exact Prog.ends_error.mpr (Or.inr rfl)
    · rw [Prog.bind_error hrun]
      exact Prog.ends_error.mpr (Or.inl ⟨he, hbig⟩)

end Open

/-! ## One turn of the loop -/

/-- One turn of the loop that went well. -/
structure TurnDone (v : Ext4) (L : Layout) (O : ℕ → Option Use) (i : ℕ) (s : FsState) (inode : Inode)
    (cur hi : ℕ) (bytes : List UInt8) (O' : ℕ → Option Use) (s' : FsState) (inode' : Inode) : Prop where
  step : Step v L False i O s O' s'
  opened : Opened v L O' i s' inode'
  writes : WritesBytes v s inode.raw s' inode'.raw cur bytes
  rest : Ready v s' inode'.raw (cur / v.bs + 1) hi
  same : inode' = { inode with raw := inode'.raw }

section Turn

variable {inode inode₁ : Inode} {O₁ : ℕ → Option Use} {blk : Bytes} {cur : ℕ} {bytes : List UInt8}
  (hv : GeometryOk v) (h : BlockOpened v L O i s inode lb hi O₁ s₁ inode₁ blk)
include hv h

/-- SOURCE: ext4.rs:1308-1311 -/
theorem BlockOpened.turn (hL : LayoutOk v L) (hgood : Good v L O s) (hiu : InUse v L s i)
    (hop : Opened v L O i s inode) (hlb : lb = cur / v.bs) (hcur : cur < (2 ^ 32 - 1) * v.bs)
    {count : ℕ} (hfit : cur % v.bs + count ≤ v.bs) (hlen : count ≤ bytes.length)
    (hp : treeLook v s₁ inode₁.raw lb = .ok (some p)) :
    TurnDone v L O i s inode cur hi (bytes.take count) O₁
      (setBlock v s₁ p (blk.blit (cur % v.bs) count fun k => bytes.getD k 0)) inode₁ := by
  subst hlb
  have hgood₁ : Good v L O₁ s₁ :=
    (h.step.vol False.elim (Or.inl hiu) ⟨hgood, False.elim⟩).toGood
  have howner := h.opened.covers.maps _ (treeLook_mem hp)
  have hwrite := data_write (T := False) hv hL hgood₁ howner
    (blk.blit (cur % v.bs) count fun k => bytes.getD k 0) False.elim
  generalize hw : blk.blit (cur % v.bs) count (fun k => bytes.getD k 0) = w at hwrite ⊢
  -- no node and no other block of the file is written
  have hnodes : ∀ n, O₁ n = some (.node i) → block v (setBlock v s₁ p w) n = block v s₁ n := by
    intro n hn
    refine block_setBlock_ne ?_
    rintro rfl
    rw [howner] at hn
    cases hn
  have hdata : ∀ q y, O q = some (.data i y) → y ≠ cur / v.bs →
      block v (setBlock v s₁ p w) q = block v s q := by
    intro q y hq hne
    rw [block_setBlock_ne, h.data q y hq]
    rintro rfl
    rw [h.step.ext q _ hq] at howner
    cases howner
    exact hne rfl
  have hlook : ∀ x, treeLook v (setBlock v s₁ p w) inode₁.raw x = treeLook v s₁ inode₁.raw x :=
    treeLook_congr h.opened.covers (fun _ _ => rfl) hnodes
  have hothers : ∀ y < 2 ^ 32 - 1, y ≠ cur / v.bs →
      blockAt v (setBlock v s₁ p w) inode₁.raw y = blockAt v s inode.raw y := by
    intro y hy hne
    refine blockAt_congr (by rw [hlook, h.others y hy hne]) fun q hq => ?_
    exact hdata q y (hop.covers.maps _ (treeLook_mem hq)) hne
  have hhere : blockAt v (setBlock v s₁ p w) inode₁.raw (cur / v.bs) = .ok (Bytes.clip v.bs w) := by
    rw [blockAt_some (by rw [hlook, hp]), block_setBlock_self]
  have hwrites : WritesBytes v s inode.raw (setBlock v s₁ p w) inode₁.raw cur (bytes.take count) := by
    refine writesBytes_of_block hv.bs_pos hcur hfit hlen (fun y hy hne b hb => ?_) h.bytes ?_
    · rw [hothers y hy hne, hb]
    · rw [hhere, ← hw]
  refine ⟨h.step.trans hiu.1 hwrite, h.opened.step hiu.1 hwrite, hwrites,
    h.rest.congr h.opened.covers hnodes, h.same⟩

end Turn

section Count

variable {cur : ℕ} {bytes : List UInt8} (hbs : 0 < v.bs)
include hbs

/-- The bytes of a turn are in one block. -/
theorem turnCount_fit : cur % v.bs + v.turnCount cur bytes ≤ v.bs := by
  have hmod := Nat.mod_lt cur hbs
  unfold Ext4.turnCount
  omega

theorem turnCount_pos (hne : bytes ≠ []) : 0 < v.turnCount cur bytes := by
  have hmod := Nat.mod_lt cur hbs
  have hpos := List.length_pos_iff.mpr hne
  unfold Ext4.turnCount
  omega

/-- A turn that leaves bytes over goes up to the end of its block. -/
theorem turnCount_next (hlast : v.turnCount cur bytes ≠ bytes.length) :
    (cur + v.turnCount cur bytes) / v.bs = cur / v.bs + 1 := by
  have hdiv := Nat.div_add_mod cur v.bs
  have hmod := Nat.mod_lt cur hbs
  have hfull : v.turnCount cur bytes = v.bs - cur % v.bs := by
    unfold Ext4.turnCount at hlast ⊢
    omega
  rw [hfull, show cur + (v.bs - cur % v.bs) = v.bs * (cur / v.bs + 1) by
    rw [Nat.mul_add]
    omega, Nat.mul_div_cancel_left _ hbs]

end Count

/-- How a write that fails stops: at counts too large to be counted down, or with an error. -/
def Stops (s : FsState) (e : FsFail) : Prop := Skips e ∧ ¬SmallCounts s ∨ ∃ err, e = .error err

section Loop

variable (hv : GeometryOk v) (hL : LayoutOk v L) (hgood : Good v L O s) (hiu : InUse v L s i)
  {inode : Inode} (hop : Opened v L O i s inode) {cur : ℕ} {bytes : List UInt8}
  (hready : Ready v s inode.raw (cur / v.bs) hi) (hhi : hi ≤ 2 ^ 32 - 1)
  (hend : cur + bytes.length ≤ hi * v.bs)
include hv hL hgood hiu hop hready hhi hend

/-- SOURCE: ext4.rs:1296-1312 -/
theorem writeTurn_ends (hne : bytes ≠ []) :
    Prog.Ends (fun inode' s' => ∃ O', TurnDone v L O i s inode cur hi
        (bytes.take (v.turnCount cur bytes)) O' s' inode')
      (fun e _ => Stops s e)
      (writeTurn v inode cur (v.turnCount cur bytes) bytes s) := by
  have hbs := hv.bs_pos
  have hpos := List.length_pos_iff.mpr hne
  have hmul : hi * v.bs ≤ (2 ^ 32 - 1) * v.bs := Nat.mul_le_mul_right v.bs hhi
  have hcur : cur < (2 ^ 32 - 1) * v.bs := by omega
  have hlb : cur / v.bs < hi := (Nat.div_lt_iff_lt_mul hbs).mpr (by omega)
  unfold writeTurn
  rw [(block_number hbs hcur).2]
  refine Prog.Ends.bind ((openBlock_ends hv hL hgood hiu hop hready hlb hhi).weaken
    (fun _ _ => id) ?_) ?_
  · exact fun e _ => Or.imp_right fun hfull => ⟨_, hfull⟩
  · rintro ⟨inode₁, blk⟩ s₁ ⟨O₁, hopened⟩
    dsimp only at hopened ⊢
    have hgood₁ : Good v L O₁ s₁ :=
      (hopened.step.vol False.elim (Or.inl hiu) ⟨hgood, False.elim⟩).toGood
    obtain ⟨found, hlook⟩ := hopened.self
    rw [Prog.bind_ok (by rw [mapBlock_eq hv hopened.opened.covers.ok, hlook])]
    cases found with
    | none =>
      exact Prog.ends_error.mpr (Or.inr ⟨.corrupt, rfl⟩)
    | some fsb =>
      have howner := hopened.opened.covers.maps _ (treeLook_mem hlook)
      dsimp only
      rw [Prog.bind_ok (writeFsb_ok hv (hgood₁.used fsb _ howner).2.1.2)]
      exact Prog.ends_ok.mpr ⟨O₁, hopened.turn hv hL hgood hiu hop rfl hcur (turnCount_fit hbs)
        (Nat.min_le_right _ _) hlook⟩

/-- The loop of a write that went well. -/
structure LoopDone (v : Ext4) (L : Layout) (O : ℕ → Option Use) (i : ℕ) (s : FsState) (inode : Inode)
    (cur : ℕ) (bytes : List UInt8) (O' : ℕ → Option Use) (s' : FsState) (inode' : Inode) : Prop where
  step : Step v L False i O s O' s'
  covers : Covers v s' O' i inode'.raw
  around : SameAround (slot v L s' i) inode'.raw
  writes : WritesBytes v s inode.raw s' inode'.raw cur bytes
  same : inode' = { inode with raw := inode'.raw }

/-- SOURCE: ext4.rs:1295-1313 -/
theorem writeLoop_ends (fuel : ℕ) (hfuel : bytes.length ≤ fuel) :
    Prog.Ends (fun inode' s' => ∃ O', LoopDone v L O i s inode cur bytes O' s' inode')
      (fun e _ => Stops s e) (writeLoop v fuel inode cur bytes s) := by
  have hdone : LoopDone v L O i s inode cur [] O s inode :=
    ⟨Step.refl v L False i O s, hop.covers, hop.around,
      ⟨KeepsBytes.refl v s inode.raw cur 0, fun k hk => absurd hk (Nat.not_lt_zero k)⟩, rfl⟩
  induction fuel generalizing O s inode cur bytes with
  | zero =>
    rw [List.length_eq_zero_iff.mp (Nat.le_zero.mp hfuel)]
    exact Prog.ends_ok.mpr ⟨O, hdone⟩
  | succ fuel ih =>
    unfold writeLoop
    by_cases hnil : bytes = []
    · rw [if_pos hnil, hnil]
      exact Prog.ends_ok.mpr ⟨O, hdone⟩
    rw [if_neg hnil]
    have hbs := hv.bs_pos
    have hmul : hi * v.bs ≤ (2 ^ 32 - 1) * v.bs := Nat.mul_le_mul_right v.bs hhi
    refine Prog.Ends.bind (writeTurn_ends hv hL hgood hiu hop hready hhi hend hnil) ?_
    rintro inode₁ s₁ ⟨O₁, hturn⟩
    have hcount : 0 < v.turnCount cur bytes := turnCount_pos hbs hnil
    have hle : v.turnCount cur bytes ≤ bytes.length := Nat.min_le_right _ _
    have hgood₁ : Good v L O₁ s₁ :=
      (hturn.step.vol False.elim (Or.inl hiu) ⟨hgood, False.elim⟩).toGood
    have htake : (bytes.take (v.turnCount cur bytes)).length = v.turnCount cur bytes := by
      rw [List.length_take]
      omega
    have hdrop : (bytes.drop (v.turnCount cur bytes)).length = bytes.length - v.turnCount cur bytes :=
      List.length_drop
    by_cases hlast : v.turnCount cur bytes = bytes.length
    · -- nothing is left
      rw [hlast, List.take_length] at hturn
      rw [hlast, List.drop_length]
      have hrest : writeLoop v fuel inode₁ (cur + bytes.length) [] s₁ = (.ok inode₁, s₁) := by
        cases fuel <;> rfl
      rw [hrest]
      exact Prog.ends_ok.mpr
        ⟨O₁, hturn.step, hturn.opened.covers, hturn.opened.around, hturn.writes, hturn.same⟩
    · -- the next turn starts with the next block
      have hnext := turnCount_next hbs hlast
      refine (ih hgood₁ (hiu.congr (hturn.step.touch.slots i hiu.1)) hturn.opened
        (by rw [hnext]; exact hturn.rest) (by omega) (by omega) ?_).weaken ?_ ?_
      · exact ⟨Step.refl v L False i O₁ s₁, hturn.opened.covers, hturn.opened.around,
          ⟨KeepsBytes.refl v s₁ inode₁.raw _ 0, fun k hk => absurd hk (Nat.not_lt_zero k)⟩, rfl⟩
      · rintro inode' s' ⟨O', hloop⟩
        refine ⟨O', hturn.step.trans hiu.1 hloop.step, hloop.covers, hloop.around, ?_, ?_⟩
        · have hwrites : WritesBytes v s inode.raw s' inode'.raw cur
              (bytes.take (v.turnCount cur bytes) ++ bytes.drop (v.turnCount cur bytes)) :=
            hturn.writes.append (by rw [htake]; exact hloop.writes) (by omega)
          rwa [List.take_append_drop] at hwrites
        · rw [hloop.same, hturn.same]
      · exact fun e _ => Or.imp_left (And.imp_right fun hbig hsmall =>
          hbig (hsmall.mono hturn.step.touch.counts))

end Loop

/-! ## The whole call -/

/-- The block behind the last one a write of `n` bytes from byte `offset` on reaches. -/
def endBlock (v : Ext4) (offset n : ℕ) : ℕ := (offset + n - 1) / v.bs + 1

/-- Where the bytes of a write at `offset` land: the number of a block is cut to 32 bits. -/
def landing (v : Ext4) (offset : ℕ) : ℕ := offset % (2 ^ 32 * v.bs)

/-- What a successful write has done to the volume: `buf` is in the file from byte `offset` on, and
the size is at least `last`. -/
structure FileStored (v : Ext4) (L : Layout) (O : ℕ → Option Use) (i : ℕ) (s : FsState) (offset : ℕ)
    (buf : List UInt8) (last : ℕ) (O' : ℕ → Option Use) (s' : FsState) : Prop where
  good : Good v L O' s'
  others : ∀ j, InUse v L s j → j ≠ i → SameFile v L O j s s'
  inUse : InUse v L s' i
  mode : (inodeOf v L s' i).mode = (inodeOf v L s i).mode
  size : (inodeOf v L s' i).size =
    max (inodeOf v L s i).size last % if v.has64bit then 2 ^ 64 else 2 ^ 32
  writes : WritesBytes v s (slot v L s i) s' (slot v L s' i) offset buf

section Alias

variable {inode : Inode} {cur count fuel : ℕ} {bytes : List UInt8} (hbs : 0 < v.bs) (k : ℕ)
include hbs

/-- Block numbers that differ by a multiple of 2^32 are not told apart. -/
theorem alias_block : (cur + k * (2 ^ 32 * v.bs)) / v.bs % 2 ^ 32 = cur / v.bs % 2 ^ 32 := by
  rw [← Nat.mul_assoc, Nat.add_mul_div_right _ _ hbs, Nat.add_mul_mod_self_right]

omit hbs in
theorem alias_offset : (cur + k * (2 ^ 32 * v.bs)) % v.bs = cur % v.bs := by
  rw [← Nat.mul_assoc, Nat.add_mul_mod_self_right]

/-- A write does the same at offsets that differ by a multiple of 2^32 blocks. -/
theorem writeLoop_alias : writeLoop v fuel inode (cur + k * (2 ^ 32 * v.bs)) bytes =
    writeLoop v fuel inode cur bytes := by
  induction fuel generalizing inode cur bytes with
  | zero => rfl
  | succ fuel ih =>
    have hcount : v.turnCount (cur + k * (2 ^ 32 * v.bs)) bytes = v.turnCount cur bytes := by
      unfold Ext4.turnCount
      rw [alias_offset]
    have hturn : ∀ inode, writeTurn v inode (cur + k * (2 ^ 32 * v.bs)) (v.turnCount cur bytes) bytes =
        writeTurn v inode cur (v.turnCount cur bytes) bytes := by
      intro inode
      unfold writeTurn
      rw [alias_block hbs, alias_offset]
    unfold writeLoop
    rw [hcount]
    dsimp only
    rw [hturn]
    simp only [Nat.add_right_comm cur (k * (2 ^ 32 * v.bs)), ih]

omit k in
theorem writeLoop_landing :
    writeLoop v fuel inode cur bytes = writeLoop v fuel inode (landing v cur) bytes := by
  conv_lhs => rw [← Nat.mod_add_div' cur (2 ^ 32 * v.bs)]
  exact writeLoop_alias hbs _

end Alias

section File

variable {offset : ℕ} {buf : List UInt8} (hv : GeometryOk v) (hL : LayoutOk v L)

include hv hL

/-- The inode a write ends with, before its blocks are counted. -/
def sizedInode (inode : Inode) (n : ℕ) : Inode := { inode with size := max inode.size n }

/-- The end of a write: the inode with its size and its count of blocks. -/
theorem LoopDone.store {inode' : Inode} (hgood : Good v L O s) (hiu : InUse v L s i)
    (h : LoopDone v L O i s (inodeOf v L s i) offset buf O' s₁ inode') (last : ℕ) :
    ∃ total s', recountBlocks v (sizedInode inode' last) s₁ = (.ok total, s₁) ∧
      s' = putSlot v L s₁ i (v.encodeInode { sizedInode inode' last with blocks := total }) ∧
      writeInode v { sizedInode inode' last with blocks := total } s₁ = (.ok (), s') ∧
      FileStored v L O i s offset buf last O' s' := by
  have hvol : Vol v L False O s := ⟨hgood, False.elim⟩
  have hslot := h.step.touch.slots i hiu.1
  have hsame := h.same
  obtain ⟨total, htotal, hrun, hvol', huse⟩ := finish_inode hv hL False.elim
    (sizedInode inode' last) (h.step.vol False.elim (Or.inl hiu) hvol) (hiu.congr hslot)
    (by rw [hsame]; rfl) h.covers h.around (by rw [hsame, inodeOf_congr hslot]; rfl)
    (by rw [hsame, inodeOf_congr hslot]; rfl)
  refine ⟨total, _, htotal, rfl, hrun, ?_⟩
  generalize hlast : { sizedInode inode' last with blocks := total } = final at *
  obtain ⟨hagree, hinode⟩ := slot_written (s := s₁) hv hL hiu.1 final
  obtain ⟨hmode, -, hsize⟩ := parseInode_encode (v := v) final i
  have hput : ∀ p u, O' p = some u → block v (putSlot v L s₁ i (v.encodeInode final)) p = block v s₁ p :=
    fun p u hp => block_putSlot hv hL hiu.1 (hvol'.used p u hp).2.2.1
  refine ⟨hvol'.toGood, fun j hj hne => ?_, huse, ?_, ?_, ?_⟩
  · refine sameFile_of_slot hj ?_ fun p u hp hu => ?_
    · rw [slot_putSlot hv hL hiu.1 hj.1, if_neg hne, h.step.touch.slots j hj.1]
    · rw [hput p u (h.step.ext p u hp), h.step.others hgood hp (hu ▸ hne)]
  · rw [hinode, hmode, ← hlast, hsame]
    exact Nat.mod_eq_of_lt (mode_lt v L s i)
  · rw [hinode, hsize, ← hlast, hsame]
    rfl
  · have hwrites := h.writes
    rw [raw_inodeOf] at hwrites
    refine hwrites.read_from fun x => byteAt_congr h.covers ?_ (fun p u hp _ => hput p u hp) x
    rw [← hlast] at hagree ⊢
    exact hagree

variable (hgood : Good v L O s) (hiu : InUse v L s i) (hfile : (inodeOf v L s i).isFile = true)
  (hne : buf ≠ []) (hend : endBlock v offset buf.length ≤ 2 ^ 32 - 1)

omit hL in
theorem endBlock_end (hpos : buf ≠ []) :
    offset + buf.length ≤ endBlock v offset buf.length * v.bs := by
  have h := Nat.lt_mul_div_succ (offset + buf.length - 1) hv.bs_pos
  have hlen := List.length_pos_iff.mpr hpos
  unfold endBlock
  rw [Nat.mul_comm]
  omega

include hne hend

omit hL in
/-- A write that ends below the last block number lands where it is asked to, and its end is a
number of 64 bits. -/
theorem landing_eq : landing v offset = offset ∧ offset + buf.length < 2 ^ 64 := by
  have hlast : offset + buf.length ≤ endBlock v offset buf.length * v.bs := endBlock_end hv hne
  have hmul : endBlock v offset buf.length * v.bs ≤ (2 ^ 32 - 1) * v.bs := Nat.mul_le_mul_right _ hend
  have hpos := List.length_pos_iff.mpr hne
  have hle : v.bs ≤ 4096 := hv.bs_le
  exact ⟨Nat.mod_eq_of_lt (by omega), by omega⟩

omit hend
include hgood hiu hfile

/-- Up to the loop nothing happens. -/
theorem writeFile_begin (hlt : offset + buf.length < 2 ^ 64) : writeFile v i offset buf s =
    (writeLoop v buf.length (inodeOf v L s i) offset buf >>= fun inode =>
      recountBlocks v (sizedInode inode (offset + buf.length)) >>= fun total =>
        writeInode v { sizedInode inode (offset + buf.length) with blocks := total }) s := by
  unfold writeFile
  rw [if_neg hne, Prog.bind_ok (readInode_ok hv hL hgood.placed hiu.1),
    if_neg (by rw [hfile]; decide), if_neg (Nat.not_le.mpr hlt)]
  rfl

variable (hdepth : HasMagic (slot v L s i) iblock → rootDepth (slot v L s i) ≤ 1)
include hdepth

/-- A write stores its bytes where they land, if the blocks it misses there can be added. -/
theorem writeFile_lands (hlt : offset + buf.length < 2 ^ 64)
    (hend : endBlock v (landing v offset) buf.length ≤ 2 ^ 32 - 1)
    (hready : Ready v s (slot v L s i) (landing v offset / v.bs)
      (endBlock v (landing v offset) buf.length)) :
    Prog.Ends (fun _ s' => ∃ O', FileStored v L O i s (landing v offset) buf (offset + buf.length) O' s')
      (fun e _ => Stops s e) (writeFile v i offset buf s) := by
  have hop := opened_slot ⟨hgood, False.elim⟩ hiu hdepth
  have hloop := writeLoop_ends hv hL hgood hiu hop (by rw [raw_inodeOf]; exact hready) hend
    (endBlock_end hv hne) buf.length (le_refl _)
  rw [writeFile_begin hv hL hgood hiu hfile hne hlt, writeLoop_landing hv.bs_pos]
  refine Prog.Ends.bind hloop ?_
  rintro inode' s₁ ⟨O', hdone⟩
  obtain ⟨total, s', htotal, -, hrun, hstored⟩ := hdone.store hv hL hgood hiu (offset + buf.length)
  rw [Prog.bind_ok htotal, hrun]
  exact Prog.ends_ok.mpr ⟨O', hstored⟩

include hend in
/-- SOURCE: ext4.rs:1282-1320 -/
theorem writeFile_ends
    (hready : Ready v s (slot v L s i) (offset / v.bs) (endBlock v offset buf.length)) :
    Prog.Ends (fun _ s' => ∃ O', FileStored v L O i s offset buf (offset + buf.length) O' s')
      (fun e _ => Stops s e) (writeFile v i offset buf s) := by
  obtain ⟨heq, hlt⟩ := landing_eq hv hne hend
  have hlands := writeFile_lands hv hL hgood hiu hfile hne hdepth hlt
  rw [heq] at hlands
  exact hlands hend hready

end File

end Pinx.Analysis
