import Pinx.Analysis.FileData

/-!
# ext4: blocks added to a file

A write adds the blocks it misses at the end of the last leaf of the file, whatever their
place in the file.  Nothing that was mapped is lost if the blocks lie behind all that is
mapped in a tree in order, or if the last leaf has room for all of them: in both cases as
long as no record becomes longer than 0x7FFF blocks.
-/

namespace Pinx.Analysis

open Pinx.Foundation Pinx.Model

variable {v : Ext4} {L : Layout} {s s' s₁ : FsState} {O O' : ℕ → Option Use} {i lb p x top : ℕ}
  {recs recs' : List Extent} {init table table' : List (ℕ × List Extent)} {key cap cap' : ℕ}
  {new : List ℕ} {raw : Bytes}

/-! ## In a table of leaves -/

/-- The records of the last leaf, and the length of the last one. -/
def lastLeaf (table : List (ℕ × List Extent)) : List Extent :=
  match table.getLast? with
  | some entry => entry.2
  | none => []

def lastLen (recs : List Extent) : ℕ :=
  match recs.getLast? with
  | some e => e.len
  | none => 0

theorem lastLeaf_concat : lastLeaf (init ++ [(key, recs)]) = recs := by
  rw [lastLeaf, List.getLast?_concat]

theorem lastLen_concat {es : List Extent} {e : Extent} : lastLen (es ++ [e]) = e.len := by
  rw [lastLen, List.getLast?_concat]

theorem Put.lastLen_le (h : Put recs lb p recs') : lastLen recs' ≤ lastLen recs + 1 := by
  cases h with
  | append hno =>
    rw [lastLen_concat]
    exact Nat.le_add_left 1 _
  | merge hrecs =>
    rw [hrecs, lastLen_concat, lastLen_concat]

theorem Put.length_le (h : Put recs lb p recs') : recs'.length ≤ recs.length + 1 := by
  cases h with
  | append hno => rw [List.length_append, List.length_singleton]
  | merge hrecs =>
    rw [hrecs, List.length_append, List.length_append]
    exact Nat.le_succ _

/-- A record that is put ends where the block does. -/
theorem Put.overlong (h : Put recs lb p recs') (hlt : lb + 1 < 2 ^ 32) (hover : Overlong recs') :
    Overlong recs := by
  obtain ⟨e, he, hlong⟩ := hover
  cases h with
  | append hno =>
    rcases List.mem_append.mp he with he | he
    · exact ⟨e, he, hlong⟩
    · rw [List.mem_singleton.mp he] at hlong
      exact absurd hlong (by dsimp only; omega)
  | merge hrecs hw hend =>
    rcases List.mem_append.mp he with he | he
    · exact ⟨e, hrecs ▸ List.mem_append_left _ he, hlong⟩
    · rw [List.mem_singleton.mp he] at hlong
      exact absurd hlong (by dsimp only; omega)

theorem lastLen_copied (recs : List Extent) : lastLen (recs.map copied) ≤ lastLen recs := by
  unfold lastLen
  rw [List.getLast?_map]
  cases recs.getLast? with
  | none => exact le_refl 0
  | some e =>
    rw [Option.map_some]
    dsimp only
    unfold copied
    split
    · exact le_refl _
    · exact Nat.zero_le _

theorem not_brims_of_lastLen (h : lastLen recs < 0x7FFF) : ¬Brims recs lb p := by
  rintro ⟨e, he, hlen, -⟩
  rw [lastLen, he] at h
  dsimp only at h
  omega

/-- Blocks put into the last leaf, which is there or which the root becomes. -/
theorem TableGrows.put_cases (h : TableGrows table lb p table')
    (hlen : table'.length = table.length) :
    ∃ init key recs recs', table = init ++ [(key, recs)] ∧ table' = init ++ [(key, recs')] ∧
      (Put recs lb p recs' ∨ Put (recs.map copied) lb p recs') := by
  cases h with
  | put htable hput => exact ⟨_, _, _, _, htable, rfl, Or.inl hput⟩
  | deepen htable hput => exact ⟨[], 0, _, _, htable, rfl, Or.inr hput⟩
  | split htable htwo hput =>
    rw [htable] at hlen
    simp only [List.length_append, List.length_singleton] at hlen
    omega

theorem TableGrows.lastLen_le (h : TableGrows table lb p table') :
    lastLen (lastLeaf table') ≤ lastLen (lastLeaf table) + 1 := by
  cases h with
  | put htable hput =>
    rw [htable, lastLeaf_concat, lastLeaf_concat]
    exact hput.lastLen_le
  | @deepen recs recs' htable hput =>
    rw [htable]
    exact hput.lastLen_le.trans (Nat.succ_le_succ (lastLen_copied recs))
  | @split init key recs recs' htable htwo hput =>
    rw [htable, lastLeaf_concat, lastLeaf_concat]
    have hcopied := lastLen_copied (recs.drop (recs.length / 2))
    have hdrop : lastLen (recs.drop (recs.length / 2)) = lastLen recs := by
      unfold lastLen
      rw [List.getLast?_drop, if_neg (by omega)]
    have hle := hput.lastLen_le
    omega

theorem TableGrows.ne_nil (h : TableGrows table lb p table') : table' ≠ [] := by
  cases h with
  | put htable hput => exact List.append_ne_nil_of_right_ne_nil _ (List.cons_ne_nil _ _)
  | deepen htable hput => exact List.cons_ne_nil _ _
  | split htable htwo hput => exact List.append_ne_nil_of_right_ne_nil _ (List.cons_ne_nil _ _)

/-- The last leaf has room for `k` more records. -/
structure Roomy (table : List (ℕ × List Extent)) (cap k : ℕ) : Prop where
  fits : (lastLeaf table).length + k ≤ cap
  ends : ¬Overlong (lastLeaf table)

/-- The blocks `new` can be added to a table whose last leaf holds `cap` records. -/
structure CanTake (table : List (ℕ × List Extent)) (cap : ℕ) (new : List ℕ) : Prop where
  short : lastLen (lastLeaf table) + new.length ≤ 0x7FFF
  clean : (∃ n, AscendTable n table ∧ ∀ x ∈ new, n ≤ x) ∨ Roomy table cap new.length

/-- What the lookups of a table are after block `lb` was added at `p`: the new block is found,
or the keys of the table lead past it. -/
structure Adds (table : List (ℕ × List Extent)) (lb p : ℕ) (table' : List (ℕ × List Extent)) :
    Prop where
  others : ∀ x < 2 ^ 32 - 1, x ≠ lb →
    lookTable (2 ^ 32 - 1) x table' = lookTable (2 ^ 32 - 1) x table
  self : lookTable (2 ^ 32 - 1) lb table' = .ok (some p) ∨
    lookTable (2 ^ 32 - 1) lb table' = .ok none

section Grow

variable (hgrows : TableGrows table lb p table') (hlt : lb + 1 < 2 ^ 32)
  (hnone : lookTable (2 ^ 32 - 1) lb table = .ok none)
include hgrows hlt hnone

/-- A block put into the last leaf. -/
theorem adds_put (hlen : table'.length = table.length) (hshort : lastLen (lastLeaf table) < 0x7FFF) :
    Adds table lb p table' ∧ lastLen (lastLeaf table') ≤ lastLen (lastLeaf table) + 1 ∧
      ∀ k, Roomy table cap (k + 1) → Roomy table' cap k := by
  obtain ⟨init, key, recs, recs', rfl, rfl, hput⟩ := hgrows.put_cases hlen
  rw [lastLeaf_concat] at hshort
  simp only [lastLeaf_concat]
  -- records are copied as they are read
  obtain ⟨old, hput, hscan, hlast, hlength, hover⟩ : ∃ old, Put old lb p recs' ∧
      (∀ x, scanRecs x old = scanRecs x recs) ∧ lastLen old ≤ lastLen recs ∧
      old.length = recs.length ∧ (Overlong old → Overlong recs) := by
    rcases hput with hput | hput
    · exact ⟨recs, hput, fun _ => rfl, le_refl _, rfl, id⟩
    · exact ⟨_, hput, fun x => scanRecs_copied x recs, lastLen_copied recs, List.length_map _,
        Overlong.of_copied⟩
  have hbrim : ¬Brims old lb p := not_brims_of_lastLen (by omega)
  refine ⟨⟨fun x hx hne => lookTable_last ((hput.scan_other hbrim hlt hne).trans (hscan x)), ?_⟩,
    by have := hput.lastLen_le; omega, fun k hroom => ?_⟩
  · unfold lookTable at hnone ⊢
    rw [route_concat] at hnone ⊢
    cases hroute : route key lb init with
    | some a =>
      rw [hroute] at hnone
      exact Or.inr hnone
    | none =>
      rw [hroute, Option.none_or] at hnone
      rw [Option.none_or]
      by_cases hin : key ≤ lb ∧ lb < 2 ^ 32 - 1
      · rw [if_pos hin] at hnone ⊢
        exact Or.inl (hput.scan_self hbrim hlt ((hscan lb).trans hnone))
      · rw [if_neg hin]
        exact Or.inr rfl
  · obtain ⟨hfits, hends⟩ := hroom
    rw [lastLeaf_concat] at hfits hends
    have hle := hput.length_le
    constructor
    · rw [lastLeaf_concat]
      omega
    · rw [lastLeaf_concat]
      exact fun h => hends (hover (hput.overlong hlt h))

omit hnone in
/-- A block added behind a table in order. -/
theorem adds_behind {n : ℕ} (ha : AscendTable n table) (hn : n ≤ lb)
    (hshort : lastLen (lastLeaf table) < 0x7FFF) :
    Adds table lb p table' ∧ AscendTable (lb + 1) table' := by
  have hbrim : ¬BrimsAt table lb p := by
    rintro ⟨entry, hlast, hbrim⟩
    rw [lastLeaf, hlast] at hshort
    exact not_brims_of_lastLen hshort hbrim
  obtain ⟨hasc, hlook⟩ := hgrows.look ha hn hlt hbrim
  refine ⟨⟨fun x hx hne => ?_, Or.inl ?_⟩, hasc⟩
  · rw [hlook x hx, if_neg hne]
  · rw [hlook lb (by omega), if_pos rfl]

/-- One of the blocks that can be added is added: the others still can. -/
theorem CanTake.grow (hcan : CanTake table cap (lb :: new)) (hsorted : ∀ x ∈ new, lb < x)
    (hroom : Roomy table cap (new.length + 1) → table'.length = table.length ∧ cap' = cap) :
    Adds table lb p table' ∧ CanTake table' cap' new := by
  obtain ⟨hshort, hclean⟩ := hcan
  rw [List.length_cons] at hshort hclean
  have hlast := hgrows.lastLen_le
  rcases hclean with ⟨n, ha, hn⟩ | hroomy
  · obtain ⟨hadds, hasc⟩ := adds_behind hgrows hlt ha (hn lb List.mem_cons_self) (by omega)
    exact ⟨hadds, by omega, Or.inl ⟨lb + 1, hasc, hsorted⟩⟩
  · obtain ⟨hlen, rfl⟩ := hroom hroomy
    obtain ⟨hadds, -, hroomy'⟩ : _ ∧ _ ∧ ∀ k, Roomy table cap' (k + 1) → Roomy table' cap' k :=
      adds_put hgrows hlt hnone hlen (by omega)
    exact ⟨hadds, by omega, Or.inr (hroomy' _ hroomy)⟩

end Grow

theorem CanTake.not_overlong (hcan : CanTake table cap (lb :: new)) (hlt : lb + 1 < 2 ^ 32) :
    ¬Overlong (lastLeaf table) := by
  rcases hcan.clean with ⟨n, ha, hn⟩ | hroomy
  · have hle := hn lb List.mem_cons_self
    rintro ⟨e, he, hlong⟩
    unfold lastLeaf at he
    split at he
    · rename_i entry hlast
      obtain ⟨hi, hhi, hasc⟩ := ha.leaf (show (entry.1, entry.2) ∈ table from List.mem_of_getLast? hlast)
      have := (hasc.bounds he).2.2
      omega
    · cases he
  · exact hroomy.ends

/-! ## In the tree of a file -/

/-- The root of a file, which gets an empty header if it has none.
SOURCE: ext4.rs:946-955 -/
def headed (raw : Bytes) : Bytes := if HasMagic raw iblock then raw else wrHdr raw iblock 0 4 0

/-- The blocks `new` can be added to a file, one after another, with nothing lost. -/
structure Addable (v : Ext4) (s : FsState) (raw : Bytes) (new : List ℕ) : Prop where
  shallow : rootDepth (headed raw) ≤ 1
  filled : leafTable v s (headed raw) ≠ []
  apart : (leafNodes (headed raw)).Nodup
  can : CanTake (leafTable v s (headed raw)) (lastCap v s (headed raw)) new

theorem headed_of_magic (h : HasMagic raw iblock) : headed raw = raw := if_pos h

theorem withHeader_raw (inode : Inode) : (withHeader inode).raw = headed inode.raw := by
  unfold withHeader headed
  split <;> rfl

theorem treeLook_headed (x : ℕ) : treeLook v s (headed raw) x = treeLook v s raw x := by
  unfold headed
  split
  · rfl
  · rename_i hmagic
    rw [treeLook, treeLook, if_pos (hasMagic_wrHdr _ _ _ _ _), if_neg hmagic, rootDepth,
      hdrOf_wrHdr (by omega) (by omega) (by omega), look, leafRecs,
      hdrOf_wrHdr (by omega) (by omega) (by omega)]
    rfl

theorem lastRecs_eq (raw : Bytes) : lastRecs v s raw = lastLeaf (leafTable v s raw) := by
  unfold lastRecs leafTable
  split
  · rfl
  · unfold lastLeaf
    rw [List.getLast?_map]
    cases (kidsOf raw iblock).getLast? with
    | none => rfl
    | some x => rfl

/-- The last leaf of a deep tree. -/
theorem lastLeaf_deep {first c : ℕ} (hhead : HeadOk raw iblock 4 1)
    (hlast : (kidsOf raw iblock).getLast? = some (first, c)) :
    lastLeaf (leafTable v s raw) = leafRecs (block v s c) 0 ∧
      lastCap v s raw = (hdrOf (block v s c) 0).max := by
  refine ⟨?_, lastCap_deep hhead hlast⟩
  rw [(leafTable_deep hhead).1, lastLeaf, List.getLast?_map, hlast]
  rfl

/-- A block put into a tree whose last leaf has room. -/
theorem InsertEnds.put_cases {inode inode' : Inode} (hv : GeometryOk v) (hL : LayoutOk v L)
    (hs : Placed v L s) (h : InsertEnds v L s inode lb p (.ok inode', s'))
    (hroom : (lastLeaf (leafTable v s inode.raw)).length < lastCap v s inode.raw) :
    (leafTable v s' inode'.raw).length = (leafTable v s inode.raw).length ∧
      lastCap v s' inode'.raw = lastCap v s inode.raw := by
  cases h with
  | @root raw hhead hhead' hput haround =>
    constructor
    · rw [(leafTable_flat hhead).1, (leafTable_flat hhead').1]
      rfl
    · exact (lastCap_flat hhead').trans (lastCap_flat hhead).symm
  | @deepened q s₁ s' hhead hdeep hput =>
    obtain ⟨-, -, hisBlock, -⟩ := hdeep.touches hv hL hs
    obtain ⟨hhead', hkids, -⟩ := deepRoot_kids hhead (hisBlock.2.trans_le hv.blocks)
    obtain ⟨recs, -, hleaf⟩ := hput.put
    constructor
    · rw [(leafTable_flat hhead).1, (leafTable_deep hhead').1, hkids]
      rfl
    · rw [(lastLeaf_deep (s := s') hhead' (by rw [hkids]; rfl)).2, hleaf.max_eq,
        hdeep.leaf.max_eq, lastCap_flat hhead]
  | @leaf c s' htree hlast hput =>
    obtain ⟨first, hlast⟩ := hlast
    obtain ⟨recs, -, hleaf⟩ := hput.put
    constructor
    · rw [(leafTable_deep htree.headOk).1, (leafTable_deep htree.headOk).1, List.length_map,
        List.length_map]
    · rw [(lastLeaf_deep (s := s') htree.headOk hlast).2,
        (lastLeaf_deep (s := s) htree.headOk hlast).2, hleaf.max_eq]
  | @split c q s₁ s' htree hlast hroot hsplit hput =>
    obtain ⟨first, hlast⟩ := hlast
    obtain ⟨hrecs, hcap⟩ := lastLeaf_deep (v := v) (s := s) htree.headOk hlast
    rw [hrecs, hcap, hsplit.full] at hroom
    exact absurd hroom (Nat.lt_irrefl _)

/-- Block `p` was added to an open file as its block `lb`. -/
structure Added (v : Ext4) (L : Layout) (O : ℕ → Option Use) (i : ℕ) (s : FsState) (inode : Inode)
    (lb p : ℕ) (new : List ℕ) (O' : ℕ → Option Use) (s' : FsState) (inode' : Inode) : Prop where
  step : Step v L False i O s O' s'
  opened : Opened v L O' i s' inode'
  data : ∀ q x, O q = some (.data i x) → block v s' q = block v s q
  others : ∀ x < 2 ^ 32 - 1, x ≠ lb → treeLook v s' inode'.raw x = treeLook v s inode.raw x
  self : treeLook v s' inode'.raw lb = .ok (some p) ∨ treeLook v s' inode'.raw lb = .ok none
  rest : Addable v s' inode'.raw new
  same : inode' = { inode with raw := inode'.raw }

theorem headed_magic (raw : Bytes) : HasMagic (headed raw) iblock := by
  unfold headed
  split
  · assumption
  · exact hasMagic_wrHdr _ _ _ _ _

theorem headed_of_deep (h : rootDepth (headed raw) ≠ 0) : headed raw = raw := by
  unfold headed at h ⊢
  split
  · rfl
  · rename_i hmagic
    rw [if_neg hmagic, rootDepth, hdrOf_wrHdr (by omega) (by omega) (by omega)] at h
    exact absurd rfl h

/-- The leaves of a shallow tree are its nodes. -/
theorem leafNodes_headed {n : ℕ} (hshallow : rootDepth (headed raw) ≤ 1)
    (hn : n ∈ leafNodes (headed raw)) : n ∈ treeNodes v s raw := by
  have hdeep : rootDepth (headed raw) ≠ 0 := by
    intro h
    rw [leafNodes, if_pos h] at hn
    cases hn
  have hmagic := headed_magic raw
  rw [headed_of_deep hdeep] at hn hshallow hmagic
  exact mem_treeNodes_leaf hmagic hshallow hn

section Insert

variable (hv : GeometryOk v) (hL : LayoutOk v L) (hgood : Good v L O s) (hi : InUse v L s i)
  {inode : Inode} (hop : Opened v L O i s inode) (hp : Held v L O s p) (hlt : lb + 1 < 2 ^ 32)
  (hadd : Addable v s inode.raw (lb :: new))
include hv hL hgood hi hop hp hlt hadd

/-- SOURCE: ext4.rs:944-992 -/
theorem insertExtent_added (hsorted : ∀ x ∈ new, lb < x)
    (hnone : treeLook v s inode.raw lb = .ok none) :
    Prog.Ends (fun inode' s' => ∃ O', Added v L O i s inode lb p new O' s' inode')
      (fun e _ => Skips e ∧ ¬SmallCounts s ∨ e = .error .noSpace)
      (insertExtent v inode lb p s) := by
  have hvol : Vol v L False O s := ⟨hgood, False.elim⟩
  have hused : ∀ n ∈ treeNodes v s inode.raw, IsBlock v n ∧ L.role n = .data ∧ marked v L s n = true :=
    fun n hn => (hgood.used n _ (hop.covers.nodes n hn)).2
  have hstepped := insertExtent_step hv hL False.elim hvol hi hop hp False.elim
    (show lb < 2 ^ 32 by omega)
  have hends := insertExtent_ends hv hL hgood.toPlaced (show lb < 2 ^ 32 by omega)
    (hp.isBlock.2.trans_le hv.blocks) hop.covers.ok hop.shallow hused
  have hfull : Roomy (leafTable v s (headed inode.raw)) (lastCap v s (headed inode.raw))
      (new.length + 1) → (lastLeaf (leafTable v s (headed inode.raw))).length < lastCap v s (headed inode.raw) :=
    fun h => by have := h.fits; omega
  have hdataLeaf : ∀ q x, O q = some (.data i x) → q ∉ leafNodes (headed inode.raw) := by
    intro q x hq hmem
    have hnode := hop.covers.nodes q (leafNodes_headed hadd.shallow hmem)
    rw [hq] at hnode
    cases hnode
  cases hrun : insertExtent v inode lb p s with
  | mk r s' =>
  rw [hrun] at hstepped hends
  cases r with
  | ok inode' =>
    obtain ⟨O', hstep, hop', -⟩ := Prog.ends_ok.mp hstepped
    have hapart : LeavesApart v L s (withHeader inode).raw := by
      rw [withHeader_raw]
      exact ⟨hadd.apart, fun n hn => (hused n (leafNodes_headed hadd.shallow hn)).2⟩
    have hinserts := hends.inserts hv hL hgood.toPlaced hapart
    have hgrows := hinserts.grows
    have hdata := hinserts.data
    rw [withHeader_raw] at hgrows hdata
    have hput := fun h => hends.put_cases hv hL hgood.toPlaced h
    rw [withHeader_raw] at hput
    have hlook : ∀ x < 2 ^ 32 - 1,
        treeLook v s inode.raw x = lookTable (2 ^ 32 - 1) x (leafTable v s (headed inode.raw)) := by
      intro x hx
      rw [← treeLook_headed, treeLook_eq_table (headed_magic _) hadd.shallow hx]
    have hlook' : ∀ x < 2 ^ 32 - 1,
        treeLook v s' inode'.raw x = lookTable (2 ^ 32 - 1) x (leafTable v s' inode'.raw) :=
      fun x hx => treeLook_eq_table hinserts.magic hinserts.shallow hx
    obtain ⟨hadds, hcan⟩ : _ ∧ CanTake _ (lastCap v s' inode'.raw) new :=
      hadd.can.grow hgrows hlt ((hlook lb (by omega)).symm.trans hnone) hsorted
        fun h => hput (hfull h)
    refine Prog.ends_ok.mpr ⟨O', hstep, hop', fun q x hq => ?_, fun x hx hne => ?_, ?_, ?_, ?_⟩
    · obtain ⟨-, -, hrole, hmark⟩ := hgood.used q _ hq
      exact hdata q hrole hmark (hdataLeaf q x hq)
    · rw [hlook x hx, hlook' x hx, hadds.others x hx hne]
    · rw [hlook' lb (by omega)]
      exact hadds.self
    · rw [← headed_of_magic hinserts.magic] at hcan
      refine ⟨?_, ?_, ?_, hcan⟩
      · rw [headed_of_magic hinserts.magic]
        exact hinserts.shallow
      · rw [headed_of_magic hinserts.magic]
        exact hgrows.ne_nil
      · rw [headed_of_magic hinserts.magic]
        exact hinserts.nodup
    · have hsame := hinserts.same
      unfold withHeader at hsame
      split at hsame
      · exact hsame
      · exact hsame
  | error e =>
    refine Prog.ends_error.mpr ?_
    cases hends with
    | noRoom h => exact Or.inr rfl
    | rootFull htree hlast hsplit => exact Or.inr rfl
    | skips he hstuck =>
      refine Or.inl ⟨he, ?_⟩
      rcases hstuck with hover | hsmall | ⟨hdepth, hkids⟩
      · rw [lastRecs_eq, withHeader_raw] at hover
        exact absurd hover (hadd.can.not_overlong hlt)
      · exact hsmall
      · refine absurd ?_ hadd.filled
        rw [← withHeader_raw, leafTable, if_neg (Nat.ne_of_gt hdepth), hkids]
        rfl

end Insert

section Congr

variable (hc : Covers v s O i raw)
  (hnodes : ∀ n, O n = some (.node i) → block v s' n = block v s n)
include hc hnodes

/-- The leaves of a file are a matter of its nodes. -/
theorem leafTable_same (hshallow : rootDepth (headed raw) ≤ 1) :
    leafTable v s' (headed raw) = leafTable v s (headed raw) ∧
      lastCap v s' (headed raw) = lastCap v s (headed raw) := by
  by_cases hflat : rootDepth (headed raw) = 0
  · rw [leafTable, leafTable, lastCap, lastCap]
    simp only [if_pos hflat, and_self]
  · have hblocks : ∀ n ∈ (kidsOf (headed raw) iblock).map Prod.snd, block v s' n = block v s n := by
      intro n hn
      refine hnodes n (hc.nodes n (leafNodes_headed hshallow ?_))
      rw [leafNodes, if_neg hflat]
      exact hn
    rw [leafTable, leafTable, lastCap, lastCap]
    simp only [if_neg hflat]
    refine ⟨leaves_congr hblocks, ?_⟩
    cases hlast : (kidsOf (headed raw) iblock).getLast? with
    | none => rfl
    | some x =>
      dsimp only
      rw [hblocks x.2 (List.mem_map_of_mem (List.mem_of_getLast? hlast))]

theorem Addable.congr (h : Addable v s raw new) : Addable v s' raw new := by
  obtain ⟨htable, hcap⟩ := leafTable_same hc hnodes h.shallow
  refine ⟨h.shallow, ?_, h.apart, ?_⟩
  · rw [htable]
    exact h.filled
  · rw [htable, hcap]
    exact h.can

end Congr

end Pinx.Analysis
