import Pinx.Analysis.Ext4Calls
import Pinx.Foundation.Walk

/-!
# Walks down any extent tree

`map_block` takes the depth of each node from the node itself, so on an arbitrary device its
loop follows index records from block to block for as long as they lead on.  The walk ends
exactly if the records lead to no block a second time, and the range test of the leaf it ends
in overflows exactly if the first record found there reaches the end of the 32-bit numbers.
-/

namespace Pinx.Analysis

open Pinx.Foundation Pinx.Model

variable {v : Ext4} {s : FsState} {inode : Inode} {lb fuel n i : ℕ} {node : Node} {h : Header}
  {p : Option ℕ}

/-! ## Records -/

/-- The first written record of a leaf that holds a logical block. -/
def holding (node : Node) (lb n i : ℕ) : Option Extent :=
  ((List.range' i n).filterMap (rdExtent node.bytes node.len node.base)).find?
    fun e => decide (e.lb ≤ lb ∧ lb < e.lb + e.len)

/-- What the scan of a leaf gives. -/
theorem scanLeaf_holding (hlb : lb < 2 ^ 32) : scanLeaf node lb n i =
    match holding node lb n i with
    | none => .ok none
    | some e => if 2 ^ 32 ≤ e.lb + e.len then .error (.fault .overflow)
      else .ok (some (e.pb + (lb - e.lb))) := by
  induction n generalizing i with
  | zero => rfl
  | succ n ih =>
    rw [scanLeaf]
    unfold holding
    rw [List.range'_succ, List.filterMap_cons]
    cases hrec : rdExtent node.bytes node.len node.base i with
    | none => exact ih
    | some e =>
      dsimp only
      rw [List.find?_cons]
      by_cases hle : e.lb ≤ lb
      · rw [if_pos hle]
        by_cases hover : 2 ^ 32 ≤ e.lb + e.len
        · rw [if_pos hover, decide_eq_true ⟨hle, by omega⟩]
          exact (if_pos hover).symm
        rw [if_neg hover]
        by_cases hlt : lb < e.lb + e.len
        · rw [if_pos hlt, decide_eq_true ⟨hle, hlt⟩]
          exact (if_neg hover).symm
        · rw [if_neg hlt, decide_eq_false fun hin => hlt hin.2]
          exact ih
      · rw [if_neg hle, decide_eq_false fun hin => hle hin.1]
        exact ih

/-- The child in an index record is a 48-bit number. -/
theorem scanIndex_lt {c : ℕ} (hc : scanIndex node lb n i = some c) : c < 2 ^ 48 := by
  induction n generalizing i with
  | zero => cases hc
  | succ n ih =>
    rw [scanIndex] at hc
    cases hrec : rdIndex node.bytes node.len node.base i with
    | none =>
      rw [hrec] at hc
      exact ih hc
    | some x =>
      rw [hrec] at hc
      rcases ite_eq_iff.mp hc with ⟨-, hc⟩ | ⟨-, hc⟩
      · cases hc
        unfold rdIndex at hrec
        split at hrec
        · cases hrec
        · cases hrec
          have hlow := Bytes.getLE_lt node.bytes (node.base + 12 + 12 * i + 4) 4
          have hhigh := Bytes.getLE_lt node.bytes (node.base + 12 + 12 * i + 8) 2
          show Bytes.getLE node.bytes (node.base + 12 + 12 * i + 8) 2 * 2 ^ 32 +
            Bytes.getLE node.bytes (node.base + 12 + 12 * i + 4) 4 < 2 ^ 48
          omega
      · exact ih hc

/-! ## Places -/

/-- The node the loop of `map_block` holds at the root of the inode, or after it has read a block.
A block number of 0 is taken for the inode again.
SOURCE: ext4.rs:878-885, 929-936 -/
def nodeAt (v : Ext4) (inode : Inode) (s : FsState) : Option ℕ → Option (Node × Header)
  | none => (rdHdr inode.raw maxInodeSize iblock).map fun h => (inode.root, h)
  | some b =>
    if v.sectors < v.fsbLba b + v.bs / 512 then none
    else (rdHdr (block v s b) maxBlockSize 0).map fun h =>
      (if b = 0 then ⟨inode.raw, maxInodeSize, 0⟩ else blockNode (block v s b), h)

/-- The block the index records of a node give for a logical block. -/
def childFor (v : Ext4) (inode : Inode) (s : FsState) (lb : ℕ) (p : Option ℕ) : Option (Option ℕ) :=
  match nodeAt v inode s p with
  | none => none
  | some (node, h) => if h.depth = 0 then none else (scanIndex node lb h.entries 0).map some

theorem childFor_none (hp : nodeAt v inode s p = none) : childFor v inode s lb p = none := by
  rw [childFor, hp]

theorem childFor_leaf (hp : nodeAt v inode s p = some (node, h)) (hdepth : h.depth = 0) :
    childFor v inode s lb p = none := by
  rw [childFor, hp]
  exact if_pos hdepth

theorem childFor_index (hp : nodeAt v inode s p = some (node, h)) (hdepth : h.depth ≠ 0) :
    childFor v inode s lb p = (scanIndex node lb h.entries 0).map some := by
  rw [childFor, hp]
  exact if_neg hdepth

/-- The place behind an index node is a block. -/
theorem childFor_lt {q : Option ℕ} (hq : childFor v inode s lb p = some q) :
    ∃ c < 2 ^ 48, q = some c := by
  unfold childFor at hq
  split at hq
  · cases hq
  · rcases ite_eq_iff.mp hq with ⟨-, hq⟩ | ⟨-, hq⟩
    · cases hq
    · obtain ⟨c, hc, rfl⟩ := Option.map_eq_some_iff.mp hq
      exact ⟨c, scanIndex_lt hc, rfl⟩

/-- The loop of `map_block` with a bound on the nodes it looks at.
SOURCE: ext4.rs:877-938 -/
def mapWalk (v : Ext4) (inode : Inode) (lb fuel : ℕ) : Fs (Option ℕ) :=
  match rdHdr inode.raw maxInodeSize iblock with
  | none => pure none
  | some h => mapLoop v inode lb fuel inode.root h.entries h.depth

/-! ## One turn of the loop -/

section Turn

variable (hbs : v.bs ≤ maxBlockSize) (hp : nodeAt v inode s p = some (node, h))
include hbs hp

/-- A turn at an index node goes on at the child, or returns an answer that is no fault. -/
theorem mapLoop_index (hdepth : h.depth ≠ 0) :
    (∃ q node' h', childFor v inode s lb p = some q ∧ nodeAt v inode s q = some (node', h') ∧
      ∀ fuel, mapLoop v inode lb (fuel + 1) node h.entries h.depth s =
        mapLoop v inode lb fuel node' h'.entries h'.depth s) ∨
    ((∀ q, childFor v inode s lb p = some q → nodeAt v inode s q = none) ∧ ∃ r,
      (∀ f, r ≠ .error (.fault f)) ∧
        ∀ fuel, mapLoop v inode lb (fuel + 1) node h.entries h.depth s = (r, s)) := by
  rw [childFor_index hp hdepth]
  cases hscan : scanIndex node lb h.entries 0 with
  | none =>
    refine Or.inr ⟨by rintro q ⟨⟩, .ok none, by rintro f ⟨⟩, fun fuel => ?_⟩
    rw [mapLoop, if_neg hdepth, hscan]
    rfl
  | some c =>
    have hfits : ¬2 ^ 64 ≤ c * v.bs := by
      have hle := Nat.mul_le_mul (scanIndex_lt hscan).le hbs
      unfold maxBlockSize at hle
      omega
    by_cases hio : v.sectors < v.fsbLba c + v.bs / 512
    · refine Or.inr ⟨?_, .error (.error .io), by rintro f ⟨⟩, fun fuel => ?_⟩
      · intro q hq
        cases hq
        exact if_pos hio
      · rw [mapLoop, if_neg hdepth, hscan]
        refine Prog.bind_error ?_
        rw [readFsb, if_neg hfits, if_pos hio]
        rfl
    have hread : readFsb v c s = (.ok (block v s c), s) := by
      rw [readFsb, if_neg hfits, if_neg hio]
      rfl
    cases hhdr : rdHdr (block v s c) maxBlockSize 0 with
    | none =>
      refine Or.inr ⟨?_, .ok none, by rintro f ⟨⟩, fun fuel => ?_⟩
      · intro q hq
        cases hq
        rw [nodeAt, if_neg hio, hhdr]
        rfl
      · rw [mapLoop, if_neg hdepth, hscan]
        refine (Prog.bind_ok hread).trans ?_
        rw [hhdr]
        rfl
    | some h' =>
      refine Or.inl ⟨some c, _, h', rfl, by rw [nodeAt, if_neg hio, hhdr]; rfl, fun fuel => ?_⟩
      rw [mapLoop, if_neg hdepth, hscan]
      refine (Prog.bind_ok hread).trans ?_
      rw [hhdr]

end Turn

/-! ## The whole loop -/

/-- The places the index records lead to for a logical block, from one place on. -/
def OnPath (v : Ext4) (inode : Inode) (s : FsState) (lb : ℕ) : Option ℕ → Option ℕ → Prop :=
  Relation.ReflTransGen (Leads (childFor v inode s lb))

/-- A leaf the index records lead to has a first record for the block that ends past the 32-bit
numbers. -/
def Overflows (v : Ext4) (inode : Inode) (s : FsState) (lb : ℕ) (p : Option ℕ) : Prop :=
  ∃ q node h e, OnPath v inode s lb p q ∧ nodeAt v inode s q = some (node, h) ∧ h.depth = 0 ∧
    holding node lb h.entries 0 = some e ∧ 2 ^ 32 ≤ e.lb + e.len

theorem overflows_end (hend : childFor v inode s lb p = none) : Overflows v inode s lb p ↔
    ∃ node h e, nodeAt v inode s p = some (node, h) ∧ h.depth = 0 ∧
      holding node lb h.entries 0 = some e ∧ 2 ^ 32 ≤ e.lb + e.len := by
  constructor
  · rintro ⟨q, node, h, e, hpath, hfound⟩
    rcases hpath.cases_head with rfl | ⟨c, hc, -⟩
    · exact ⟨node, h, e, hfound⟩
    · rw [Leads, hend] at hc
      cases hc
  · rintro ⟨node, h, e, hfound⟩
    exact ⟨p, node, h, e, Relation.ReflTransGen.refl, hfound⟩

theorem overflows_step {q : Option ℕ} (hnext : childFor v inode s lb p = some q) :
    Overflows v inode s lb p ↔ Overflows v inode s lb q := by
  constructor
  · rintro ⟨r, node, h, e, hpath, hnode, hdepth, hfound⟩
    rcases hpath.cases_head with rfl | ⟨c, hc, hrest⟩
    · rw [childFor_leaf hnode hdepth] at hnext
      cases hnext
    · rw [Leads, hnext] at hc
      cases hc
      exact ⟨r, node, h, e, hrest, hnode, hdepth, hfound⟩
  · rintro ⟨r, node, h, e, hpath, hfound⟩
    exact ⟨r, node, h, e, hpath.head hnext, hfound⟩

section Loop

variable (hbs : v.bs ≤ maxBlockSize) (hlb : lb < 2 ^ 32)
include hbs

include hlb in
/-- A walk that ends gives an answer, which is a fault only if the leaf overflows. -/
theorem mapLoop_ends (hp : nodeAt v inode s p = some (node, h))
    (hend : stepsFrom (childFor v inode s lb) n p = none) :
    ∃ r, (∀ more, mapLoop v inode lb (n + more) node h.entries h.depth s = (r, s)) ∧
      ((∃ f, r = .error (.fault f)) ↔ Overflows v inode s lb p) := by
  induction n generalizing p node h with
  | zero => cases hend
  | succ n ih =>
    by_cases hdepth : h.depth = 0
    · refine ⟨scanLeaf node lb h.entries 0, fun more => ?_, ?_⟩
      · rw [Nat.add_right_comm, mapLoop, if_pos hdepth]
        rfl
      · rw [overflows_end (childFor_leaf hp hdepth), scanLeaf_holding hlb]
        constructor
        · rintro ⟨f, hf⟩
          cases hhold : holding node lb h.entries 0 with
          | none =>
            rw [hhold] at hf
            cases hf
          | some e =>
            rw [hhold] at hf
            rcases ite_eq_iff.mp hf with ⟨hover, -⟩ | ⟨-, hf⟩
            · exact ⟨node, h, e, hp, hdepth, hhold, hover⟩
            · cases hf
        · rintro ⟨node', h', e, hp', -, hhold, hover⟩
          rw [hp] at hp'
          cases hp'
          rw [hhold]
          exact ⟨_, if_pos hover⟩
    rcases mapLoop_index hbs hp hdepth with ⟨q, node', h', hnext, hq, hturn⟩ | ⟨hstop, r, hr, hturn⟩
    · rw [stepsFrom, hnext, Option.bind_some] at hend
      obtain ⟨r, hrest, hfault⟩ := ih hq hend
      refine ⟨r, fun more => ?_, hfault.trans (overflows_step hnext).symm⟩
      rw [Nat.add_right_comm, hturn, hrest]
    · refine ⟨r, fun more => ?_, ⟨fun hfault => absurd hfault (not_exists.mpr hr), ?_⟩⟩
      · rw [Nat.add_right_comm, hturn]
      · intro hover
        cases hnext : childFor v inode s lb p with
        | none =>
          obtain ⟨node', h', e, hp', hdepth', -⟩ := (overflows_end hnext).mp hover
          rw [hp] at hp'
          cases hp'
          exact absurd hdepth' hdepth
        | some q =>
          have hq := hstop q hnext
          obtain ⟨node', h', e, hq', -⟩ :=
            (overflows_end (childFor_none hq)).mp ((overflows_step hnext).mp hover)
          rw [hq] at hq'
          cases hq'

/-- A walk that does not end uses up any number of turns. -/
theorem mapLoop_never (hp : nodeAt v inode s p = some (node, h))
    (hnever : ∀ n, stepsFrom (childFor v inode s lb) n p ≠ none) (fuel : ℕ) :
    mapLoop v inode lb fuel node h.entries h.depth s = (.error (.fault .outOfFuel), s) := by
  induction fuel generalizing p node h with
  | zero => rfl
  | succ fuel ih =>
    by_cases hdepth : h.depth = 0
    · refine absurd ?_ (hnever 1)
      rw [stepsFrom, childFor_leaf hp hdepth, Option.bind_none]
    rcases mapLoop_index hbs hp hdepth with ⟨q, node', h', hnext, hq, hturn⟩ | ⟨hstop, -⟩
    · rw [hturn]
      refine ih hq fun n hn => hnever (n + 1) ?_
      rw [stepsFrom, hnext, Option.bind_some, hn]
    · cases hnext : childFor v inode s lb p with
      | none =>
        refine absurd ?_ (hnever 1)
        rw [stepsFrom, hnext, Option.bind_none]
      | some q =>
        refine absurd ?_ (hnever 2)
        rw [stepsFrom, hnext, Option.bind_some, stepsFrom, childFor_none (hstop q hnext), Option.bind_none]

end Loop

/-- A lookup that comes to a result, an answer or an error, after finitely many turns. -/
def LookupEnds (v : Ext4) (inode : Inode) (lb : ℕ) (s : FsState) : Prop :=
  ∃ fuel r, (∀ more, mapWalk v inode lb (fuel + more) s = (r, s)) ∧ ∀ f, r ≠ .error (.fault f)

theorem not_lookupEnds_of_never (hbs : v.bs ≤ maxBlockSize)
    (hp : nodeAt v inode s none = some (node, h))
    (hnever : ∀ n, stepsFrom (childFor v inode s lb) n none ≠ none) : ¬LookupEnds v inode lb s := by
  rintro ⟨fuel, r, hr, hfault⟩
  obtain ⟨h', hhdr, heq⟩ := Option.map_eq_some_iff.mp hp
  cases heq
  have hrun := hr 0
  rw [mapWalk, hhdr] at hrun
  have hturns := (mapLoop_never hbs hp hnever _).symm.trans hrun
  cases hturns
  exact hfault _ rfl

/-- For which devices and inodes a lookup comes to a result without an overflow. -/
theorem lookup_ends_iff (hbs : v.bs ≤ maxBlockSize) (hlb : lb < 2 ^ 32) :
    LookupEnds v inode lb s ↔
      (∀ p, OnPath v inode s lb none p → ¬Relation.TransGen (Leads (childFor v inode s lb)) p p) ∧
        ∀ p node h e, OnPath v inode s lb none p → nodeAt v inode s p = some (node, h) →
          h.depth = 0 → holding node lb h.entries 0 = some e → e.lb + e.len < 2 ^ 32 := by
  -- all places are the root or one of finitely many blocks
  have hfinite : (insert none (some '' {b | b < 2 ^ 48}) : Set (Option ℕ)).Finite :=
    ((Set.finite_lt_nat _).image _).insert _
  have hplaces : ∀ n p, stepsFrom (childFor v inode s lb) n none = some p →
      p ∈ (insert none (some '' {b | b < 2 ^ 48}) : Set (Option ℕ)) := by
    intro n p hp
    cases n with
    | zero => exact Or.inl (Option.some.inj hp).symm
    | succ n =>
      rw [stepsFrom_succ, Option.bind_eq_some_iff] at hp
      obtain ⟨q, -, hq⟩ := hp
      obtain ⟨c, hc, rfl⟩ := childFor_lt hq
      exact Or.inr ⟨c, hc, rfl⟩
  have hfits : (∀ p node h e, OnPath v inode s lb none p → nodeAt v inode s p = some (node, h) →
      h.depth = 0 → holding node lb h.entries 0 = some e → e.lb + e.len < 2 ^ 32) ↔
        ¬Overflows v inode s lb none := by
    constructor
    · rintro hall ⟨p, node, h, e, hpath, hnode, hdepth, hhold, hover⟩
      exact absurd (hall p node h e hpath hnode hdepth hhold) (Nat.not_lt.mpr hover)
    · intro hno p node h e hpath hnode hdepth hhold
      by_contra hover
      exact hno ⟨p, node, h, e, hpath, hnode, hdepth, hhold, Nat.not_lt.mp hover⟩
  rw [hfits]
  unfold OnPath
  rw [← stepsFrom_ends_iff hfinite hplaces]
  cases hhdr : rdHdr inode.raw maxInodeSize iblock with
  | none =>
    have hnode : nodeAt v inode s none = none := by
      rw [nodeAt, hhdr]
      rfl
    refine ⟨fun _ => ⟨⟨1, ?_⟩, ?_⟩, fun _ => ⟨0, .ok none, fun more => ?_, fun f hf => nomatch hf⟩⟩
    · rw [stepsFrom, childFor_none hnode, Option.bind_none]
    · rw [overflows_end (childFor_none hnode)]
      rintro ⟨node, h, e, hsome, -⟩
      rw [hnode] at hsome
      cases hsome
    · rw [mapWalk, hhdr]
      rfl
  | some h =>
    have hnode : nodeAt v inode s none = some (inode.root, h) := by
      rw [nodeAt, hhdr]
      rfl
    constructor
    · intro hends
      have hwalk : ∃ n, stepsFrom (childFor v inode s lb) n none = none := by
        by_contra hnever
        exact not_lookupEnds_of_never hbs hnode (fun n hn => hnever ⟨n, hn⟩) hends
      refine ⟨hwalk, fun hover => ?_⟩
      obtain ⟨n, hn⟩ := hwalk
      obtain ⟨fuel, r, hr, hfault⟩ := hends
      obtain ⟨r', hr', hiff⟩ := mapLoop_ends hbs hlb hnode hn
      obtain ⟨f, rfl⟩ := hiff.mpr hover
      have hrun := hr n
      rw [mapWalk, hhdr, Nat.add_comm] at hrun
      have heq := (hr' fuel).symm.trans hrun
      cases heq
      exact hfault f rfl
    · rintro ⟨⟨n, hn⟩, hno⟩
      obtain ⟨r, hr, hiff⟩ := mapLoop_ends hbs hlb hnode hn
      refine ⟨n, r, fun more => ?_, fun f hf => hno (hiff.mp ⟨f, hf⟩)⟩
      rw [mapWalk, hhdr]
      exact hr more

/-- Block 5 is an index node with itself as its child, block 6 a leaf with a record of one block. -/
def ringState : FsState where
  disk
    | 5 => wrIndex (wrHdr (fun _ => 0) 0 1 84 1) 0 0 0 5
    | 6 => wrExtent (wrHdr (fun _ => 0) 0 1 84 0) 0 0 ⟨0, 1, 4⟩
    | _ => fun _ => 0
  freeBlocks := 0
  freeInodes := 0

/-- An inode whose root leads to a block, and one with a record of one block. -/
def indexInode (child : ℕ) : Inode :=
  ⟨2, 0x8000, 0, 0, 0, wrIndex (wrHdr (fun _ => 0) iblock 1 4 1) iblock 0 0 child⟩
def oneBlockInode (lb : ℕ) : Inode :=
  ⟨2, 0x8000, 0, 0, 0, wrExtent (wrHdr (fun _ => 0) iblock 1 4 0) iblock 0 ⟨lb, 1, 4⟩⟩

/-- A lookup that follows one index record to a leaf. -/
theorem lookup_ends_oneLeaf : LookupEnds tinyVolume (indexInode 6) 0 ringState := by
  have hroot : childFor tinyVolume (indexInode 6) ringState 0 none = some (some 6) := by decide
  have hleaf : childFor tinyVolume (indexInode 6) ringState 0 (some 6) = none := by decide
  have hplaces : ∀ p, OnPath tinyVolume (indexInode 6) ringState 0 none p → p = none ∨ p = some 6 := by
    intro p hp
    induction hp with
    | refl => exact Or.inl rfl
    | tail _ hstep ih =>
      rcases ih with rfl | rfl
      · rw [Leads, hroot] at hstep
        exact Or.inr (Option.some.inj hstep).symm
      · rw [Leads, hleaf] at hstep
        cases hstep
  refine (lookup_ends_iff (by decide) (by omega)).mpr
    ⟨fun p hp hround => ?_, fun p node h e hp hnode hdepth hhold => ?_⟩
  · obtain ⟨c, hc, hback⟩ := Relation.TransGen.head'_iff.mp hround
    rcases hplaces p hp with rfl | rfl
    · rw [Leads, hroot] at hc
      cases hc
      rcases hback.cases_head with heq | ⟨d, hd, -⟩
      · cases heq
      · rw [Leads, hleaf] at hd
        cases hd
    · rw [Leads, hleaf] at hc
      cases hc
  · rcases hplaces p hp with rfl | rfl
    · have hnode' : nodeAt tinyVolume (indexInode 6) ringState none =
          some ((indexInode 6).root, ⟨1, 4, 1⟩) := rfl
      rw [hnode'] at hnode
      cases hnode
      cases hdepth
    · have hnode' : nodeAt tinyVolume (indexInode 6) ringState (some 6) =
          some (blockNode (block tinyVolume ringState 6), ⟨1, 84, 0⟩) := rfl
      rw [hnode'] at hnode
      cases hnode
      have hrec : holding (blockNode (block tinyVolume ringState 6)) 0 1 0 = some ⟨0, 1, 4⟩ := by decide
      rw [hrec] at hhold
      cases hhold
      decide

theorem ring_never_ends : ¬LookupEnds tinyVolume (indexInode 5) 0 ringState ∧
    ¬LookupEnds tinyVolume (oneBlockInode (2 ^ 32 - 1)) (2 ^ 32 - 1) ringState := by
  constructor
  · have hround : stepsFrom (childFor tinyVolume (indexInode 5) ringState 0) 1 (some 5) = some (some 5) := by
      decide
    have hinto : childFor tinyVolume (indexInode 5) ringState 0 none = some (some 5) := by decide
    refine not_lookupEnds_of_never (h := ⟨1, 4, 1⟩) (by decide) rfl fun n => ?_
    cases n with
    | zero => exact Option.some_ne_none _
    | succ n =>
      rw [stepsFrom, hinto, Option.bind_some, ← Nat.mul_one n, stepsFrom_round hround]
      exact Option.some_ne_none _
  · rintro ⟨fuel, r, hr, hfault⟩
    refine hfault .overflow ?_
    have hturn : mapWalk tinyVolume (oneBlockInode (2 ^ 32 - 1)) (2 ^ 32 - 1) (fuel + 1) ringState =
        (.error (.fault .overflow), ringState) := rfl
    rw [hr 1] at hturn
    exact congrArg Prod.fst hturn

end Pinx.Analysis
