import Pinx.Analysis.DirScans

/-!
# Where directory scans and new entries end

The loops over the records of a directory block check that the 8 bytes of a record's header are
inside the block, and nothing about its name or its length.  They always end, since each turn
goes on by at least one byte.  Names are read and entries are written inside the block exactly
for the blocks described by `RecordsInside`.
-/

namespace Pinx.Analysis

open Pinx.Foundation Pinx.Model

variable {v : Ext4} {blk blk' : Bytes} {name : List UInt8} {pos fuel needed p q : ℕ} {ps xs ys : List ℕ}

/-! ## The records a scan meets -/

/-- A scan is over after as many turns as there are bytes. -/
theorem length_visited_le (v : Ext4) (blk : Bytes) (fuel pos : ℕ) :
    (visited v blk fuel pos).length ≤ v.dirLimit - 7 - pos := by
  induction fuel generalizing pos with
  | zero => exact Nat.zero_le _
  | succ fuel ih =>
    rcases visited_cases v blk fuel pos with ⟨-, hnil⟩ | ⟨hroom, hrec, hcons⟩
    · rw [hnil]
      exact Nat.zero_le _
    · have := ih (pos + blk.getLE (pos + 4) 2)
      rw [hcons, List.length_cons]
      omega

/-- More turns than that change nothing. -/
theorem visited_fuel {k : ℕ} (h : v.dirLimit - 7 - pos ≤ fuel) :
    visited v blk (fuel + k) pos = visited v blk fuel pos := by
  induction fuel generalizing pos with
  | zero =>
    cases k with
    | zero => rfl
    | succ k =>
      rw [Nat.zero_add]
      exact if_pos (Or.inl (by omega))
  | succ fuel ih =>
    rw [Nat.add_right_comm]
    rcases visited_cases v blk fuel pos with ⟨hend, hnil⟩ | ⟨hroom, hrec, hcons⟩
    · rw [hnil, visited, if_pos hend]
    · rw [hcons, visited, if_neg (by omega), ih (by omega)]

/-- The turns of a scan depend on the bytes below the limit. -/
theorem visited_congr (h : ∀ k < v.dirLimit, blk' k = blk k) :
    visited v blk' fuel pos = visited v blk fuel pos := by
  induction fuel generalizing pos with
  | zero => rfl
  | succ fuel ih =>
    rw [visited, visited]
    by_cases hlim : v.dirLimit < pos + 8
    · rw [if_pos (Or.inl hlim), if_pos (Or.inl hlim)]
    · have hrec : blk'.getLE (pos + 4) 2 = blk.getLE (pos + 4) 2 :=
        Bytes.getLE_congr fun j hj => h _ (by omega)
      rw [hrec, ih]

theorem mem_visited (h : p ∈ visited v blk fuel pos) : p + 8 ≤ v.dirLimit := by
  induction fuel generalizing pos with
  | zero => cases h
  | succ fuel ih =>
    rcases visited_cases v blk fuel pos with ⟨-, hnil⟩ | ⟨hroom, -, hcons⟩
    · rw [hnil] at h
      cases h
    · rw [hcons] at h
      rcases List.mem_cons.mp h with rfl | h
      · exact hroom
      · exact ih h

/-- A record that another one follows ends where that one starts. -/
theorem visited_next (h : visited v blk fuel pos = xs ++ p :: q :: ys) :
    p + blk.getLE (p + 4) 2 = q := by
  induction fuel generalizing pos xs with
  | zero => simp [visited] at h
  | succ fuel ih =>
    rcases visited_cases v blk fuel pos with ⟨-, hnil⟩ | ⟨-, -, hcons⟩
    · rw [hnil] at h
      simp at h
    · rw [hcons] at h
      cases xs with
      | cons x xs => exact ih (List.cons.inj h).2
      | nil =>
        obtain ⟨rfl, hrest⟩ := List.cons.inj h
        cases fuel with
        | zero => simp [visited] at hrest
        | succ fuel =>
          rcases visited_cases v blk fuel (pos + blk.getLE (pos + 4) 2) with ⟨-, hnil⟩ | ⟨-, -, hcons⟩
          · rw [hnil] at hrest
            cases hrest
          · rw [hcons] at hrest
            exact (List.cons.inj hrest).1

/-! ## Room for an entry -/

/-- The bytes of a record that are taken. -/
def takenLen (blk : Bytes) (p : ℕ) : ℕ :=
  if blk.getLE p 4 = 0 then 0 else roundDirSize (blk.getLE (p + 6) 1)

/-- What `add_dirent` has seen last after the records at `ps`. -/
def lastSeen (blk : Bytes) : List ℕ → ℕ × ℕ × ℕ → ℕ × ℕ × ℕ
  | [], seen => seen
  | p :: ps, _ => lastSeen blk ps (p, blk.getLE (p + 4) 2, takenLen blk p)

theorem lastSeen_concat (seen : ℕ × ℕ × ℕ) :
    lastSeen blk (ps ++ [q]) seen = (q, blk.getLE (q + 4) 2, takenLen blk q) := by
  induction ps generalizing seen with
  | nil => rfl
  | cons p ps ih => exact ih _

/-- The slot behind the record seen last, if there is room. -/
def slotBehind (needed : ℕ) (seen : ℕ × ℕ × ℕ) : Option DirSlot :=
  if seen.2.2 + needed ≤ seen.2.1 then some (.behind seen.1 seen.2.2 (seen.2.1 - seen.2.2)) else none

/-- The slot `add_dirent` takes: the first unused record that is long enough, or the end of the
last record. -/
theorem findSlot_eq (hfuel : v.dirLimit - 7 - pos < fuel) (seen : ℕ × ℕ × ℕ) :
    findSlot v blk needed fuel pos seen.1 seen.2.1 seen.2.2 =
      match (visited v blk fuel pos).find? fun p => blk.getLE p 4 = 0 ∧ needed ≤ blk.getLE (p + 4) 2 with
      | some p => some (.unused p (blk.getLE (p + 4) 2))
      | none => slotBehind needed (lastSeen blk (visited v blk fuel pos) seen) := by
  induction fuel generalizing pos seen with
  | zero => omega
  | succ fuel ih =>
    rw [findSlot]
    dsimp only
    rcases visited_cases v blk fuel pos with ⟨hend, hnil⟩ | ⟨hroom, hrec, hcons⟩
    · rw [if_pos hend, hnil]
      rfl
    · rw [if_neg (by omega), hcons, List.find?_cons]
      by_cases htake : blk.getLE pos 4 = 0 ∧ needed ≤ blk.getLE (pos + 4) 2
      · rw [if_pos htake, decide_eq_true htake]
      · rw [if_neg htake, decide_eq_false htake]
        exact ih (by omega) (pos, blk.getLE (pos + 4) 2, takenLen blk pos)

/-- Where a new entry's record ends. -/
def slotStop : DirSlot → ℕ
  | .unused pos reclen => pos + reclen
  | .behind lastPos lastActual slack => lastPos + lastActual + slack

/-! ## The loops of `read_dir`, `lookup` and `add_dirent` -/

/-- Two buffers have the same bytes below the limit. -/
def SameBelow (v : Ext4) (blk blk' : Bytes) : Prop := ∀ k < v.dirLimit, blk' k = blk k

/-- The record a loop is at after `k` turns. -/
def recordPos (blk : Bytes) (k : ℕ) : ℕ := (fun pos => pos + blk.getLE (pos + 4) 2)^[k] 0

/-- What the loops are to do on a block: they end, `read_dir` and `lookup` return and use no
byte from the limit on, and an entry that `add_dirent` puts into the block ends at the limit
or before. -/
structure ScansInside (v : Ext4) (blk : Bytes) : Prop where
  ends : ∃ k ≤ maxBlockSize, v.dirLimit < recordPos blk k + 8 ∨
    blk.getLE (recordPos blk k + 4) 2 = 0
  list : ∀ cap, ∃ r, ∀ fuel ≥ maxBlockSize, ∀ blk', SameBelow v blk blk' →
    listBlk v blk' cap fuel 0 [] 0 = .ok r
  lookup : ∀ name, ∃ r, ∀ fuel ≥ maxBlockSize, ∀ blk', SameBelow v blk blk' →
    lookupBlk v blk' name fuel 0 = .ok r
  add : ∀ name target ft slot, name ≠ [] → name.length ≤ 255 → ∀ fuel > maxBlockSize,
    findSlot v blk (roundDirSize name.length) fuel 0 0 0 0 = some slot →
      slotStop slot ≤ v.dirLimit ∧ ∀ s, ∃ b, fillSlot blk slot target ft name s = (.ok b, s) ∧
        ∀ k, v.dirLimit ≤ k → b k = blk k

/-- The names of the entries in use end at the limit or before, and so does the last record
unless no name finds its room there. -/
structure RecordsInside (v : Ext4) (blk : Bytes) : Prop where
  names : NamesEnd blk v.dirLimit (visited v blk maxBlockSize 0)
  last : ∀ ps q, visited v blk maxBlockSize 0 = ps ++ [q] → ∀ n, 1 ≤ n → n ≤ 255 →
    (∀ p ∈ ps, blk.getLE p 4 = 0 → blk.getLE (p + 4) 2 < roundDirSize n) →
    takenLen blk q + roundDirSize n ≤ blk.getLE (q + 4) 2 →
    q + blk.getLE (q + 4) 2 ≤ v.dirLimit

section Bounds

variable (hlimit : v.dirLimit ≤ maxBlockSize)
include hlimit

theorem visited_all (h : maxBlockSize ≤ fuel) :
    visited v blk fuel 0 = visited v blk maxBlockSize 0 := by
  obtain ⟨k, rfl⟩ := Nat.exists_eq_add_of_le h
  exact visited_fuel (by omega)

/-- Every loop over the records ends. -/
theorem records_end (blk : Bytes) : ∃ k ≤ maxBlockSize, v.dirLimit < recordPos blk k + 8 ∨
    blk.getLE (recordPos blk k + 4) 2 = 0 := by
  by_contra hnone
  push Not at hnone
  -- each turn goes on by a byte at least
  have hpos : ∀ k ≤ maxBlockSize, k ≤ recordPos blk k := by
    intro k hk
    induction k with
    | zero => exact Nat.zero_le _
    | succ k ih =>
      have hrec := (hnone k (by omega)).2
      have hle := ih (by omega)
      rw [recordPos, Function.iterate_succ_apply']
      change k + 1 ≤ recordPos blk k + blk.getLE (recordPos blk k + 4) 2
      omega
  have hlast := (hnone maxBlockSize le_rfl).1
  have := hpos maxBlockSize le_rfl
  omega

end Bounds

/-- The header of a record that a scan meets is below the limit. -/
theorem SameBelow.header (h : SameBelow v blk blk') (hp : p + 8 ≤ v.dirLimit) :
    blk'.getLE p 4 = blk.getLE p 4 ∧ blk'.getLE (p + 6) 1 = blk.getLE (p + 6) 1 ∧
      blk'.getLE (p + 7) 1 = blk.getLE (p + 7) 1 :=
  ⟨Bytes.getLE_congr fun j hj => h _ (by omega), Bytes.getLE_congr fun j hj => h _ (by omega),
    Bytes.getLE_congr fun j hj => h _ (by omega)⟩

/-- What is read below the limit does not depend on the rest. -/
theorem SameBelow.entries (h : SameBelow v blk blk') (hps : ∀ p ∈ ps, p + 8 ≤ v.dirLimit)
    (hnames : NamesEnd blk v.dirLimit ps) :
    NamesEnd blk' v.dirLimit ps ∧ entriesAt blk' ps = entriesAt blk ps := by
  constructor
  · intro p hp hlive
    obtain ⟨hino, hlen, -⟩ := h.header (hps p hp)
    rw [hino] at hlive
    rw [hlen]
    exact hnames p hp hlive
  · induction ps with
    | nil => rfl
    | cons p ps ih =>
      have hrest := ih (fun p hp => hps p (List.mem_cons_of_mem _ hp))
        fun p hp => hnames p (List.mem_cons_of_mem _ hp)
      obtain ⟨hino, hlen, hft⟩ := h.header (hps p List.mem_cons_self)
      by_cases hdead : blk.getLE p 4 = 0
      · rw [entriesAt_dead hdead, entriesAt_dead (hino.trans hdead), hrest]
      · have hname := hnames p List.mem_cons_self hdead
        rw [entriesAt_live hdead, entriesAt_live (by rwa [hino]), hrest]
        congr 1
        unfold scannedAt
        rw [hino, hft, hlen, Bytes.slice_congr fun j hj => h (p + 8 + j) (by omega)]

theorem length_entriesAt_le (blk : Bytes) (ps : List ℕ) : (entriesAt blk ps).length ≤ ps.length := by
  unfold entriesAt
  rw [List.length_map]
  exact List.length_filter_le _ _

/-- Another last byte of a name is another entry. -/
theorem entriesAt_ne (hp : p ∈ ps) (hlive : blk.getLE p 4 ≠ 0) (hpos : 0 < blk.getLE (p + 6) 1)
    (hino : ∀ x ∈ ps, Bytes.getLE blk' x 4 = blk.getLE x 4)
    (hlen : Bytes.getLE blk' (p + 6) 1 = blk.getLE (p + 6) 1)
    (hother : blk' (p + 8 + (blk.getLE (p + 6) 1 - 1)) ≠ blk (p + 8 + (blk.getLE (p + 6) 1 - 1))) :
    entriesAt blk' ps ≠ entriesAt blk ps := by
  have hfilter : (ps.filter fun x => Bytes.getLE blk' x 4 ≠ 0) = ps.filter fun x => blk.getLE x 4 ≠ 0 :=
    List.filter_congr fun x hx => by rw [hino x hx]
  unfold entriesAt
  rw [hfilter]
  intro heq
  have hentry := List.map_inj_left.mp heq p (List.mem_filter.mpr ⟨hp, by simpa using hlive⟩)
  have hname := congrArg DirEnt.name hentry
  change blk'.slice (p + 8) (Bytes.getLE blk' (p + 6) 1) = blk.slice (p + 8) (blk.getLE (p + 6) 1) at hname
  rw [hlen] at hname
  exact hother (List.map_inj_left.mp hname _ (List.mem_range.mpr (by omega)))

section Bounds

variable (hlimit : v.dirLimit ≤ maxBlockSize)
include hlimit

/-- Names below the limit: `read_dir` and `lookup` stay there. -/
theorem scans_of_namesEnd (h : NamesEnd blk v.dirLimit (visited v blk maxBlockSize 0))
    (hsame : SameBelow v blk blk') (hfuel : maxBlockSize ≤ fuel) :
    (∀ cap, listBlk v blk' cap fuel 0 [] 0 =
      .ok ((entriesAt blk (visited v blk maxBlockSize 0)).take cap,
        (entriesAt blk (visited v blk maxBlockSize 0)).length)) ∧
    ∀ name, lookupBlk v blk' name fuel 0 =
      .ok (binding name (entriesAt blk (visited v blk maxBlockSize 0))) := by
  have hvisited : visited v blk' fuel 0 = visited v blk maxBlockSize 0 := by
    rw [visited_congr hsame, visited_all hlimit hfuel]
  obtain ⟨hnames, hentries⟩ := hsame.entries (fun p hp => mem_visited hp) h
  have hnames' : NamesEnd blk' maxBlockSize (visited v blk' fuel 0) := by
    rw [hvisited]
    exact fun p hp hlive => (hnames p hp hlive).trans hlimit
  constructor
  · intro cap
    rw [listBlk_eq hnames', hvisited, hentries, List.nil_append, Nat.zero_add, Nat.sub_zero]
  · intro name
    rw [lookupBlk_eq hnames', hvisited, hentries]

/-- A name that runs past the limit is read by a listing with room for it. -/
theorem namesEnd_of_list (h : ∀ cap, ∃ r, ∀ fuel ≥ maxBlockSize, ∀ blk', SameBelow v blk blk' →
      listBlk v blk' cap fuel 0 [] 0 = .ok r) :
    NamesEnd blk v.dirLimit (visited v blk maxBlockSize 0) := by
  -- room for as many entries as there are records
  obtain ⟨⟨out, n⟩, hr⟩ := h maxBlockSize
  have hlen := length_visited_le v blk maxBlockSize 0
  have hlist := hr maxBlockSize le_rfl blk fun _ _ => rfl
  obtain ⟨-, hmost, hbuf⟩ := namesEnd_of_listBlk hlist
  have hbuf := hbuf (by omega)
  have hcount : (entriesAt blk (visited v blk maxBlockSize 0)).length ≤ maxBlockSize :=
    (length_entriesAt_le _ _).trans (by omega)
  intro p hp hlive
  by_contra hpast
  have hhead := mem_visited hp
  -- the last byte of the name is past the limit: another byte there is another name
  obtain ⟨blk', hsame, hother⟩ : ∃ blk' : Bytes, SameBelow v blk blk' ∧
      blk' (p + 8 + (blk.getLE (p + 6) 1 - 1)) ≠ blk (p + 8 + (blk.getLE (p + 6) 1 - 1)) := by
    obtain ⟨c, hc⟩ : ∃ c, c ≠ blk (p + 8 + (blk.getLE (p + 6) 1 - 1)) := by
      by_cases hzero : blk (p + 8 + (blk.getLE (p + 6) 1 - 1)) = 0
      · exact ⟨1, by rw [hzero]; decide⟩
      · exact ⟨0, Ne.symm hzero⟩
    refine ⟨Function.update blk (p + 8 + (blk.getLE (p + 6) 1 - 1)) c, fun k hk => ?_, ?_⟩
    · exact Function.update_of_ne (by omega) _ _
    · rwa [Function.update_self]
  have hvisited : visited v blk' maxBlockSize 0 = visited v blk maxBlockSize 0 := visited_congr hsame
  have hheaders : ∀ x ∈ visited v blk maxBlockSize 0, blk'.getLE x 4 = blk.getLE x 4 ∧
      blk'.getLE (x + 6) 1 = blk.getLE (x + 6) 1 ∧ blk'.getLE (x + 7) 1 = blk.getLE (x + 7) 1 :=
    fun x hx => hsame.header (mem_visited hx)
  have hbuf' : NamesEnd blk' maxBlockSize (visited v blk' maxBlockSize 0) := by
    rw [hvisited]
    intro x hx hxlive
    rw [(hheaders x hx).1] at hxlive
    rw [(hheaders x hx).2.1]
    exact hbuf x hx hxlive
  have hlist' := hr maxBlockSize le_rfl blk' hsame
  rw [listBlk_eq hbuf', hvisited] at hlist'
  rw [listBlk_eq hbuf, ← hlist'] at hlist
  refine entriesAt_ne hp hlive (by omega) (fun x hx => (hheaders x hx).1) (hheaders p hp).2.1 hother ?_
  have hcount' : (entriesAt blk' (visited v blk maxBlockSize 0)).length ≤ maxBlockSize :=
    (length_entriesAt_le _ _).trans (by omega)
  obtain ⟨htake, -⟩ := Prod.mk.inj (Except.ok.inj hlist)
  rwa [List.nil_append, List.nil_append, Nat.sub_zero, List.take_of_length_le hcount,
    List.take_of_length_le hcount', eq_comm] at htake

/-- The slot for a name: the first unused record that is long enough, or the end of the last
record if no unused one is. -/
theorem findSlot_cases (hfuel : maxBlockSize < fuel) {slot : DirSlot}
    (h : findSlot v blk needed fuel 0 0 0 0 = some slot) (hneed : 0 < needed) :
    (∃ xs p ys, visited v blk maxBlockSize 0 = xs ++ p :: ys ∧ blk.getLE p 4 = 0 ∧
      needed ≤ blk.getLE (p + 4) 2 ∧ slot = .unused p (blk.getLE (p + 4) 2) ∧
      ∀ x ∈ xs, blk.getLE x 4 = 0 → blk.getLE (x + 4) 2 < needed) ∨
    ∃ ps q, visited v blk maxBlockSize 0 = ps ++ [q] ∧
      takenLen blk q + needed ≤ blk.getLE (q + 4) 2 ∧
      slot = .behind q (takenLen blk q) (blk.getLE (q + 4) 2 - takenLen blk q) ∧
      ∀ x ∈ ps, blk.getLE x 4 = 0 → blk.getLE (x + 4) 2 < needed := by
  have hfind : findSlot v blk needed fuel 0 0 0 0 = _ := findSlot_eq (by omega) (0, 0, 0)
  rw [h, visited_all hlimit hfuel.le] at hfind
  cases hcase : (visited v blk maxBlockSize 0).find? fun p =>
      blk.getLE p 4 = 0 ∧ needed ≤ blk.getLE (p + 4) 2 with
  | some p =>
    rw [hcase] at hfind
    obtain ⟨hp, xs, ys, hsplit, hbefore⟩ := List.find?_eq_some_iff_append.mp hcase
    simp only [decide_eq_true_eq] at hp
    refine Or.inl ⟨xs, p, ys, hsplit, hp.1, hp.2, Option.some.inj hfind, fun x hx hdead => ?_⟩
    have := hbefore x hx
    simp only [Bool.not_eq_eq_eq_not, Bool.not_true, decide_eq_false_iff_not, not_and, not_le] at this
    exact this hdead
  | none =>
    rw [hcase] at hfind
    have hnone := List.find?_eq_none.mp hcase
    rcases List.eq_nil_or_concat' (visited v blk maxBlockSize 0) with hnil | ⟨ps, q, hlast⟩
    · rw [hnil] at hfind
      have hbehind : some slot = slotBehind needed (0, 0, 0) := hfind
      rw [slotBehind, if_neg (by dsimp only; omega)] at hbehind
      cases hbehind
    · rw [hlast] at hfind hnone
      simp only [lastSeen_concat, slotBehind] at hfind
      split at hfind
      · rename_i hroom
        refine Or.inr ⟨ps, q, hlast, hroom, Option.some.inj hfind, fun x hx hdead => ?_⟩
        have := hnone x (List.mem_append_left _ hx)
        simp only [decide_eq_true_eq, not_and, not_le] at this
        exact this hdead
      · cases hfind

/-- A record that takes a name ends at the limit or before. -/
theorem RecordsInside.stop_le (h : RecordsInside v blk) {n : ℕ} (hpos : 1 ≤ n) (hle : n ≤ 255)
    (hfuel : maxBlockSize < fuel) {slot : DirSlot}
    (hfind : findSlot v blk (roundDirSize n) fuel 0 0 0 0 = some slot) :
    slotStop slot ≤ v.dirLimit := by
  have hneed := le_roundDirSize n
  rcases findSlot_cases hlimit hfuel hfind (by omega) with
    ⟨xs, p, ys, hsplit, hdead, hlong, rfl, hbefore⟩ | ⟨ps, q, hsplit, hroom, rfl, hbefore⟩
  · cases ys with
    | nil =>
      refine h.last xs p hsplit n hpos hle hbefore ?_
      rw [takenLen, if_pos hdead, Nat.zero_add]
      exact hlong
    | cons y ys =>
      have hnext := visited_next hsplit
      have hmem : y ∈ visited v blk maxBlockSize 0 := by
        rw [hsplit]
        simp
      have hy := mem_visited hmem
      change p + blk.getLE (p + 4) 2 ≤ _
      omega
  · have hend := h.last ps q hsplit n hpos hle hbefore hroom
    change q + takenLen blk q + (blk.getLE (q + 4) 2 - takenLen blk q) ≤ _
    omega

/-- The entry is then written below the limit. -/
theorem fillSlot_inside (hfuel : maxBlockSize < fuel) {slot : DirSlot}
    (hfind : findSlot v blk (roundDirSize name.length) fuel 0 0 0 0 = some slot)
    (hstop : slotStop slot ≤ v.dirLimit) (target ft : ℕ) (s : FsState) :
    ∃ b, fillSlot blk slot target ft name s = (.ok b, s) ∧ ∀ k, v.dirLimit ≤ k → b k = blk k := by
  have hneed := le_roundDirSize name.length
  rcases findSlot_cases hlimit hfuel hfind (by omega) with
    ⟨xs, p, ys, hsplit, -, hlong, rfl, -⟩ | ⟨ps, q, hsplit, hroom, rfl, -⟩
  · have hend : p + blk.getLE (p + 4) 2 ≤ v.dirLimit := hstop
    refine ⟨_, fillEntry_ok s (by omega), fun k hk => ?_⟩
    exact putEntry_outside (by omega)
  · have hend : q + takenLen blk q + (blk.getLE (q + 4) 2 - takenLen blk q) ≤ v.dirLimit := hstop
    have hmem : q ∈ visited v blk maxBlockSize 0 := by
      rw [hsplit]
      simp
    have hq := mem_visited hmem
    refine ⟨_, fillEntry_ok s (by omega), fun k hk => ?_⟩
    rw [putEntry_outside (by omega), Bytes.putLE_outside (by omega)]

/-- The last record past the limit, with room for a name that no other record takes. -/
theorem findSlot_last {ps : List ℕ} {q n : ℕ} (hsplit : visited v blk maxBlockSize 0 = ps ++ [q])
    (hbefore : ∀ p ∈ ps, blk.getLE p 4 = 0 → blk.getLE (p + 4) 2 < roundDirSize n)
    (hroom : takenLen blk q + roundDirSize n ≤ blk.getLE (q + 4) 2) :
    ∃ slot, findSlot v blk (roundDirSize n) (maxBlockSize + 1) 0 0 0 0 = some slot ∧
      slotStop slot = q + blk.getLE (q + 4) 2 := by
  have hfind : findSlot v blk (roundDirSize n) (maxBlockSize + 1) 0 0 0 0 = _ :=
    findSlot_eq (by omega) (0, 0, 0)
  rw [visited_all hlimit (Nat.le_succ _), hsplit] at hfind
  have hnone : (ps.find? fun p => blk.getLE p 4 = 0 ∧ roundDirSize n ≤ blk.getLE (p + 4) 2) = none := by
    refine List.find?_eq_none.mpr fun p hp => ?_
    simp only [decide_eq_true_eq, not_and, not_le]
    exact hbefore p hp
  rw [List.find?_append, hnone, Option.none_or, List.find?_singleton] at hfind
  by_cases hdead : blk.getLE q 4 = 0
  · rw [takenLen, if_pos hdead, Nat.zero_add] at hroom
    rw [decide_eq_true ⟨hdead, hroom⟩] at hfind
    exact ⟨_, hfind, rfl⟩
  · rw [decide_eq_false (fun h => hdead h.1)] at hfind
    rw [if_neg (by simp)] at hfind
    simp only [lastSeen_concat, slotBehind, if_pos hroom] at hfind
    refine ⟨_, hfind, ?_⟩
    change q + takenLen blk q + (blk.getLE (q + 4) 2 - takenLen blk q) = _
    omega

end Bounds

/-- **Directory scans stay inside the block**, for every content of the block, exactly when the
names of its entries in use and the record that would take a new name do. -/
theorem scans_inside_iff (hbs : v.bs = 1024 ∨ v.bs = 2048 ∨ v.bs = 4096) (blk : Bytes) :
    ScansInside v blk ↔ RecordsInside v blk := by
  have hlimit : v.dirLimit ≤ maxBlockSize := by
    unfold Ext4.dirLimit maxBlockSize
    split <;> omega
  constructor
  · intro h
    refine ⟨namesEnd_of_list hlimit h.list, fun ps q hsplit n hpos hle hbefore hroom => ?_⟩
    obtain ⟨slot, hfind, hstop⟩ := findSlot_last hlimit hsplit hbefore hroom
    rw [← hstop]
    refine (h.add (List.replicate n 0x61) 0 0 slot ?_ ?_ (maxBlockSize + 1) (Nat.lt_succ_self _) ?_).1
    · rw [ne_eq, List.replicate_eq_nil_iff]
      omega
    · rwa [List.length_replicate]
    · rwa [List.length_replicate]
  · intro h
    refine ⟨records_end hlimit blk,
      fun cap => ⟨_, fun fuel hfuel blk' hsame => (scans_of_namesEnd hlimit h.names hsame hfuel).1 cap⟩,
      fun name => ⟨_, fun fuel hfuel blk' hsame =>
        (scans_of_namesEnd hlimit h.names hsame hfuel).2 name⟩,
      fun name target ft slot hne hle fuel hfuel hfind => ?_⟩
    · have hstop := h.stop_le hlimit (List.length_pos_iff.mpr hne) hle hfuel hfind
      exact ⟨hstop, fillSlot_inside hlimit hfuel hfind hstop target ft⟩

/-- The block of the directory with two entries. -/
theorem scans_inside_twoEntry : ScansInside tinyVolume (twoEntryState.disk 4) := by
  have hvisited : visited tinyVolume (twoEntryState.disk 4) maxBlockSize 0 = [0, 12] := rfl
  refine (scans_inside_iff (Or.inl rfl) _).mpr ⟨?_, fun ps q hsplit n _ _ _ _ => ?_⟩
  · rw [hvisited]
    decide
  · rw [hvisited] at hsplit
    obtain ⟨-, hlast⟩ := List.append_inj' (show [0] ++ [12] = ps ++ [q] from hsplit) rfl
    cases hlast
    decide

/-- A block of 4096 bytes whose last record has a name of 20 bytes that starts at its end. -/
def longNameVolume : Ext4 := { tinyVolume with bs := 4096 }

def longNameBlock : Bytes :=
  ((putEntry (fun _ => 0) 0 4088 5 1 [0x61]).putLE 4088 4 6).putLE 4092 4 0x00140008

/-- `read_dir` and `lookup` panic on it. -/
theorem longName_leaves_buffer :
    listBlk longNameVolume longNameBlock 2 maxBlockSize 0 [] 0 = .error (.fault .outOfBounds) ∧
    lookupBlk longNameVolume longNameBlock (List.replicate 20 0x62) maxBlockSize 0 =
      .error (.fault .outOfBounds) ∧
    ¬ScansInside longNameVolume longNameBlock := by
  have hlist : listBlk longNameVolume longNameBlock 2 maxBlockSize 0 [] 0 =
      .error (.fault .outOfBounds) := rfl
  refine ⟨hlist, rfl, fun h => ?_⟩
  obtain ⟨r, hr⟩ := h.list 2
  have := hr maxBlockSize le_rfl longNameBlock fun _ _ => rfl
  rw [hlist] at this
  cases this

end Pinx.Analysis
