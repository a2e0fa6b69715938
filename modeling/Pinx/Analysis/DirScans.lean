import Pinx.Analysis.DirChain
import Pinx.Analysis.Ext4Calls

/-!
# Scans of directories with any content

`read_dir` and `lookup` walk the records of a block from one record length to the next and
check little of what they find.  On every content they meet the same records, `visited`, and
what each of them returns is a function of that list.  So the two agree wherever the names of
the records they look at are inside the buffer.
-/

namespace Pinx.Analysis

open Pinx.Foundation Pinx.Model

variable {v : Ext4} {blk blk' : Bytes} {name : List UInt8} {pos fuel cap n : ℕ} {out : List DirEnt}

/-! ## The records of a block -/

/-- Where the records are that a scan meets from `pos` on.
SOURCE: ext4.rs:1124-1128, 1139 -/
def visited (v : Ext4) (blk : Bytes) : ℕ → ℕ → List ℕ
  | 0, _ => []
  | fuel + 1, pos =>
    if v.dirLimit < pos + 8 ∨ blk.getLE (pos + 4) 2 = 0 then []
    else pos :: visited v blk fuel (pos + blk.getLE (pos + 4) 2)

/-- The entry at `pos`, whether it is in use or not. -/
def scannedAt (blk : Bytes) (pos : ℕ) : DirEnt :=
  ⟨blk.getLE pos 4, blk.getLE (pos + 7) 1, blk.slice (pos + 8) (blk.getLE (pos + 6) 1)⟩

/-- The entries in use among those at `ps`. -/
def entriesAt (blk : Bytes) (ps : List ℕ) : List DirEnt :=
  (ps.filter fun p => blk.getLE p 4 ≠ 0).map (scannedAt blk)

/-- The names of the entries in use at `ps` end before `stop`. -/
def NamesEnd (blk : Bytes) (stop : ℕ) (ps : List ℕ) : Prop :=
  ∀ p ∈ ps, blk.getLE p 4 ≠ 0 → p + 8 + blk.getLE (p + 6) 1 ≤ stop

instance (blk : Bytes) (stop : ℕ) (ps : List ℕ) : Decidable (NamesEnd blk stop ps) :=
  inferInstanceAs (Decidable (∀ p ∈ ps, blk.getLE p 4 ≠ 0 → p + 8 + blk.getLE (p + 6) 1 ≤ stop))

theorem entriesAt_dead {ps : List ℕ} (h : blk.getLE pos 4 = 0) :
    entriesAt blk (pos :: ps) = entriesAt blk ps := by
  unfold entriesAt
  rw [List.filter_cons_of_neg (by simpa using h)]

theorem entriesAt_live {ps : List ℕ} (h : blk.getLE pos 4 ≠ 0) :
    entriesAt blk (pos :: ps) = scannedAt blk pos :: entriesAt blk ps := by
  unfold entriesAt
  rw [List.filter_cons_of_pos (by simpa using h), List.map_cons]

/-- A scan ends at `pos`, or meets the record there and goes on behind it. -/
theorem visited_cases (v : Ext4) (blk : Bytes) (fuel pos : ℕ) :
    (v.dirLimit < pos + 8 ∨ blk.getLE (pos + 4) 2 = 0) ∧ visited v blk (fuel + 1) pos = [] ∨
    pos + 8 ≤ v.dirLimit ∧ blk.getLE (pos + 4) 2 ≠ 0 ∧ visited v blk (fuel + 1) pos =
      pos :: visited v blk fuel (pos + blk.getLE (pos + 4) 2) := by
  by_cases hend : v.dirLimit < pos + 8 ∨ blk.getLE (pos + 4) 2 = 0
  · exact Or.inl ⟨hend, by rw [visited, if_pos hend]⟩
  · refine Or.inr ⟨?_, ?_, by rw [visited, if_neg hend]⟩
    · omega
    · exact fun hrec => hend (Or.inr hrec)

theorem nameLen_le (blk : Bytes) (pos : ℕ) : blk.getLE (pos + 6) 1 ≤ 255 :=
  Nat.le_of_lt_succ (Bytes.getLE_lt blk (pos + 6) 1)

/-- What `read_dir` takes from a block. -/
theorem listBlk_eq (h : NamesEnd blk maxBlockSize (visited v blk fuel pos)) (cap : ℕ)
    (out : List DirEnt) (n : ℕ) : listBlk v blk cap fuel pos out n =
      .ok (out ++ (entriesAt blk (visited v blk fuel pos)).take (cap - n),
        n + (entriesAt blk (visited v blk fuel pos)).length) := by
  induction fuel generalizing pos out n with
  | zero => simp [listBlk, visited, entriesAt]
  | succ fuel ih =>
    rcases visited_cases v blk fuel pos with ⟨hend, hnil⟩ | ⟨hroom, hrec, hcons⟩
    · have hstop : listBlk v blk cap (fuel + 1) pos out n = .ok (out, n) := by
        rw [listBlk]
        by_cases hlim : v.dirLimit < pos + 8
        · rw [if_pos hlim]
        · rw [if_neg hlim]
          dsimp only
          rw [if_pos (hend.resolve_left hlim)]
      rw [hstop, hnil]
      simp [entriesAt]
    · rw [hcons] at h
      have hnext := fun out n => ih (fun p hp => h p (List.mem_cons_of_mem pos hp)) out n
      rw [listBlk, if_neg (by omega), hcons]
      dsimp only
      rw [if_neg hrec]
      by_cases hdead : blk.getLE pos 4 = 0
      · rw [if_neg (fun h => h.1 hdead), entriesAt_dead hdead, hnext]
      rw [if_pos ⟨hdead, nameLen_le blk pos⟩, entriesAt_live hdead, List.length_cons]
      by_cases hcap : n < cap
      · have hname := h pos List.mem_cons_self hdead
        rw [if_pos hcap, if_neg (by omega), hnext, List.append_assoc,
          show cap - n = cap - (n + 1) + 1 by omega, List.take_succ_cons,
          Nat.add_right_comm n 1]
        rfl
      · rw [if_neg hcap, hnext, Nat.sub_eq_zero_of_le (by omega : cap ≤ n),
          Nat.sub_eq_zero_of_le (by omega : cap ≤ n + 1), Nat.add_right_comm n 1]
        rfl

/-- A listing with room for all entries has looked at all names. -/
theorem namesEnd_of_listBlk {out' : List DirEnt} {n' : ℕ}
    (h : listBlk v blk cap fuel pos out n = .ok (out', n')) :
    n ≤ n' ∧ n' ≤ n + (visited v blk fuel pos).length ∧
      (n' ≤ cap → NamesEnd blk maxBlockSize (visited v blk fuel pos)) := by
  induction fuel generalizing pos out n with
  | zero =>
    cases h
    exact ⟨le_rfl, le_rfl, fun _ p hp => absurd hp List.not_mem_nil⟩
  | succ fuel ih =>
    rcases visited_cases v blk fuel pos with ⟨hend, hnil⟩ | ⟨hroom, hrec, hcons⟩
    · rw [hnil]
      have hn : n = n' := by
        rw [listBlk] at h
        split at h
        · cases h
          rfl
        · rename_i hlim
          dsimp only at h
          rw [if_pos (hend.resolve_left hlim)] at h
          cases h
          rfl
      exact ⟨hn.le, hn.ge, fun _ p hp => absurd hp List.not_mem_nil⟩
    · rw [listBlk, if_neg (by omega)] at h
      dsimp only at h
      rw [if_neg hrec] at h
      rw [hcons, List.length_cons]
      by_cases hdead : blk.getLE pos 4 = 0
      · rw [if_neg (fun h => h.1 hdead)] at h
        obtain ⟨hle, hmost, hnames⟩ := ih h
        refine ⟨hle, by omega, fun hcap p hp hlive => ?_⟩
        rcases List.mem_cons.mp hp with rfl | hp
        · exact absurd hdead hlive
        · exact hnames hcap p hp hlive
      rw [if_pos ⟨hdead, nameLen_le blk pos⟩] at h
      by_cases hcap : n < cap
      · rw [if_pos hcap] at h
        split at h
        · cases h
        rename_i hname
        obtain ⟨hle, hmost, hnames⟩ := ih h
        refine ⟨by omega, by omega, fun hcap p hp hlive => ?_⟩
        rcases List.mem_cons.mp hp with rfl | hp
        · omega
        · exact hnames hcap p hp hlive
      · rw [if_neg hcap] at h
        obtain ⟨hle, hmost, -⟩ := ih h
        exact ⟨by omega, by omega, fun hcap' => absurd hcap' (by omega)⟩

/-- What `lookup` finds in a block. -/
theorem lookupBlk_eq (h : NamesEnd blk maxBlockSize (visited v blk fuel pos)) (name : List UInt8) :
    lookupBlk v blk name fuel pos =
      .ok (binding name (entriesAt blk (visited v blk fuel pos))) := by
  induction fuel generalizing pos with
  | zero => rfl
  | succ fuel ih =>
    rcases visited_cases v blk fuel pos with ⟨hend, hnil⟩ | ⟨hroom, hrec, hcons⟩
    · rw [hnil, lookupBlk]
      by_cases hlim : v.dirLimit < pos + 8
      · rw [if_pos hlim]
        rfl
      · rw [if_neg hlim]
        dsimp only
        rw [if_pos (hend.resolve_left hlim)]
        rfl
    · rw [hcons] at h
      have hnext := ih fun p hp => h p (List.mem_cons_of_mem pos hp)
      rw [lookupBlk, if_neg (by omega), hcons]
      dsimp only
      rw [if_neg hrec, hnext]
      by_cases hdead : blk.getLE pos 4 = 0
      · rw [if_neg (fun h => h.1 hdead), entriesAt_dead hdead]
      have hname := h pos List.mem_cons_self hdead
      rw [entriesAt_live hdead]
      unfold binding
      rw [List.find?_cons]
      by_cases heq : (scannedAt blk pos).name = name
      · have hlen : blk.getLE (pos + 6) 1 = name.length := by
          rw [← heq, scannedAt, Bytes.slice, List.length_map, List.length_range]
        rw [if_pos ⟨hdead, hlen⟩, if_neg (by omega), if_pos (by rw [← hlen]; exact heq),
          decide_eq_true heq]
        rfl
      · rw [decide_eq_false heq]
        dsimp only
        by_cases hsame : blk.getLE (pos + 6) 1 = name.length
        · rw [if_pos ⟨hdead, hsame⟩, if_neg (by omega), if_neg (by rw [← hsame]; exact heq)]
        · rw [if_neg (fun h => hsame h.2)]

/-! ## The blocks of a directory -/

/-- The entries of a listing with room for all of them are what every listing and every lookup
goes by. -/
theorem readDirLoop_agrees {inode : Inode} {k lb n' : ℕ} {out' : List DirEnt} {s s' : FsState}
    (h : readDirLoop v inode cap k lb out n s = (.ok (out', n'), s')) (hle : n' ≤ cap) :
    ∃ all, out' = out ++ all ∧ n' = n + all.length ∧
      (∀ cap out n, readDirLoop v inode cap k lb out n s =
        (.ok (out ++ all.take (cap - n), n + all.length), s)) ∧
      ∀ name, lookupLoop v inode name k lb s = (.ok (binding name all), s) := by
  induction k generalizing lb out n with
  | zero =>
    cases h
    exact ⟨[], by simp, rfl, fun _ _ _ => by simp [readDirLoop], fun _ => rfl⟩
  | succ k ih =>
    rw [readDirLoop] at h
    obtain ⟨found, hmap, h⟩ := (reads_mapBlock v inode (lb % 2 ^ 32)).bind_eq_ok.mp h
    cases found with
    | none =>
      obtain ⟨all, hout, hn, hlist, hlook⟩ := ih h
      refine ⟨all, hout, hn, fun cap out n => ?_, fun name => ?_⟩
      · rw [readDirLoop]
        exact (Prog.bind_ok hmap).trans (hlist cap out n)
      · rw [lookupLoop]
        exact (Prog.bind_ok hmap).trans (hlook name)
    | some fsb =>
      obtain ⟨blk, hread, h⟩ := (reads_readFsb v fsb).bind_eq_ok.mp h
      obtain ⟨⟨out₁, n₁⟩, hblk, h⟩ := (Prog.reads_lift _).bind_eq_ok.mp h
      have hblk := (Prod.mk.inj hblk).1
      obtain ⟨rest, hout, hn, hlist, hlook⟩ := ih h
      have hnames := (namesEnd_of_listBlk hblk).2.2 (by omega)
      have hhere := listBlk_eq hnames
      rw [hhere] at hblk
      cases hblk
      refine ⟨entriesAt blk (visited v blk maxBlockSize 0) ++ rest, ?_, ?_, fun cap out n => ?_,
        fun name => ?_⟩
      · rw [hout, List.take_of_length_le (by omega), List.append_assoc]
      · rw [hn, List.length_append, Nat.add_assoc]
      · rw [readDirLoop]
        refine (Prog.bind_ok hmap).trans ((Prog.bind_ok hread).trans ?_)
        refine (Prog.bind_ok (congrArg (Prod.mk · _) (hhere cap out n))).trans ((hlist cap _ _).trans ?_)
        rw [List.take_append, List.append_assoc, List.length_append, Nat.sub_sub, Nat.add_assoc]
      · rw [lookupLoop, binding_append]
        refine (Prog.bind_ok hmap).trans ((Prog.bind_ok hread).trans ?_)
        refine (Prog.bind_ok (congrArg (Prod.mk · _) (lookupBlk_eq hnames name))).trans ?_
        cases hbound : binding name (entriesAt blk (visited v blk maxBlockSize 0)) with
        | none => exact (hlook name).trans (by rw [Option.none_or])
        | some ino => rfl

/-- **`lookup` and `read_dir` agree.**  On every volume and for every inode and content, if
`read_dir` with room for all entries returns, then `lookup` of every name returns the inode of
the first entry listed with that name, and `None` if there is none; and `read_dir` with less
room returns the same count and as many entries from the start of the list as fit. -/
theorem lookup_agrees_with_readDir {dir : ℕ} {entries : List DirEnt} {s s' : FsState}
    (h : readDir v dir cap s = (.ok (entries, n), s')) (hroom : n ≤ cap) :
    n = entries.length ∧ s' = s ∧
      (∀ name, lookup v dir name s =
        (.ok ((entries.find? fun d => d.name = name).map DirEnt.ino), s)) ∧
      ∀ cap, readDir v dir cap s = (.ok (entries.take cap, n), s) := by
  unfold readDir at h
  obtain ⟨inode, hinode, h⟩ := (reads_readInode v dir).bind_eq_ok.mp h
  by_cases hdir : inode.isDir = false
  · rw [if_pos hdir] at h
    cases h
  rw [if_neg hdir] at h
  obtain ⟨blocks, hblocks, h⟩ := (reads_dirBlocks v inode.size).bind_eq_ok.mp h
  obtain ⟨all, hout, hn, hlist, hlook⟩ := readDirLoop_agrees h hroom
  rw [List.nil_append] at hout
  rw [Nat.zero_add] at hn
  subst hout
  have hall := hlist cap [] 0
  rw [h] at hall
  refine ⟨hn, (Prod.mk.inj hall).2, fun name => ?_, fun cap => ?_⟩
  · unfold lookup
    rw [Prog.bind_ok hinode, if_neg hdir, Prog.bind_ok hblocks, hlook]
    rfl
  · unfold readDir
    rw [Prog.bind_ok hinode, if_neg hdir, Prog.bind_ok hblocks, hlist, hn]
    simp

/-- One directory, inode 2, whose block 4 holds two entries. -/
def twoEntryState : FsState where
  disk
    | 2 => Bytes.putLE (fun _ => 0) 0x08 4 3
    | 3 => Bytes.blit (fun _ => 0) 128 128 (wrExtent (wrHdr
        (Bytes.putLE (Bytes.putLE (fun _ => 0) 0x00 2 0x4000) 0x04 4 1024) iblock 1 4 0) iblock 0 ⟨0, 1, 4⟩)
    | 4 => putEntry (putEntry (fun _ => 0) 0 12 5 1 [0x61]) 12 1012 6 1 [0x62]
    | _ => fun _ => 0
  freeBlocks := 0
  freeInodes := 0

theorem lookup_agrees_twoEntry :
    (readDir tinyVolume 2 4 twoEntryState).1 = .ok ([⟨5, 1, [0x61]⟩, ⟨6, 1, [0x62]⟩], 2) ∧
      lookup tinyVolume 2 [0x62] twoEntryState = (.ok (some 6), twoEntryState) := by
  have hlist : (readDir tinyVolume 2 4 twoEntryState).1 =
      .ok ([⟨5, 1, [0x61]⟩, ⟨6, 1, [0x62]⟩], 2) := by
    decide
  have hrun : readDir tinyVolume 2 4 twoEntryState =
      (.ok ([⟨5, 1, [0x61]⟩, ⟨6, 1, [0x62]⟩], 2), (readDir tinyVolume 2 4 twoEntryState).2) := by
    rw [← hlist]
  exact ⟨hlist, (lookup_agrees_with_readDir hrun (by omega)).2.2.1 [0x62]⟩

end Pinx.Analysis
