import Pinx.Analysis.Ext4Calls

/-!
# What a read returns

`read_file` cuts a range at the blocks of the file and looks each block up.  A read of any
range, on any volume, returns for each byte what a lookup of its block gives, `fileByte`, so it
does not matter how the range is cut.
-/

namespace Pinx.Analysis

open Pinx.Foundation Pinx.Model

variable {v : Ext4} {s s' : FsState} {inode : Inode} {x n cur count fuel : ℕ} {bytes : List UInt8}

/-- Byte `x` of a file: a byte of the block its logical block is mapped to, or 0. -/
def fileByte (v : Ext4) (inode : Inode) (x : ℕ) : Fs UInt8 := do
  match ← mapBlock v inode (x / v.bs % 2 ^ 32) with
  | some fsb =>
    let blk ← readFsb v fsb
    return blk (x % v.bs)
  | none => return 0

/-- The part of one turn of the loop of `read_file`.
SOURCE: ext4.rs:1268-1277 -/
def readPart (v : Ext4) (inode : Inode) (cur count : ℕ) : Fs (List UInt8) := do
  match ← mapBlock v inode (cur / v.bs % 2 ^ 32) with
  | some fsb =>
    let blk ← readFsb v fsb
    return blk.slice (cur % v.bs) count
  | none => return List.replicate count 0

/-- The bytes from one place of a block on, in the terms of the file. -/
theorem add_in_block (hk : x % v.bs + n < v.bs) :
    (x + n) / v.bs = x / v.bs ∧ (x + n) % v.bs = x % v.bs + n := by
  have hx := Nat.div_add_mod x v.bs
  have heq : x + n = x % v.bs + n + v.bs * (x / v.bs) := by omega
  constructor
  · rw [heq, Nat.add_mul_div_left _ _ (by omega), Nat.div_eq_of_lt hk, Nat.zero_add]
  · rw [heq, Nat.add_mul_mod_self_left, Nat.mod_eq_of_lt hk]

/-- The bytes of a block of the file, as a read finds it. -/
def BlockBytes (v : Ext4) (inode : Inode) (s : FsState) (lb : ℕ) (b : Bytes) : Prop :=
  mapBlock v inode (lb % 2 ^ 32) s = (.ok none, s) ∧ b = (fun _ => 0) ∨
    ∃ fsb, mapBlock v inode (lb % 2 ^ 32) s = (.ok (some fsb), s) ∧ readFsb v fsb s = (.ok b, s)

theorem BlockBytes.unique {lb : ℕ} {b b' : Bytes} (h : BlockBytes v inode s lb b)
    (h' : BlockBytes v inode s lb b') : b = b' := by
  rcases h with ⟨hmap, rfl⟩ | ⟨fsb, hmap, hread⟩
  · rcases h' with ⟨-, rfl⟩ | ⟨fsb', hmap', -⟩
    · rfl
    · rw [hmap] at hmap'
      cases hmap'
  · rcases h' with ⟨hmap', -⟩ | ⟨fsb', hmap', hread'⟩
    · rw [hmap] at hmap'
      cases hmap'
    · rw [hmap] at hmap'
      cases hmap'
      rw [hread] at hread'
      cases hread'
      rfl

theorem reads_readPart (v : Ext4) (inode : Inode) (cur count : ℕ) :
    Prog.Reads (readPart v inode cur count) := by
  refine (reads_mapBlock v inode _).bind fun found => ?_
  cases found with
  | none => exact Prog.reads_pure _
  | some fsb => exact (reads_readFsb v fsb).bind fun _ => Prog.reads_pure _

theorem fileByte_iff {c : UInt8} : fileByte v inode x s = (.ok c, s) ↔
    ∃ b, BlockBytes v inode s (x / v.bs) b ∧ c = b (x % v.bs) := by
  unfold fileByte
  rw [(reads_mapBlock v inode _).bind_eq_ok]
  constructor
  · rintro ⟨found, hmap, h⟩
    cases found with
    | none =>
      cases h
      exact ⟨_, Or.inl ⟨hmap, rfl⟩, rfl⟩
    | some fsb =>
      obtain ⟨b, hread, h⟩ := (reads_readFsb v fsb).bind_eq_ok.mp h
      cases h
      exact ⟨b, Or.inr ⟨fsb, hmap, hread⟩, rfl⟩
  · rintro ⟨b, ⟨hmap, rfl⟩ | ⟨fsb, hmap, hread⟩, rfl⟩
    · exact ⟨none, hmap, rfl⟩
    · exact ⟨some fsb, hmap, (reads_readFsb v fsb).bind_eq_ok.mpr ⟨b, hread, rfl⟩⟩

theorem readPart_iff : readPart v inode cur count s = (.ok bytes, s) ↔
    ∃ b, BlockBytes v inode s (cur / v.bs) b ∧ bytes = b.slice (cur % v.bs) count := by
  unfold readPart
  rw [(reads_mapBlock v inode _).bind_eq_ok]
  have hzeros : Bytes.slice (fun _ => 0) (cur % v.bs) count = List.replicate count 0 := by
    rw [Bytes.slice, List.map_const', List.length_range]
  constructor
  · rintro ⟨found, hmap, h⟩
    cases found with
    | none =>
      cases h
      exact ⟨_, Or.inl ⟨hmap, rfl⟩, hzeros.symm⟩
    | some fsb =>
      obtain ⟨b, hread, h⟩ := (reads_readFsb v fsb).bind_eq_ok.mp h
      cases h
      exact ⟨b, Or.inr ⟨fsb, hmap, hread⟩, rfl⟩
  · rintro ⟨b, ⟨hmap, rfl⟩ | ⟨fsb, hmap, hread⟩, rfl⟩
    · exact ⟨none, hmap, by rw [hzeros]; rfl⟩
    · exact ⟨some fsb, hmap, (reads_readFsb v fsb).bind_eq_ok.mpr ⟨b, hread, rfl⟩⟩

/-- The bytes of a file from `cur` on. -/
def ReadsBytes (v : Ext4) (inode : Inode) (s : FsState) (cur : ℕ) (bytes : List UInt8) : Prop :=
  ∀ k < bytes.length, fileByte v inode (cur + k) s = (.ok (bytes.getD k 0), s)

theorem readsBytes_append {more : List UInt8} : ReadsBytes v inode s cur (bytes ++ more) ↔
    ReadsBytes v inode s cur bytes ∧ ReadsBytes v inode s (cur + bytes.length) more := by
  constructor
  · intro h
    constructor
    · intro k hk
      have := h k (by rw [List.length_append]; omega)
      rwa [List.getD_append _ _ _ _ hk] at this
    · intro k hk
      have := h (bytes.length + k) (by rw [List.length_append]; omega)
      rwa [List.getD_append_right _ _ _ _ (Nat.le_add_right _ _), Nat.add_sub_cancel_left,
        ← Nat.add_assoc] at this
  · rintro ⟨h, hmore⟩ k hk
    rw [List.length_append] at hk
    by_cases hin : k < bytes.length
    · rw [List.getD_append _ _ _ _ hin]
      exact h k hin
    · have := hmore (k - bytes.length) (by omega)
      rw [List.getD_append_right _ _ _ _ (by omega)]
      rwa [Nat.add_assoc, Nat.add_sub_cancel' (by omega)] at this

theorem readsBytes_nil (v : Ext4) (inode : Inode) (s : FsState) (cur : ℕ) :
    ReadsBytes v inode s cur [] :=
  fun _ hk => nomatch hk

/-- The bytes of one block that a turn reads. -/
theorem readPart_bytes (hpos : 0 < count) (hle : cur % v.bs + count ≤ v.bs) :
    readPart v inode cur count s = (.ok bytes, s) ↔
      bytes.length = count ∧ ReadsBytes v inode s cur bytes := by
  have hin : ∀ k < count, (cur + k) / v.bs = cur / v.bs ∧ (cur + k) % v.bs = cur % v.bs + k :=
    fun k hk => add_in_block (by omega)
  have hslice : ∀ (b : Bytes) k, k < count → (b.slice (cur % v.bs) count).getD k 0 = b (cur % v.bs + k) := by
    intro b k hk
    rw [List.getD_eq_getElem _ _ (by simpa [Bytes.slice] using hk)]
    simp [Bytes.slice]
  rw [readPart_iff]
  constructor
  · rintro ⟨b, hb, rfl⟩
    have hlen : (b.slice (cur % v.bs) count).length = count := by simp [Bytes.slice]
    refine ⟨hlen, fun k hk => fileByte_iff.mpr ⟨b, ?_, ?_⟩⟩
    · rwa [(hin k (by omega)).1]
    · rw [hslice b k (by omega), (hin k (by omega)).2]
  · rintro ⟨hlen, hbytes⟩
    obtain ⟨b, hb, -⟩ := fileByte_iff.mp (hbytes 0 (by omega))
    rw [Nat.add_zero] at hb
    refine ⟨b, hb, List.ext_getElem (by simp [Bytes.slice, hlen]) fun k hk hk' => ?_⟩
    obtain ⟨b', hb', hbyte⟩ := fileByte_iff.mp (hbytes k hk)
    rw [(hin k (by omega)).1] at hb'
    rw [← List.getD_eq_getElem _ 0 hk, hbyte, hb'.unique hb, (hin k (by omega)).2,
      ← hslice b k (by omega), List.getD_eq_getElem _ _ hk']

/-! ## The caller's buffer -/

/-- A buffer with `part` put in at `done`. -/
theorem splice_buffer (buf part : List UInt8) {done take : ℕ} (hdone : done + part.length ≤ take)
    (htake : take ≤ buf.length) :
    (buf.take done ++ part ++ buf.drop (done + part.length)).length = buf.length ∧
    (buf.take done ++ part ++ buf.drop (done + part.length)).take (done + part.length) =
      buf.take done ++ part ∧
    (buf.take done ++ part ++ buf.drop (done + part.length)).drop take = buf.drop take := by
  have hlen : (buf.take done ++ part).length = done + part.length := by
    rw [List.length_append, List.length_take]
    omega
  refine ⟨?_, ?_, ?_⟩
  · rw [List.length_append, hlen, List.length_drop]
    omega
  · rw [List.take_append_of_le_length hlen.ge, List.take_of_length_le hlen.le]
  · rw [List.drop_append, List.drop_of_length_le (by omega), hlen, List.drop_drop, List.nil_append,
      Nat.add_sub_cancel' hdone]

theorem fillLoop_succ {offset take done : ℕ} {buf : List UInt8} (h : done < take) :
    fillLoop v inode offset take (fuel + 1) done buf =
      (readPart v inode (offset + done) (min (v.bs - (offset + done) % v.bs) (take - done)) >>=
        fun part => fillLoop v inode offset take fuel
          (done + min (v.bs - (offset + done) % v.bs) (take - done))
          (buf.take done ++ part ++
            buf.drop (done + min (v.bs - (offset + done) % v.bs) (take - done)))) := by
  rw [fillLoop, if_neg (by omega)]
  rfl

theorem reads_fillLoop (v : Ext4) (inode : Inode) (offset take fuel done : ℕ) (buf : List UInt8) :
    Prog.Reads (fillLoop v inode offset take fuel done buf) := by
  induction fuel generalizing done buf with
  | zero => exact Prog.reads_pure _
  | succ fuel ih =>
    by_cases h : done < take
    · rw [fillLoop_succ h]
      exact (reads_readPart v inode _ _).bind fun _ => ih _ _
    · rw [fillLoop, if_pos (by omega)]
      exact Prog.reads_pure _

/-- A buffer that is filled stays as it is. -/
theorem fillLoop_over {offset take : ℕ} {buf buf' : List UInt8} :
    fillLoop v inode offset take fuel take buf s = (.ok buf', s) ↔
      ∃ bytes, bytes.length = take - take ∧ ReadsBytes v inode s (offset + take) bytes ∧
        buf' = buf.take take ++ bytes ++ buf.drop take := by
  have hrun : fillLoop v inode offset take fuel take buf s = (.ok buf, s) := by
    cases fuel with
    | zero => rfl
    | succ fuel =>
      rw [fillLoop, if_pos le_rfl]
      rfl
  rw [hrun, Nat.sub_self]
  constructor
  · intro h
    cases h
    refine ⟨[], rfl, readsBytes_nil v inode s _, ?_⟩
    rw [List.append_nil, List.take_append_drop]
  · rintro ⟨bytes, hlen, -, rfl⟩
    rw [List.length_eq_zero_iff.mp hlen, List.append_nil, List.take_append_drop]

/-- SOURCE: ext4.rs:1266-1278 -/
theorem fillLoop_iff (hbs : 0 < v.bs) {offset take done : ℕ} {buf buf' : List UInt8}
    (hdone : done ≤ take) (htake : take ≤ buf.length) (hfuel : take - done ≤ fuel) :
    fillLoop v inode offset take fuel done buf s = (.ok buf', s) ↔
      ∃ bytes, bytes.length = take - done ∧ ReadsBytes v inode s (offset + done) bytes ∧
        buf' = buf.take done ++ bytes ++ buf.drop take := by
  induction fuel generalizing done buf with
  | zero =>
    rw [show done = take by omega]
    exact fillLoop_over
  | succ fuel ih =>
    rcases Nat.eq_or_lt_of_le hdone with rfl | hlt
    · exact fillLoop_over
    rw [fillLoop_succ hlt, (reads_readPart v inode _ _).bind_eq_ok]
    have hmod := Nat.mod_lt (offset + done) hbs
    generalize hcount : min (v.bs - (offset + done) % v.bs) (take - done) = count
    have hpos : 0 < count := by omega
    have hin : (offset + done) % v.bs + count ≤ v.bs := by omega
    constructor
    · rintro ⟨part, hpart, h⟩
      obtain ⟨hlen, hhere⟩ := (readPart_bytes hpos hin).mp hpart
      subst hlen
      obtain ⟨hbuf, hleft, hright⟩ := splice_buffer buf part (show done + part.length ≤ take by omega) htake
      obtain ⟨rest, hlen', hthere, rfl⟩ := (ih (by omega) (by omega) (by omega)).mp h
      refine ⟨part ++ rest, by rw [List.length_append]; omega, readsBytes_append.mpr ⟨hhere, ?_⟩, ?_⟩
      · rwa [Nat.add_assoc]
      · rw [hleft, hright, List.append_assoc (buf.take done)]
    · rintro ⟨bytes, hlen, hbytes, rfl⟩
      rw [← List.take_append_drop count bytes] at hbytes
      obtain ⟨hhere, hthere⟩ := readsBytes_append.mp hbytes
      have hlen' : (bytes.take count).length = count := by
        rw [List.length_take]
        omega
      rw [hlen', Nat.add_assoc] at hthere
      have hsplice := splice_buffer buf (bytes.take count)
        (show done + (bytes.take count).length ≤ take by omega) htake
      rw [hlen'] at hsplice
      obtain ⟨hbuf, hleft, hright⟩ := hsplice
      refine ⟨bytes.take count, (readPart_bytes hpos hin).mpr ⟨hlen', hhere⟩, ?_⟩
      refine (ih (by omega) (by omega) (by omega)).mpr ⟨bytes.drop count, ?_, hthere, ?_⟩
      · rw [List.length_drop]
        omega
      · rw [hleft, hright, List.append_assoc (buf.take done) (bytes.take count), List.take_append_drop]

theorem reads_readInto (v : Ext4) (ino offset : ℕ) (buf : List UInt8) :
    Prog.Reads (readInto v ino offset buf) :=
  (Prog.reads_pure _).ite ((reads_readInode v ino).bind fun _ => (Prog.reads_fail _).ite
    ((Prog.reads_pure _).ite ((reads_fillLoop v _ _ _ _ _ _).bind fun _ => Prog.reads_pure _)))

section Regular

variable {ino offset : ℕ} {buf buf' : List UInt8} (hbs : 0 < v.bs)
  (hinode : readInode v ino s = (.ok inode, s)) (hfile : inode.isFile = true)
include hbs hinode hfile

/-- What a read of a regular file returns and leaves in the buffer. -/
theorem readInto_iff : readInto v ino offset buf s = (.ok (n, buf'), s) ↔
    n = min buf.length (inode.size - offset) ∧ ∃ bytes, bytes.length = n ∧
      ReadsBytes v inode s offset bytes ∧ buf' = bytes ++ buf.drop n := by
  have hempty : min buf.length (inode.size - offset) = 0 →
      (((.ok (0, buf), s) : Except FsFail (ℕ × List UInt8) × FsState) = (.ok (n, buf'), s) ↔
        n = min buf.length (inode.size - offset) ∧ ∃ bytes, bytes.length = n ∧
          ReadsBytes v inode s offset bytes ∧ buf' = bytes ++ buf.drop n) := by
    intro hzero
    rw [hzero]
    constructor
    · intro h
      cases h
      exact ⟨rfl, [], rfl, readsBytes_nil v inode s offset, rfl⟩
    · rintro ⟨rfl, bytes, hlen, -, rfl⟩
      rw [List.length_eq_zero_iff.mp hlen]
      rfl
  unfold readInto
  by_cases hnil : buf = []
  · rw [if_pos hnil]
    exact hempty (by rw [hnil, List.length_nil, Nat.zero_min])
  rw [if_neg hnil, Prog.bind_ok hinode, if_neg (by rw [hfile]; decide)]
  by_cases hend : inode.size ≤ offset
  · rw [if_pos hend]
    exact hempty (by omega)
  rw [if_neg hend, (reads_fillLoop v inode _ _ _ _ _).bind_eq_ok, Nat.min_comm]
  constructor
  · rintro ⟨filled, hfill, h⟩
    cases h
    obtain ⟨bytes, hlen, hbytes, rfl⟩ :=
      (fillLoop_iff hbs (Nat.zero_le _) (Nat.min_le_left _ _) (by omega)).mp hfill
    exact ⟨rfl, bytes, hlen, hbytes, rfl⟩
  · rintro ⟨rfl, bytes, hlen, hbytes, rfl⟩
    exact ⟨_, (fillLoop_iff hbs (Nat.zero_le _) (Nat.min_le_left _ _) (by omega)).mpr
      ⟨bytes, hlen, hbytes, rfl⟩, rfl⟩

/-- The bytes a read of a regular file returns. -/
theorem readFile_iff {len : ℕ} : readFile v ino offset len s = (.ok bytes, s) ↔
    bytes.length = min len (inode.size - offset) ∧ ReadsBytes v inode s offset bytes := by
  unfold readFile
  rw [(reads_readInto v ino offset _).bind_eq_ok]
  constructor
  · rintro ⟨⟨n, buf⟩, hread, h⟩
    obtain ⟨hn, bytes, rfl, hbytes, rfl⟩ := (readInto_iff hbs hinode hfile).mp hread
    cases h
    rw [List.take_left]
    exact ⟨hn.trans (by rw [List.length_replicate]), hbytes⟩
  · rintro ⟨hlen, hbytes⟩
    refine ⟨(bytes.length, _), (readInto_iff hbs hinode hfile).mpr ⟨?_, bytes, rfl, hbytes, rfl⟩, ?_⟩
    · rw [hlen, List.length_replicate]
    · dsimp only
      rw [List.take_left, Prog.pure_apply]

end Regular

/-! ## Reads in pieces -/

/-- Reads into consecutive pieces of a buffer, each from where the last one ended: the count of
all bytes read, and the buffer.
SOURCE: user.rs:152-156 -/
def readPieces (v : Ext4) (ino : ℕ) : ℕ → List (List UInt8) → Fs (ℕ × List UInt8)
  | _, [] => pure (0, [])
  | offset, buf :: bufs => do
    let (n, buf) ← readInto v ino offset buf
    let (m, rest) ← readPieces v ino (offset + n) bufs
    return (n + m, buf ++ rest)

theorem reads_readPieces (v : Ext4) (ino offset : ℕ) (bufs : List (List UInt8)) :
    Prog.Reads (readPieces v ino offset bufs) := by
  induction bufs generalizing offset with
  | nil => exact Prog.reads_pure _
  | cons buf bufs ih =>
    exact (reads_readInto v ino offset buf).bind fun _ => (ih _).bind fun _ => Prog.reads_pure _

/-- The buffers of two reads, put together: a buffer that was not filled ends the file. -/
theorem join_pieces {buf flat part more : List UInt8} {k : ℕ}
    (hpart : part.length = min buf.length k) (hmore : more.length = min flat.length (k - part.length)) :
    part ++ buf.drop part.length ++ (more ++ flat.drop more.length) =
      part ++ more ++ (buf ++ flat).drop (part.length + more.length) := by
  by_cases hfull : part.length = buf.length
  · rw [hfull, List.drop_length, List.append_nil, ← List.drop_drop, List.drop_left, List.append_assoc]
  · have hnil : more = [] := List.length_eq_zero_iff.mp (by omega)
    rw [hnil, List.nil_append, List.length_nil, Nat.add_zero, List.drop_zero, List.append_nil,
      List.drop_append_of_le_length (by omega), List.append_assoc]

/-- What reads in pieces leave is what one read leaves. -/
theorem readPieces_iff {ino offset : ℕ} {bufs : List (List UInt8)} {buf' : List UInt8} (hbs : 0 < v.bs)
    (hinode : readInode v ino s = (.ok inode, s)) (hfile : inode.isFile = true) :
    readPieces v ino offset bufs s = (.ok (n, buf'), s) ↔
      n = min bufs.flatten.length (inode.size - offset) ∧ ∃ bytes, bytes.length = n ∧
        ReadsBytes v inode s offset bytes ∧ buf' = bytes ++ bufs.flatten.drop n := by
  induction bufs generalizing offset n buf' with
  | nil =>
    rw [List.flatten_nil, List.length_nil, Nat.zero_min]
    constructor
    · intro h
      cases h
      exact ⟨rfl, [], rfl, readsBytes_nil v inode s offset, rfl⟩
    · rintro ⟨rfl, bytes, hlen, -, rfl⟩
      rw [List.length_eq_zero_iff.mp hlen]
      rfl
  | cons buf bufs ih =>
    rw [readPieces, (reads_readInto v ino offset buf).bind_eq_ok, List.flatten_cons, List.length_append]
    constructor
    · rintro ⟨⟨n₁, buf₁⟩, hread, h⟩
      obtain ⟨⟨m, rest⟩, hrest, h⟩ := (reads_readPieces v ino _ bufs).bind_eq_ok.mp h
      obtain ⟨hn₁, part, hlen, hhere, rfl⟩ := (readInto_iff hbs hinode hfile).mp hread
      obtain ⟨hm, more, hlen', hthere, rfl⟩ := ih.mp hrest
      cases h
      refine ⟨by omega, part ++ more, by rw [List.length_append]; omega, readsBytes_append.mpr
        ⟨hhere, by rwa [hlen]⟩, ?_⟩
      rw [← hlen] at hm
      rw [← hlen, ← hlen']
      exact join_pieces (hlen.trans hn₁) (by rw [hlen', hm, Nat.sub_sub])
    · rintro ⟨hn, bytes, hlen, hbytes, rfl⟩
      generalize hn₁ : min buf.length (inode.size - offset) = n₁
      rw [← List.take_append_drop n₁ bytes] at hbytes
      obtain ⟨hhere, hthere⟩ := readsBytes_append.mp hbytes
      have htake : (bytes.take n₁).length = n₁ := by
        rw [List.length_take]
        omega
      have hdrop : (bytes.drop n₁).length = n - n₁ := by
        rw [List.length_drop, hlen]
      rw [htake] at hthere
      have hread : readInto v ino offset buf s = (.ok (n₁, bytes.take n₁ ++ buf.drop n₁), s) :=
        (readInto_iff hbs hinode hfile).mpr ⟨hn₁.symm, _, htake, hhere, rfl⟩
      have hrest : readPieces v ino (offset + n₁) bufs s =
          (.ok (n - n₁, bytes.drop n₁ ++ bufs.flatten.drop (n - n₁)), s) :=
        ih.mpr ⟨by omega, _, hdrop, hthere, rfl⟩
      refine ⟨_, hread, (Prog.bind_ok hrest).trans ?_⟩
      have hjoin : bytes.take n₁ ++ buf.drop (bytes.take n₁).length ++
          (bytes.drop n₁ ++ bufs.flatten.drop (bytes.drop n₁).length) = bytes.take n₁ ++ bytes.drop n₁ ++
            (buf ++ bufs.flatten).drop ((bytes.take n₁).length + (bytes.drop n₁).length) :=
        join_pieces (htake.trans hn₁.symm) (by rw [hdrop, htake, (ih.mp hrest).1, Nat.sub_sub])
      rw [htake, hdrop, List.take_append_drop, show n₁ + (n - n₁) = n by omega] at hjoin
      rw [← hjoin]
      show ((Except.ok (n₁ + (n - n₁), _), s) : Except FsFail _ × FsState) = _
      rw [show n₁ + (n - n₁) = n by omega]

/-- A read past the end leaves the buffer as it is. -/
theorem readInto_end {ino offset : ℕ} {buf : List UInt8} (hinode : readInode v ino s = (.ok inode, s))
    (hfile : inode.isFile = true) (hend : inode.size ≤ offset) :
    readInto v ino offset buf s = (.ok (0, buf), s) := by
  unfold readInto
  by_cases hnil : buf = []
  · rw [if_pos hnil]
    rfl
  · rw [if_neg hnil, Prog.bind_ok hinode, if_neg (by rw [hfile]; decide), if_pos hend]
    rfl

/-- One turn of the loop over the buffer of a whole file. -/
theorem readWhole_succ {ino done : ℕ} {buf rest : List UInt8} (hdone : done < buf.length)
    (hread : readInto v ino done (buf.drop done) s = (.ok (n, rest), s)) :
    readWhole v ino (fuel + 1) done buf s = if n = 0 then (.ok (done, buf.take done ++ rest), s)
      else readWhole v ino fuel (done + n) (buf.take done ++ rest) s := by
  rw [readWhole, if_pos hdone]
  refine (Prog.bind_ok hread).trans ?_
  by_cases hzero : n = 0
  · rw [if_pos hzero]
    exact congrFun (if_pos hzero) s
  · rw [if_neg hzero]
    exact congrFun (if_neg hzero) s

/-- The loop over the buffer of a whole file is one read: the second turn finds the buffer full
or the file at its end. -/
theorem readWhole_eq {ino : ℕ} (buf : List UInt8) (hbs : 0 < v.bs)
    (hinode : readInode v ino s = (.ok inode, s)) (hfile : inode.isFile = true) :
    readWhole v ino (fuel + 2) 0 buf s = readInto v ino 0 buf s := by
  by_cases hnil : buf = []
  · rw [hnil]
    rfl
  have hpos : 0 < buf.length := List.length_pos_iff.mpr hnil
  cases hread : readInto v ino 0 buf s with
  | mk res s' =>
  have hsame : s' = s := by
    rw [← reads_readInto v ino 0 buf s, hread]
  subst hsame
  cases res with
  | error e =>
    rw [readWhole, if_pos hpos]
    exact Prog.bind_error hread
  | ok out =>
    obtain ⟨n, rest⟩ := out
    obtain ⟨hn, bytes, hlen, -, hrest⟩ := (readInto_iff hbs hinode hfile).mp hread
    have hsize : rest.length = buf.length := by
      rw [hrest, List.length_append, List.length_drop]
      omega
    rw [readWhole_succ hpos hread, List.take_zero, List.nil_append, Nat.zero_add]
    by_cases hzero : n = 0
    · rw [if_pos hzero, hzero]
    rw [if_neg hzero]
    by_cases hmore : n < rest.length
    · rw [readWhole_succ hmore (readInto_end hinode hfile (by omega)), if_pos rfl,
        List.take_append_drop]
    · rw [readWhole, if_neg hmore]
      rfl

/-- What reads of a regular file give: the bytes of its mapped blocks, however the range is cut. -/
theorem read_file_exact {ino : ℕ} (hbs : 0 < v.bs) (hinode : readInode v ino s = (.ok inode, s))
    (hfile : inode.isFile = true) (hsize : inode.size ≤ (2 ^ 32 - 1) * v.bs) (offset : ℕ)
    (buf : List UInt8) :
    (∀ n buf' s', readInto v ino offset buf s = (.ok (n, buf'), s') →
      s' = s ∧ n = min buf.length (inode.size - offset) ∧ buf'.length = buf.length ∧
        buf'.drop n = buf.drop n ∧ ∀ i < n,
          mapBlock v inode ((offset + i) / v.bs) s = (.ok none, s) ∧ buf'.getD i 0 = 0 ∨
            ∃ fsb b, mapBlock v inode ((offset + i) / v.bs) s = (.ok (some fsb), s) ∧
              readFsb v fsb s = (.ok b, s) ∧ buf'.getD i 0 = b ((offset + i) % v.bs)) ∧
      (∀ bufs : List (List UInt8), bufs.flatten = buf → ∀ n buf',
        readPieces v ino offset bufs s = (.ok (n, buf'), s) ↔
          readInto v ino offset buf s = (.ok (n, buf'), s)) ∧
      ∀ fuel, readWhole v ino (fuel + 2) 0 buf s = readInto v ino 0 buf s := by
  refine ⟨?_, ?_, fun fuel => readWhole_eq buf hbs hinode hfile⟩
  · intro n buf' s' hread
    have hsame : s' = s := by
      rw [← reads_readInto v ino offset buf s, hread]
    subst hsame
    obtain ⟨hn, bytes, hlen, hbytes, rfl⟩ := (readInto_iff hbs hinode hfile).mp hread
    refine ⟨rfl, hn, ?_, ?_, ?_⟩
    · rw [List.length_append, List.length_drop]
      omega
    · rw [← hlen, List.drop_left]
    · intro i hi
      rw [List.getD_append _ _ _ _ (by omega)]
      obtain ⟨b, hblock, hbyte⟩ := fileByte_iff.mp (hbytes i (by omega))
      have hlb : (offset + i) / v.bs < 2 ^ 32 := by
        rw [Nat.div_lt_iff_lt_mul hbs]
        omega
      rw [hbyte]
      rw [BlockBytes, Nat.mod_eq_of_lt hlb] at hblock
      rcases hblock with ⟨hmap, rfl⟩ | ⟨fsb, hmap, hblk⟩
      · exact Or.inl ⟨hmap, rfl⟩
      · exact Or.inr ⟨fsb, b, hmap, hblk, rfl⟩
  · rintro bufs rfl n buf'
    rw [readPieces_iff hbs hinode hfile, readInto_iff hbs hinode hfile]

/-- A file of 1028 bytes in inode 2, its first block a hole. -/
def sparseState : FsState where
  disk
    | 2 => Bytes.putLE (fun _ => 0) 0x08 4 3
    | 3 => Bytes.blit (fun _ => 0) 128 128 (wrExtent (wrHdr
        (Bytes.putLE (Bytes.putLE (fun _ => 0) 0x00 2 0x8000) 0x04 4 1028) iblock 1 4 0) iblock 0 ⟨1, 1, 4⟩)
    | 4 => fun k => UInt8.ofNat (k + 1)
    | _ => fun _ => 0
  freeBlocks := 0
  freeInodes := 0

theorem read_file_exact_sparse :
    (readInto tinyVolume 2 1022 (List.replicate 8 7) sparseState).1 =
        .ok (6, [0, 0, 1, 2, 3, 4, 7, 7]) ∧
      readPieces tinyVolume 2 1022 [List.replicate 3 7, List.replicate 5 7] sparseState =
        (.ok (6, [0, 0, 1, 2, 3, 4, 7, 7]), sparseState) := by
  have hread : (readInto tinyVolume 2 1022 (List.replicate 8 7) sparseState).1 =
      .ok (6, [0, 0, 1, 2, 3, 4, 7, 7]) := by
    decide +kernel
  have hinode : readInode tinyVolume 2 sparseState =
      (.ok (tinyVolume.parseInode 2 fun k => (sparseState.disk 3).clip 1024 (128 + k)), sparseState) := rfl
  obtain ⟨hexact, hpieces, -⟩ := read_file_exact (by decide) hinode (by decide) (by decide) 1022
    (List.replicate 8 7)
  have hrun : readInto tinyVolume 2 1022 (List.replicate 8 7) sparseState =
      (.ok (6, [0, 0, 1, 2, 3, 4, 7, 7]),
        (readInto tinyVolume 2 1022 (List.replicate 8 7) sparseState).2) := by
    rw [← hread]
  rw [(hexact _ _ _ hrun).1] at hrun
  exact ⟨hread, (hpieces [List.replicate 3 7, List.replicate 5 7] rfl _ _).mpr hrun⟩

end Pinx.Analysis
