import Pinx.Model.Ext4

/-!
# ext4: extents, directories and files

The blocks of a file hang from the 60 bytes at offset 0x28 of its inode, in a tree of
index nodes and leaves with up to a block's worth of 12-byte records each.  A call
works on a copy of the inode, and writes leaves as it goes and the inode last.
-/

namespace Pinx.Model

open Pinx.Foundation

variable (v : Ext4)

/-! ## Extent nodes -/

/-- SOURCE: ext4.rs:28 -/
def extMagic : ℕ := 0xF30A

/-- Where the root node stands in an inode.
SOURCE: ext4.rs:90 -/
def iblock : ℕ := 0x28

/-- The entries, the capacity and the depth in a node's header. -/
structure Header where
  entries : ℕ
  max : ℕ
  depth : ℕ
deriving DecidableEq, Repr

/-- SOURCE: ext4.rs:194-202 -/
def rdHdr (b : Bytes) (len base : ℕ) : Option Header :=
  if len < base + 12 then none
  else if b.getLE base 2 ≠ extMagic then none
  else some ⟨b.getLE (base + 2) 2, b.getLE (base + 4) 2, b.getLE (base + 6) 2⟩

/-- SOURCE: ext4.rs:204-210 -/
def wrHdr (b : Bytes) (base entries max depth : ℕ) : Bytes :=
  ((((b.putLE base 2 extMagic).putLE (base + 2) 2 entries).putLE (base + 4) 2 max).putLE
    (base + 6) 2 depth).putLE (base + 8) 4 0

/-- A leaf record: the first logical block, the length field and the first physical
block. -/
structure Extent where
  lb : ℕ
  len : ℕ
  pb : ℕ
deriving DecidableEq, Repr

/-- Record `i` of a leaf. -/
def extentAt (b : Bytes) (base i : ℕ) : Extent :=
  let o := base + 12 + 12 * i
  ⟨b.getLE o 4, b.getLE (o + 4) 2, b.getLE (o + 6) 2 * 2 ^ 32 + b.getLE (o + 8) 4⟩

/-- Record `i` of a leaf, if it is there and written.
SOURCE: ext4.rs:214-229 -/
def rdExtent (b : Bytes) (len base i : ℕ) : Option Extent :=
  if len < base + 12 + 12 * i + 12 then none
  else
    let e := extentAt b base i
    if e.len &&& 0x8000 ≠ 0 ∨ e.len = 0 then none else some e

/-- SOURCE: ext4.rs:231-237 -/
def wrExtent (b : Bytes) (base i : ℕ) (e : Extent) : Bytes :=
  let o := base + 12 + 12 * i
  (((b.putLE o 4 e.lb).putLE (o + 4) 2 e.len).putLE (o + 6) 2 (e.pb / 2 ^ 32)).putLE (o + 8) 4 e.pb

/-- Record `i` of an index node: the first logical block and the child. -/
def indexAt (b : Bytes) (base i : ℕ) : ℕ × ℕ :=
  let o := base + 12 + 12 * i
  (b.getLE o 4, b.getLE (o + 8) 2 * 2 ^ 32 + b.getLE (o + 4) 4)

/-- SOURCE: ext4.rs:240-248 -/
def rdIndex (b : Bytes) (len base i : ℕ) : Option (ℕ × ℕ) :=
  if len < base + 12 + 12 * i + 12 then none else some (indexAt b base i)

/-- SOURCE: ext4.rs:250-256 -/
def wrIndex (b : Bytes) (base i lb child : ℕ) : Bytes :=
  let o := base + 12 + 12 * i
  (((b.putLE o 4 lb).putLE (o + 4) 4 child).putLE (o + 8) 2 (child / 2 ^ 32)).putLE (o + 10) 2 0

/-- How a call of `wr_extent` or `wr_index` for record `i` ends in a buffer of `len` bytes.
SOURCE: ext4.rs:124-133, 231-237, 250-256 -/
def wroteRecord (len base i : ℕ) (b : Bytes) : Fs Bytes :=
  if len < base + 12 + 12 * i + 12 then crash .outOfBounds else pure b

/-- SOURCE: ext4.rs:852-854 -/
def Ext4.leafMax : ℕ := (v.bs - 12) / 12

/-- The checksum of an extent block with room for `max` records.
SOURCE: ext4.rs:869-872 -/
def Ext4.extentCsum (ino gen : ℕ) (blk : Bytes) (max : ℕ) : ℕ :=
  crc32c (v.inodeSeed ino gen) (blk.slice 0 (12 + 12 * max))

/-- SOURCE: ext4.rs:865-874 -/
def extentBlockCsum (ino gen : ℕ) (blk : Bytes) (max : ℕ) : Fs Bytes :=
  if v.metaCsum = false then pure blk
  else if maxBlockSize < 12 + 12 * max + 4 then crash .outOfBounds
  else pure (blk.putLE (12 + 12 * max) 4 (v.extentCsum ino gen blk max))

/-! ## Lookup -/

/-- A node as `map_block` holds it: its bytes, the length of the buffer they are in and
the node's place there. -/
structure Node where
  bytes : Bytes
  len : ℕ
  base : ℕ

/-- The root node of an inode, and a node in a block of its own. -/
def Inode.root (inode : Inode) : Node := ⟨inode.raw, maxInodeSize, iblock⟩
def blockNode (blk : Bytes) : Node := ⟨blk, maxBlockSize, 0⟩

/-- The leaf records from `i` on, `n` of them.
SOURCE: ext4.rs:888-902 -/
def scanLeaf (node : Node) (lb : ℕ) : ℕ → ℕ → Except FsFail (Option ℕ)
  | 0, _ => .ok none
  | n + 1, i =>
    match rdExtent node.bytes node.len node.base i with
    | none => scanLeaf node lb n (i + 1)
    | some e =>
      if e.lb ≤ lb then
        if 2 ^ 32 ≤ e.lb + e.len then .error (.fault .overflow)
        else if lb < e.lb + e.len then .ok (some (e.pb + (lb - e.lb)))
        else scanLeaf node lb n (i + 1)
      else scanLeaf node lb n (i + 1)

/-- The index records from `i` on, `n` of them: the child whose range covers `lb`.
SOURCE: ext4.rs:905-926 -/
def scanIndex (node : Node) (lb : ℕ) : ℕ → ℕ → Option ℕ
  | 0, _ => none
  | n + 1, i =>
    match rdIndex node.bytes node.len node.base i with
    | none => scanIndex node lb n (i + 1)
    | some (first, child) =>
      let next := if n = 0 then 2 ^ 32 - 1
        else match rdIndex node.bytes node.len node.base (i + 1) with
          | some (first', _) => first'
          | none => 2 ^ 32 - 1
      if first ≤ lb ∧ lb < next then some child else scanIndex node lb n (i + 1)

/-- The loop of `map_block`.  A walk visits each block at most once unless it never
ends, and there are at most `2 ^ 48` of them.  A child number of 0 is taken for the
inode again.
SOURCE: ext4.rs:887-937 -/
def mapLoop (inode : Inode) (lb : ℕ) : ℕ → Node → ℕ → ℕ → Fs (Option ℕ)
  | 0, _, _, _ => crash .outOfFuel
  | fuel + 1, node, entries, depth =>
    if depth = 0 then Prog.lift (scanLeaf node lb entries 0)
    else
      match scanIndex node lb entries 0 with
      | none => pure none
      | some child => do
        let buf ← readFsb v child
        match rdHdr buf maxBlockSize 0 with
        | none => return none
        | some h =>
          let next := if child = 0 then ⟨inode.raw, maxInodeSize, 0⟩ else blockNode buf
          mapLoop inode lb fuel next h.entries h.depth

/-- SOURCE: ext4.rs:877-938 -/
def mapBlock (inode : Inode) (lb : ℕ) : Fs (Option ℕ) :=
  match rdHdr inode.raw maxInodeSize iblock with
  | none => pure none
  | some h => mapLoop v inode lb (2 ^ 48 + 1) inode.root h.entries h.depth

/-! ## Insertion -/

/-- The records from `i` on, `n` of them, copied into an empty node from slot `j` on.
Records that are not there or not written are left out.
SOURCE: ext4.rs:973-977, 1032-1040 -/
def copyExtents (node : Node) : ℕ → ℕ → ℕ → Bytes → Bytes
  | 0, _, _, dst => dst
  | n + 1, i, j, dst =>
    copyExtents node n (i + 1) (j + 1)
      (match rdExtent node.bytes node.len node.base i with
        | some e => wrExtent dst 0 j e
        | none => dst)

/-- Whether the block goes right behind the last record of a node, as a longer record.
SOURCE: ext4.rs:957-964, 1008-1017 -/
def mergeLast (node : Node) (entries lb pblock : ℕ) : Except FsFail (Option Extent) :=
  if entries = 0 then .ok none
  else
    match rdExtent node.bytes node.len node.base (entries - 1) with
    | none => .ok none
    | some e =>
      if 2 ^ 32 ≤ e.lb + e.len then .error (.fault .overflow)
      else if e.lb + e.len = lb ∧ e.pb + e.len = pblock then .ok (some { e with len := e.len + 1 })
      else .ok none

/-- The first logical block of the upper half of a leaf, 0 if its record is unwritten.
SOURCE: ext4.rs:1031-1037 -/
def firstLb (blk : Bytes) (half : ℕ) : ℕ :=
  match rdExtent blk maxBlockSize 0 half with
  | some e => e.lb
  | none => 0

/-- SOURCE: ext4.rs:994-1057 -/
def placeInRightmostLeaf (inode : Inode) (lb pblock : ℕ) : Fs (Bool × Inode) := do
  match rdHdr inode.raw maxInodeSize iblock with
  | none => failWith .corrupt
  | some root =>
    if root.entries = 0 then crash .overflow
    else
      match rdIndex inode.raw maxInodeSize iblock (root.entries - 1) with
      | none => failWith .corrupt
      | some (_, leaf) => do
        let blk ← readFsb v leaf
        match rdHdr blk maxBlockSize 0 with
        | none => failWith .corrupt
        | some h =>
          match ← Prog.lift (mergeLast (blockNode blk) h.entries lb pblock) with
          | some e => do
            let blk ← extentBlockCsum v inode.ino inode.gen (wrExtent blk 0 (h.entries - 1) e) h.max
            writeFsb v leaf blk
            return (true, inode)
          | none =>
            if h.entries < h.max then do
              let blk ← wroteRecord maxBlockSize 0 h.entries (wrExtent blk 0 h.entries ⟨lb, 1, pblock⟩)
              let blk := wrHdr blk 0 (h.entries + 1) h.max 0
              let blk ← extentBlockCsum v inode.ino inode.gen blk h.max
              writeFsb v leaf blk
              return (true, inode)
            else
              let half := h.entries / 2
              if half = 0 then failWith .noSpace
              else do
                let newLeaf ← allocBlock v
                let upper := copyExtents (blockNode blk) (h.entries - half) half 0 fun _ => 0
                let lower ← extentBlockCsum v inode.ino inode.gen (wrHdr blk 0 half h.max 0) h.max
                let upper ← extentBlockCsum v inode.ino inode.gen
                  (wrHdr upper 0 (h.entries - half) h.max 0) h.max
                writeFsb v leaf lower
                writeFsb v newLeaf upper
                if root.max ≤ root.entries then failWith .noSpace
                else do
                  let raw ← wroteRecord maxInodeSize iblock root.entries
                    (wrIndex inode.raw iblock root.entries (firstLb blk half) newLeaf)
                  return (false, { inode with raw := wrHdr raw iblock (root.entries + 1) root.max 1 })

/-- Two attempts: the second one finds the leaf a split has made.
SOURCE: ext4.rs:984-991 -/
def placeTwice (inode : Inode) (lb pblock : ℕ) : Fs Inode := do
  let (done, inode) ← placeInRightmostLeaf v inode lb pblock
  if done then return inode
  else do
    let (done, inode) ← placeInRightmostLeaf v inode lb pblock
    if done then return inode else failWith .noSpace

/-- The records of a full root moved to a leaf of their own.
SOURCE: ext4.rs:969-981 -/
def deepen (inode : Inode) (entries max : ℕ) : Fs Inode := do
  let leaf ← allocBlock v
  let blk := copyExtents inode.root entries 0 0 fun _ => 0
  let blk ← extentBlockCsum v inode.ino inode.gen (wrHdr blk 0 entries v.leafMax 0) v.leafMax
  writeFsb v leaf blk
  return { inode with raw := wrIndex (wrHdr inode.raw iblock 1 max 1) iblock 0 0 leaf }

/-- The insertion into an inode with this header.
SOURCE: ext4.rs:956-991 -/
def insertBelow (inode : Inode) (h : Header) (lb pblock : ℕ) : Fs Inode :=
  if h.depth = 0 then do
    match ← Prog.lift (mergeLast inode.root h.entries lb pblock) with
    | some e => return { inode with raw := wrExtent inode.raw iblock (h.entries - 1) e }
    | none =>
      if h.entries < h.max then do
        let raw ← wroteRecord maxInodeSize iblock h.entries
          (wrExtent inode.raw iblock h.entries ⟨lb, 1, pblock⟩)
        return { inode with raw := wrHdr raw iblock (h.entries + 1) h.max 0 }
      else do
        let inode ← deepen v inode h.entries h.max
        placeTwice v inode lb pblock
  else placeTwice v inode lb pblock

/-- An inode without a header gets an empty one first.
SOURCE: ext4.rs:944-992 -/
def insertExtent (inode : Inode) (lb pblock : ℕ) : Fs Inode :=
  match rdHdr inode.raw maxInodeSize iblock with
  | some h => insertBelow v inode h lb pblock
  | none => insertBelow v { inode with raw := wrHdr inode.raw iblock 0 4 0 } ⟨0, 4, 0⟩ lb pblock

/-- The sum of `f i`, `f (i + 1)`, .., `n` of them. -/
def sumRange (f : ℕ → Fs ℕ) : ℕ → ℕ → Fs ℕ
  | 0, _ => pure 0
  | n + 1, i => do
    let x ← f i
    let rest ← sumRange f n (i + 1)
    return x + rest

/-- SOURCE: ext4.rs:1068-1088 -/
def nodeSum : ℕ → Node → Fs ℕ
  | 0, node =>
    match rdHdr node.bytes node.len node.base with
    | none => pure 0
    | some h => sumRange (fun i => pure (match rdExtent node.bytes node.len node.base i with
        | some e => e.len
        | none => 0)) h.entries 0
  | depth + 1, node =>
    match rdHdr node.bytes node.len node.base with
    | none => pure 0
    | some h => sumRange (fun i =>
        match rdIndex node.bytes node.len node.base i with
        | none => failWith .corrupt
        | some (_, child) => do
          let blk ← readFsb v child
          nodeSum depth (blockNode blk)) h.entries 0

/-- SOURCE: ext4.rs:1060-1066 -/
def recountBlocks (inode : Inode) : Fs ℕ :=
  match rdHdr inode.raw maxInodeSize iblock with
  | none => pure 0
  | some h => do
    let total ← nodeSum v h.depth inode.root
    return total * (v.bs / 512)

/-! ## Directories -/

/-- SOURCE: ext4.rs:135-137 -/
def roundDirSize (nameLen : ℕ) : ℕ := 8 + (nameLen + 3) / 4 * 4

/-- SOURCE: ext4.rs:856-862 -/
def Ext4.dirLimit : ℕ := if v.metaCsum then v.bs - 12 else v.bs

/-- The number of blocks a directory of this size has.
SOURCE: ext4.rs:1114, 1153, 1194 -/
def dirBlocks (size : ℕ) : Fs ℕ :=
  if 2 ^ 64 ≤ size + v.bs then crash .overflow else pure ((size + v.bs - 1) / v.bs)

/-- The checksum of a directory block.
SOURCE: ext4.rs:1101-1103 -/
def Ext4.dirCsum (ino gen : ℕ) (blk : Bytes) : ℕ :=
  crc32c (v.inodeSeed ino gen) (blk.slice 0 (v.bs - 12))

/-- SOURCE: ext4.rs:1092-1105 -/
def Ext4.dirTailCsum (ino gen : ℕ) (blk : Bytes) : Bytes :=
  if v.metaCsum then
    let blk := blk.putLE (v.bs - 12) 4 0
    let blk := blk.putLE (v.bs - 8) 2 12
    let blk := blk.putLE (v.bs - 6) 1 0
    let blk := blk.putLE (v.bs - 5) 1 0xDE
    blk.putLE (v.bs - 4) 4 (v.dirCsum ino gen blk)
  else blk

/-- A directory entry written at `pos`.
SOURCE: ext4.rs:259-265 -/
def fillEntry (b : Bytes) (pos reclen ino ft : ℕ) (name : List UInt8) : Fs Bytes :=
  if maxBlockSize < pos + 8 + name.length then crash .outOfBounds
  else
    let b := b.putLE pos 4 ino
    let b := b.putLE (pos + 4) 2 reclen
    let b := b.putLE (pos + 6) 1 name.length
    let b := b.putLE (pos + 7) 1 ft
    pure (b.blit (pos + 8) name.length fun k => name.getD k 0)

/-- An entry as `read_dir` reports it.
SOURCE: ext4.rs:158-164 -/
structure DirEnt where
  ino : ℕ
  fileType : ℕ
  name : List UInt8
deriving DecidableEq, Repr

/-- The entries of one block from `pos` on, after `n` entries of which those that fit into
a buffer of `cap` entries are in `out`.
SOURCE: ext4.rs:1123-1140 -/
def listBlk (blk : Bytes) (cap : ℕ) :
    ℕ → ℕ → List DirEnt → ℕ → Except FsFail (List DirEnt × ℕ)
  | 0, _, out, n => .ok (out, n)
  | fuel + 1, pos, out, n =>
    if v.dirLimit < pos + 8 then .ok (out, n)
    else
      let reclen := blk.getLE (pos + 4) 2
      let nlen := blk.getLE (pos + 6) 1
      if reclen = 0 then .ok (out, n)
      else if blk.getLE pos 4 ≠ 0 ∧ nlen ≤ 255 then
        if n < cap then
          if maxBlockSize < pos + 8 + nlen then .error (.fault .outOfBounds)
          else
            let entry := ⟨blk.getLE pos 4, blk.getLE (pos + 7) 1, blk.slice (pos + 8) nlen⟩
            listBlk blk cap fuel (pos + reclen) (out ++ [entry]) (n + 1)
        else listBlk blk cap fuel (pos + reclen) out (n + 1)
      else listBlk blk cap fuel (pos + reclen) out n

/-- The blocks of a directory from `lb` on, `k` of them.
SOURCE: ext4.rs:1120-1142 -/
def readDirLoop (inode : Inode) (cap : ℕ) : ℕ → ℕ → List DirEnt → ℕ → Fs (List DirEnt × ℕ)
  | 0, _, out, n => pure (out, n)
  | k + 1, lb, out, n => do
    match ← mapBlock v inode (lb % 2 ^ 32) with
    | none => readDirLoop inode cap k (lb + 1) out n
    | some fsb => do
      let blk ← readFsb v fsb
      let (out, n) ← Prog.lift (listBlk v blk cap maxBlockSize 0 out n)
      readDirLoop inode cap k (lb + 1) out n

/-- What `read_dir` puts into a buffer of `cap` entries, and the number it returns.
SOURCE: ext4.rs:1107-1144 -/
def readDir (ino cap : ℕ) : Fs (List DirEnt × ℕ) := do
  let inode ← readInode v ino
  if inode.isDir = false then failWith .invalid
  else do
    let blocks ← dirBlocks v inode.size
    readDirLoop v inode cap blocks 0 [] 0

/-- The entries of one block from `pos` on: the inode of the one with this name.
SOURCE: ext4.rs:1159-1173 -/
def lookupBlk (blk : Bytes) (name : List UInt8) : ℕ → ℕ → Except FsFail (Option ℕ)
  | 0, _ => .ok none
  | fuel + 1, pos =>
    if v.dirLimit < pos + 8 then .ok none
    else
      let reclen := blk.getLE (pos + 4) 2
      if reclen = 0 then .ok none
      else if blk.getLE pos 4 ≠ 0 ∧ blk.getLE (pos + 6) 1 = name.length then
        if maxBlockSize < pos + 8 + name.length then .error (.fault .outOfBounds)
        else if blk.slice (pos + 8) name.length = name then .ok (some (blk.getLE pos 4))
        else lookupBlk blk name fuel (pos + reclen)
      else lookupBlk blk name fuel (pos + reclen)

/-- The blocks of a directory from `lb` on, `n` of them.
SOURCE: ext4.rs:1156-1176 -/
def lookupLoop (inode : Inode) (name : List UInt8) : ℕ → ℕ → Fs (Option ℕ)
  | 0, _ => pure none
  | n + 1, lb => do
    match ← mapBlock v inode (lb % 2 ^ 32) with
    | none => lookupLoop inode name n (lb + 1)
    | some fsb => do
      let blk ← readFsb v fsb
      match ← Prog.lift (lookupBlk v blk name maxBlockSize 0) with
      | some ino => return some ino
      | none => lookupLoop inode name n (lb + 1)

/-- SOURCE: ext4.rs:1146-1177 -/
def lookup (dir : ℕ) (name : List UInt8) : Fs (Option ℕ) := do
  let inode ← readInode v dir
  if inode.isDir = false then failWith .invalid
  else do
    let blocks ← dirBlocks v inode.size
    lookupLoop v inode name blocks 0

/-- Room for an entry in a block: an unused entry, or the end of the last one. -/
inductive DirSlot where
  | unused (pos reclen : ℕ)
  | behind (lastPos lastActual slack : ℕ)
deriving DecidableEq, Repr

/-- The entries of one block from `pos` on, with what was seen of the last one.
SOURCE: ext4.rs:1201-1222 -/
def findSlot (blk : Bytes) (needed : ℕ) : ℕ → ℕ → ℕ → ℕ → ℕ → Option DirSlot
  | 0, _, _, _, _ => none
  | fuel + 1, pos, lastPos, lastRec, lastActual =>
    let reclen := blk.getLE (pos + 4) 2
    if v.dirLimit < pos + 8 ∨ reclen = 0 then
      if lastActual + needed ≤ lastRec then some (.behind lastPos lastActual (lastRec - lastActual))
      else none
    else
      let ino := blk.getLE pos 4
      if ino = 0 ∧ needed ≤ reclen then some (.unused pos reclen)
      else
        findSlot blk needed fuel (pos + reclen) pos reclen
          (if ino = 0 then 0 else roundDirSize (blk.getLE (pos + 6) 1))

/-- The block with the entry in its slot. -/
def fillSlot (blk : Bytes) (slot : DirSlot) (target ft : ℕ) (name : List UInt8) : Fs Bytes :=
  match slot with
  | .unused pos reclen => fillEntry blk pos reclen target ft name
  | .behind lastPos lastActual slack =>
    fillEntry (blk.putLE (lastPos + 4) 2 lastActual) (lastPos + lastActual) slack target ft name

/-- The blocks of a directory from `lb` on, `n` of them: the first one with room.
SOURCE: ext4.rs:1198-1232 -/
def slotLoop (inode : Inode) (needed : ℕ) : ℕ → ℕ → Fs (Option (ℕ × Bytes × DirSlot))
  | 0, _ => pure none
  | n + 1, lb => do
    match ← mapBlock v inode (lb % 2 ^ 32) with
    | none => slotLoop inode needed n (lb + 1)
    | some fsb => do
      let blk ← readFsb v fsb
      match findSlot v blk needed (maxBlockSize + 1) 0 0 0 0 with
      | some slot => return some (fsb, blk, slot)
      | none => slotLoop inode needed n (lb + 1)

/-- A new block for a directory that is full, with the entry in it.
SOURCE: ext4.rs:1234-1245 -/
def growDir (inode : Inode) (blocks target ft : ℕ) (name : List UInt8) : Fs Unit := do
  let fsb ← allocBlock v
  let nb ← fillEntry (fun _ => 0) 0 v.dirLimit target ft name
  writeFsb v fsb (v.dirTailCsum inode.ino inode.gen nb)
  let inode ← insertExtent v inode (blocks % 2 ^ 32) fsb
  let inode := { inode with size := inode.size + v.bs }
  let total ← recountBlocks v inode
  writeInode v { inode with blocks := total }

/-- SOURCE: ext4.rs:1180-1246 -/
def addDirent (dir : ℕ) (name : List UInt8) (target ft : ℕ) : Fs Unit :=
  if name = [] ∨ 255 < name.length then failWith .invalid
  else do
    let inode ← readInode v dir
    if inode.isDir = false then failWith .invalid
    else if inode.flags &&& 0x1000 ≠ 0 then failWith .readOnly
    else do
      let blocks ← dirBlocks v inode.size
      match ← slotLoop v inode (roundDirSize name.length) blocks 0 with
      | some (fsb, blk, slot) => do
        let blk ← fillSlot blk slot target ft name
        writeFsb v fsb (v.dirTailCsum inode.ino inode.gen blk)
      | none => growDir v inode blocks target ft name

/-! ## Files -/

/-- The loop over the blocks of a read, which fills `take` bytes of the caller's buffer; `done` of them
are filled.
SOURCE: ext4.rs:1266-1278 -/
def fillLoop (inode : Inode) (offset take : ℕ) : ℕ → ℕ → List UInt8 → Fs (List UInt8)
  | 0, _, buf => pure buf
  | fuel + 1, done, buf =>
    if take ≤ done then pure buf
    else do
      let cur := offset + done
      let count := min (v.bs - cur % v.bs) (take - done)
      let bytes ← (do
        match ← mapBlock v inode (cur / v.bs % 2 ^ 32) with
        | some fsb =>
          let blk ← readFsb v fsb
          return blk.slice (cur % v.bs) count
        | none => return List.replicate count 0)
      fillLoop inode offset take fuel (done + count) (buf.take done ++ bytes ++ buf.drop (done + count))

/-- The count `read_file` returns, and the buffer it leaves.
SOURCE: ext4.rs:1250-1280 -/
def readInto (ino offset : ℕ) (buf : List UInt8) : Fs (ℕ × List UInt8) :=
  if buf = [] then pure (0, buf)
  else do
    let inode ← readInode v ino
    if inode.isFile = false then failWith .invalid
    else if inode.size ≤ offset then return (0, buf)
    else do
      let take := min (inode.size - offset) buf.length
      let buf ← fillLoop v inode offset take take 0 buf
      return (take, buf)

/-- The bytes `read_file` puts into a buffer of `len` bytes. -/
def readFile (ino offset len : ℕ) : Fs (List UInt8) := do
  let (n, buf) ← readInto v ino offset (List.replicate len 0)
  return buf.take n

/-- The loop of `user::read_file` over the buffer of a whole file, `done` bytes of it read.
SOURCE: user.rs:150-166 -/
def readWhole (ino : ℕ) : ℕ → ℕ → List UInt8 → Fs (ℕ × List UInt8)
  | 0, _, _ => crash .outOfFuel
  | fuel + 1, done, buf =>
    if done < buf.length then do
      let (n, rest) ← readInto v ino done (buf.drop done)
      if n = 0 then return (done, buf.take done ++ rest)
      else readWhole ino fuel (done + n) (buf.take done ++ rest)
    else pure (done, buf)

/-- The block of a file as it is, or a new empty one.
SOURCE: ext4.rs:1301-1307 -/
def openBlock (inode : Inode) (lb : ℕ) : Fs (Inode × Bytes) := do
  match ← mapBlock v inode lb with
  | some fsb =>
    let blk ← readFsb v fsb
    return (inode, blk)
  | none => do
    let fsb ← allocBlock v
    let inode ← insertExtent v inode lb fsb
    return (inode, fun _ => 0)

/-- One turn of the loop of `write_file`.
SOURCE: ext4.rs:1296-1312 -/
def writeTurn (inode : Inode) (cur count : ℕ) (bytes : List UInt8) : Fs Inode := do
  let lb := cur / v.bs % 2 ^ 32
  let (inode, blk) ← openBlock v inode lb
  match ← mapBlock v inode lb with
  | none => failWith .corrupt
  | some fsb => do
    writeFsb v fsb (blk.blit (cur % v.bs) count fun k => bytes.getD k 0)
    return inode

/-- The bytes of a write that go into the block byte `cur` of the file is in. -/
def Ext4.turnCount (cur : ℕ) (bytes : List UInt8) : ℕ := min (v.bs - cur % v.bs) bytes.length

/-- The loop of `write_file`, with `bytes` left from byte `cur` of the file on.
SOURCE: ext4.rs:1295-1313 -/
def writeLoop : ℕ → Inode → ℕ → List UInt8 → Fs Inode
  | 0, inode, _, _ => pure inode
  | fuel + 1, inode, cur, bytes =>
    if bytes = [] then pure inode
    else do
      let count := v.turnCount cur bytes
      let inode ← writeTurn v inode cur count bytes
      writeLoop fuel inode (cur + count) (bytes.drop count)

/-- SOURCE: ext4.rs:1282-1320 -/
def writeFile (ino offset : ℕ) (buf : List UInt8) : Fs Unit :=
  if buf = [] then pure ()
  else do
    let inode ← readInode v ino
    if inode.isFile = false then failWith .invalid
    else if 2 ^ 64 ≤ offset + buf.length then crash .overflow
    else do
      let inode ← writeLoop v buf.length inode offset buf
      let inode := { inode with size := max inode.size (offset + buf.length) }
      let total ← recountBlocks v inode
      writeInode v { inode with blocks := total }

/-- The inode of a new file or directory before it has a block.
SOURCE: ext4.rs:1329-1339 -/
def newInode (ino : ℕ) (isDir : Bool) : Inode where
  ino := ino
  mode := if isDir then 0x4000 ||| 0o755 else 0x8000 ||| 0o644
  size := 0
  blocks := 0
  flags := 0x80000
  raw := ((wrHdr (fun _ => 0) iblock 0 4 0).putLE 0x1A 2 (if isDir then 2 else 1)).putLE 0x80 2 28

/-- The first block of a new directory, with its two entries.
SOURCE: ext4.rs:1341-1353 -/
def firstDirBlock (inode : Inode) (dir : ℕ) : Fs Inode := do
  let fsb ← allocBlock v
  let nb ← fillEntry (fun _ => 0) 0 12 inode.ino 2 [0x2E]
  let nb ← fillEntry nb 12 (v.dirLimit - 12) dir 2 [0x2E, 0x2E]
  writeFsb v fsb (v.dirTailCsum inode.ino 0 nb)
  return { inode with
    size := v.bs
    blocks := v.bs / 512
    raw := wrExtent (wrHdr inode.raw iblock 1 4 0) iblock 0 ⟨0, 1, fsb⟩ }

/-- The part of `create` that makes the inode.
SOURCE: ext4.rs:1325-1355 -/
def createInode (dir : ℕ) (name : List UInt8) (isDir : Bool) : Fs ℕ := do
  match ← lookup v dir name with
  | some _ => failWith .alreadyExists
  | none => do
    let ino ← allocInode v isDir
    let inode ← if isDir then firstDirBlock v (newInode ino isDir) dir else pure (newInode ino isDir)
    writeInode v inode
    return ino

/-- A link more for the parent of a new directory.
SOURCE: ext4.rs:1359-1364 -/
def linkParent (dir : ℕ) : Fs Unit := do
  let parent ← readInode v dir
  let links := parent.raw.getLE 0x1A 2
  if links + 1 = 2 ^ 16 then crash .overflow
  else writeInode v { parent with raw := parent.raw.putLE 0x1A 2 (links + 1) }

/-- SOURCE: ext4.rs:1324-1366 -/
def create (dir : ℕ) (name : List UInt8) (isDir : Bool) : Fs ℕ := do
  let ino ← createInode v dir name isDir
  addDirent v dir name ino (if isDir then 2 else 1)
  if isDir then linkParent v dir else pure ()
  return ino

/-- SOURCE: ext4.rs:1368-1374 -/
def createFile (dir : ℕ) (name : List UInt8) : Fs ℕ := create v dir name false
def createDir (dir : ℕ) (name : List UInt8) : Fs ℕ := create v dir name true

end Pinx.Model
