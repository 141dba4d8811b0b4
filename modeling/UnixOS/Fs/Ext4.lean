import UnixOS.Lib.Memory
import UnixOS.Lib.ByteBitmap
import UnixOS.Lib.Fallible
import Mathlib.Logic.Function.Basic

/-! # The ext4 driver of `kernel/fs/ext4.c`

The mounted file system is held as the source holds it: the superblock, the group descriptors and
an inode are the bytes of their packed structures, read and written at the offsets of the fields.
The device maps block numbers to blocks. Whether the next `kmalloc` and the next device transfer
succeed is read off streams; the buffers of zeros for new indirect blocks have a stream of their own.
-/

namespace UnixOS.Fs.Ext4

open ByteMemory ByteBitmap Fallible

structure Ext4Fs where
  sb : Mem
  blockSize : Nat
  blocksPerGroup : Nat
  inodesPerGroup : Nat
  inodeSize : Nat
  groupCount : Nat
  descSize : Nat
  groupDescs : Mem

structure Volume where
  fs : Ext4Fs
  disk : Nat → Mem
  mem : Nat → Bool
  zeros : Nat → Bool
  io : Nat → Bool

abbrev Ext4M := Run Volume

def sIfdir : Nat := 0x4000
def ndirBlocks : Nat := 12
def indBlock : Nat := 12
def dindBlock : Nat := 13
def inodeBytes : Nat := 116

/-! ### Fields -/

def Ext4Fs.firstDataBlock (fs : Ext4Fs) : Nat := load fs.sb 4 20

def Ext4Fs.ptrsPerBlock (fs : Ext4Fs) : Nat := fs.blockSize / 4

/-- A block number of descriptor `group`, kept in two halves. -/
def Ext4Fs.descBlock (fs : Ext4Fs) (group lo hi : Nat) : Nat :=
  if fs.descSize ≥ 64 then
    load fs.groupDescs 4 (64 * group + lo) ||| (load fs.groupDescs 4 (64 * group + hi) <<< 32)
  else load fs.groupDescs 4 (64 * group + lo)

def Ext4Fs.inodeTable (fs : Ext4Fs) (group : Nat) : Nat := fs.descBlock group 8 40

def ext4GetBlockBitmap (fs : Ext4Fs) (group : Nat) : Nat :=
  if group ≥ fs.groupCount then 0 else fs.descBlock group 0 32

def ext4GetInodeBitmap (fs : Ext4Fs) (group : Nat) : Nat :=
  if group ≥ fs.groupCount then 0 else fs.descBlock group 4 36

def iSizeLo (inode : Mem) : Nat := load inode 4 4
def iBlock (inode : Mem) (k : Nat) : Nat := load inode 4 (40 + 4 * k)
def setISizeLo (inode : Mem) (v : Nat) : Mem := store inode 4 4 v
def setISizeHi (inode : Mem) (v : Nat) : Mem := store inode 108 4 v
def setIMtime (inode : Mem) (v : Nat) : Mem := store inode 16 4 v
def setIBlock (inode : Mem) (k v : Nat) : Mem := store inode (40 + 4 * k) 4 v
def addIBlocks (inode : Mem) (n : Nat) : Mem := store inode 28 4 (load inode 4 28 + n)
def addILinks (inode : Mem) (n : Nat) : Mem := store inode 26 2 (load inode 2 26 + n)

def zeroBlock : Mem := fun _ => 0

/-! ### Memory and device -/

def kmalloc : Ext4M Unit := fun st =>
  (if st.mem 0 then some () else none, { st with mem := fun n => st.mem (n + 1) })

/-- The `kmalloc` of the buffer that clears a new indirect block. -/
def kmallocZeros : Ext4M Unit := fun st =>
  (if st.zeros 0 then some () else none, { st with zeros := fun n => st.zeros (n + 1) })

def ext4ReadBlock (block : Nat) : Ext4M Mem := fun st =>
  (if st.io 0 then some (st.disk block) else none, { st with io := fun n => st.io (n + 1) })

def ext4WriteBlockRaw (block : Nat) (buf : Mem) : Ext4M Unit := fun st =>
  if st.io 0 then
    (some (), { st with
      disk := Function.update st.disk block buf, io := fun n => st.io (n + 1) })
  else (none, { st with io := fun n => st.io (n + 1) })

/-! ### Bitmaps -/

/-- The first clear bit, byte by byte; a byte whose first clear bit lies at `limit` or behind is
left at once. -/
def findFreeBit (bitmap : Mem) (bytes limit : Nat) : Option Nat :=
  (List.range bytes).findSome? fun byte =>
    if bitmap byte = 0xFF then none
    else
      match (List.range 8).find? fun bit => bitmap byte &&& bitMask bit = 0 with
      | none => none
      | some bit => if byte * 8 + bit ≥ limit then none else some (byte * 8 + bit)

/-- What the block and the inode allocator have of their own: where the bitmap of a group is, how
many of its bytes and bits count, and where the free counts are kept. -/
structure Bitmap where
  block : Ext4Fs → Nat → Nat
  bytes : Ext4Fs → Nat
  limit : Ext4Fs → Nat
  groupLo : Nat
  groupHi : Nat
  superCount : Nat

def blockBitmap : Bitmap :=
  { block := ext4GetBlockBitmap, bytes := fun fs => fs.blockSize
    limit := fun fs => fs.blocksPerGroup, groupLo := 12, groupHi := 44, superCount := 12 }

def inodeBitmap : Bitmap :=
  { block := ext4GetInodeBitmap, bytes := fun fs => fs.inodesPerGroup / 8
    limit := fun fs => fs.inodesPerGroup, groupLo := 14, groupHi := 46, superCount := 16 }

def Bitmap.freeCount (b : Bitmap) (fs : Ext4Fs) (group : Nat) : Nat :=
  if fs.descSize ≥ 64 then
    load fs.groupDescs 2 (64 * group + b.groupLo) |||
      (load fs.groupDescs 2 (64 * group + b.groupHi) <<< 16)
  else load fs.groupDescs 2 (64 * group + b.groupLo)

def Bitmap.count (b : Bitmap) (fs : Ext4Fs) (group n16 n32 : Nat) : Ext4Fs :=
  { fs with
    groupDescs := store fs.groupDescs (64 * group + b.groupLo) 2
      (load fs.groupDescs 2 (64 * group + b.groupLo) + n16)
    sb := store fs.sb b.superCount 4 (load fs.sb 4 b.superCount + n32) }

/-- Takes a bit of one group; `none` sends the search on to the next group. -/
def Bitmap.takeIn (b : Bitmap) (group : Nat) : Ext4M (Option Nat) := do
  let st ← Run.get
  if b.freeCount st.fs group = 0 then pure none
  else
    match ← (ext4ReadBlock (b.block st.fs group)).attempt with
    | none => pure none
    | some bitmap =>
      match findFreeBit bitmap (b.bytes st.fs) (b.limit st.fs) with
      | none => pure none
      | some index => do
        ext4WriteBlockRaw (b.block st.fs group) (setBit bitmap index)
        Run.modify fun st => { st with fs := b.count st.fs group 65535 (2 ^ 32 - 1) }
        pure (some index)

def Bitmap.takeFrom (b : Bitmap) : List Nat → Ext4M (Nat × Nat)
  | [] => Run.fail
  | group :: rest => do
    match ← b.takeIn group with
    | some index => pure (group, index)
    | none => b.takeFrom rest

def Bitmap.take (b : Bitmap) (preferredGroup : Nat) : Ext4M (Nat × Nat) := do
  kmalloc
  let st ← Run.get
  b.takeFrom ((List.range st.fs.groupCount).map fun g =>
    (preferredGroup + g) % 2 ^ 32 % st.fs.groupCount)

def Bitmap.release (b : Bitmap) (group index : Nat) : Ext4M Unit := do
  kmalloc
  let st ← Run.get
  let bitmap ← ext4ReadBlock (b.block st.fs group)
  ext4WriteBlockRaw (b.block st.fs group) (clearBit bitmap index)
  Run.modify fun st => { st with fs := b.count st.fs group 1 1 }

/-- A number returned as `int`: the callers take it for an error from `2 ^ 31` on. -/
def asInt (n : Nat) : Ext4M Nat :=
  if n % 2 ^ 32 < 2 ^ 31 then pure (n % 2 ^ 32) else Run.fail

def ext4AllocBlock (preferredGroup : Nat) : Ext4M Nat := do
  let (group, index) ← blockBitmap.take preferredGroup
  let st ← Run.get
  asInt (st.fs.firstDataBlock + group * st.fs.blocksPerGroup + index)

def ext4FreeBlock (block : Nat) : Ext4M Unit := do
  let st ← Run.get
  if block < st.fs.firstDataBlock then Run.fail
  else
    let rel := block - st.fs.firstDataBlock
    let group := rel / st.fs.blocksPerGroup % 2 ^ 32
    if group ≥ st.fs.groupCount then Run.fail
    else blockBitmap.release group (rel % st.fs.blocksPerGroup)

def ext4AllocInode (preferredGroup : Nat) : Ext4M Nat := do
  let (group, index) ← inodeBitmap.take preferredGroup
  let st ← Run.get
  asInt (group * st.fs.inodesPerGroup + index + 1)

def ext4FreeInode (ino : Nat) : Ext4M Unit := do
  let st ← Run.get
  if ino = 0 then Run.fail
  else
    let group := (ino - 1) / st.fs.inodesPerGroup
    if group ≥ st.fs.groupCount then Run.fail
    else inodeBitmap.release group ((ino - 1) % st.fs.inodesPerGroup)

/-! ### Inodes -/

def Ext4Fs.inodeGroup (fs : Ext4Fs) (ino : Nat) : Nat := (ino - 1) / fs.inodesPerGroup

def Ext4Fs.inodeByte (fs : Ext4Fs) (ino : Nat) : Nat :=
  (ino - 1) % fs.inodesPerGroup * fs.inodeSize % 2 ^ 32

def Ext4Fs.inodeBlock (fs : Ext4Fs) (ino : Nat) : Nat :=
  fs.inodeTable (fs.inodeGroup ino) + fs.inodeByte ino / fs.blockSize

def Ext4Fs.inodeOffset (fs : Ext4Fs) (ino : Nat) : Nat := fs.inodeByte ino % fs.blockSize

def ext4ReadInode (ino : Nat) : Ext4M Mem := do
  let st ← Run.get
  if ino = 0 then Run.fail
  else if st.fs.inodeGroup ino ≥ st.fs.groupCount then Run.fail
  else do
    kmalloc
    let buf ← ext4ReadBlock (st.fs.inodeBlock ino)
    pure fun i => buf (st.fs.inodeOffset ino + i)

def ext4WriteInode (ino : Nat) (inode : Mem) : Ext4M Unit := do
  let st ← Run.get
  if ino = 0 then Run.fail
  else if st.fs.inodeGroup ino ≥ st.fs.groupCount then Run.fail
  else do
    kmalloc
    let buf ← ext4ReadBlock (st.fs.inodeBlock ino)
    ext4WriteBlockRaw (st.fs.inodeBlock ino) (fill buf (st.fs.inodeOffset ino) inodeBytes inode)

/-! ### Block mapping -/

def readPointer (block index : Nat) : Ext4M Nat := do
  match ← (do kmalloc; ext4ReadBlock block : Ext4M Mem).attempt with
  | none => pure 0
  | some buf => pure (load buf 4 (4 * index))

def ext4GetFileBlock (inode : Mem) (fileBlock : Nat) : Ext4M Nat := do
  let st ← Run.get
  let ptrs := st.fs.ptrsPerBlock
  if fileBlock < ndirBlocks then pure (iBlock inode fileBlock)
  else if fileBlock - ndirBlocks < ptrs then
    if iBlock inode indBlock = 0 then pure 0
    else readPointer (iBlock inode indBlock) (fileBlock - ndirBlocks)
  else if fileBlock - ndirBlocks - ptrs < ptrs * ptrs % 2 ^ 32 then
    if iBlock inode dindBlock = 0 then pure 0
    else do
      let ind ← readPointer (iBlock inode dindBlock) ((fileBlock - ndirBlocks - ptrs) / ptrs)
      if ind = 0 then pure 0
      else readPointer ind ((fileBlock - ndirBlocks - ptrs) % ptrs)
  else pure 0

/-- Gives the inode an indirect block if it has none; `none` when no block is free. The block stays
as it was where no buffer of zeros can be had. -/
def ensureIndirect (inode : Mem) (group : Nat) : Ext4M (Option Mem) := do
  if iBlock inode indBlock ≠ 0 then pure (some inode)
  else
    match ← (ext4AllocBlock group).attempt with
    | none => pure none
    | some newBlock => do
      let _ ← (do kmallocZeros; ext4WriteBlockRaw newBlock zeroBlock : Ext4M Unit).attempt
      pure (some (setIBlock inode indBlock newBlock))

/-- Returns whether the mapping was stored, with the caller's inode as the call leaves it. -/
def ext4SetFileBlock (inode : Mem) (fileBlock diskBlock ino : Nat) : Ext4M (Bool × Mem) := do
  let st ← Run.get
  if fileBlock < ndirBlocks then pure (true, setIBlock inode fileBlock diskBlock)
  else if fileBlock - ndirBlocks < st.fs.ptrsPerBlock then
    match ← ensureIndirect inode (st.fs.inodeGroup ino) with
    | none => pure (false, inode)
    | some inode => do
      let stored ← (do
        kmalloc
        let indirect ← ext4ReadBlock (iBlock inode indBlock)
        ext4WriteBlockRaw (iBlock inode indBlock)
          (store indirect (4 * (fileBlock - ndirBlocks)) 4 diskBlock) : Ext4M Unit).attempt
      pure (stored.isSome, inode)
  else pure (false, inode)

/-! ### Directories -/

def align4 (n : Nat) : Nat := (n + 3) / 4 * 4

/-- An entry to be added; `name` is its name without the terminating zero. -/
structure DirEntry where
  inode : Nat
  name : List UInt8
  fileType : UInt8

def DirEntry.nameLen (e : DirEntry) : Nat := min e.name.length 255
def DirEntry.size (e : DirEntry) : Nat := align4 (8 + e.nameLen)

def DirEntry.write (e : DirEntry) (buf : Mem) (offset recLen : Nat) : Mem :=
  let buf := store buf offset 4 e.inode
  let buf := store buf (offset + 4) 2 recLen
  let buf := Function.update buf (offset + 6) (UInt8.ofNat e.nameLen)
  let buf := Function.update buf (offset + 7) e.fileType
  fill buf (offset + 8) e.nameLen fun i => e.name.getD i 0

/-- The first record with room for an entry of `size` bytes behind its own name: its offset, the
size it needs itself, and the room. -/
def findSlack (blockSize size : Nat) (buf : Mem) : Nat → Nat → Option (Nat × Nat × Nat)
  | 0, _ => none
  | fuel + 1, offset =>
    if offset < blockSize then
      let recLen := load buf 2 (offset + 4)
      let actual := align4 (8 + (buf (offset + 6)).toNat)
      if recLen = 0 then none
      else if recLen > actual ∧ recLen - actual ≥ size then some (offset, actual, recLen - actual)
      else findSlack blockSize size buf fuel (offset + recLen)
    else none

/-- Tries the directory's blocks in turn; `false` when none has room. -/
def addInBlocks (dirInode : Mem) (e : DirEntry) : List Nat → Ext4M Bool
  | [] => pure false
  | b :: rest => do
    let st ← Run.get
    let diskBlock ← ext4GetFileBlock dirInode b
    if diskBlock = 0 then addInBlocks dirInode e rest
    else
      match ← (ext4ReadBlock diskBlock).attempt with
      | none => addInBlocks dirInode e rest
      | some buf =>
        match findSlack st.fs.blockSize e.size buf st.fs.blockSize 0 with
        | none => addInBlocks dirInode e rest
        | some (offset, actual, slack) => do
          ext4WriteBlockRaw diskBlock
            (e.write (store buf (offset + 4) 2 actual) (offset + actual) slack)
          pure true

/-- The last part of `ext4_add_dir_entry`: a new block of its own for the entry. -/
def addInNewBlock (dirIno : Nat) (dirInode : Mem) (e : DirEntry) (numBlocks : Nat) :
    Ext4M Unit := do
  let st ← Run.get
  let newBlock ← ext4AllocBlock (st.fs.inodeGroup dirIno)
  match ← (ext4WriteBlockRaw newBlock (e.write zeroBlock 0 st.fs.blockSize)).attempt with
  | none => do
    let _ ← (ext4FreeBlock newBlock).attempt
    Run.fail
  | some () => do
    let (stored, dirInode) ← ext4SetFileBlock dirInode numBlocks newBlock dirIno
    if stored then
      let dirInode := setISizeLo dirInode (iSizeLo dirInode + st.fs.blockSize)
      ext4WriteInode dirIno (addIBlocks dirInode (st.fs.blockSize / 512))
    else do
      let _ ← (ext4FreeBlock newBlock).attempt
      Run.fail

def ext4AddDirEntry (dirIno : Nat) (e : DirEntry) : Ext4M Unit := do
  let dirInode ← ext4ReadInode dirIno
  kmalloc
  let st ← Run.get
  let numBlocks := (iSizeLo dirInode + st.fs.blockSize - 1) / st.fs.blockSize
  if ← addInBlocks dirInode e (List.range numBlocks) then pure ()
  else addInNewBlock dirIno dirInode e numBlocks

/-! ### Files -/

/-- The disk block behind a file block of a write, mapped on demand, with the bytes to start from;
`none` ends the write. -/
def writeTarget (ino : Nat) (inode : Mem) (fileBlock : Nat) :
    Ext4M (Mem × Option (Nat × Mem)) := do
  let st ← Run.get
  let diskBlock ← ext4GetFileBlock inode fileBlock
  if diskBlock = 0 then
    match ← (ext4AllocBlock (st.fs.inodeGroup ino)).attempt with
    | none => pure (inode, none)
    | some newBlock => do
      let (stored, inode) ← ext4SetFileBlock inode fileBlock newBlock ino
      if stored then
        pure (addIBlocks inode (st.fs.blockSize / 512), some (newBlock, zeroBlock))
      else do
        let _ ← (ext4FreeBlock newBlock).attempt
        pure (inode, none)
  else
    match ← (ext4ReadBlock diskBlock).attempt with
    | none => pure (inode, none)
    | some buf => pure (inode, some (diskBlock, buf))

/-- The loop of `ext4_write_file`: each round writes at least one byte, so as many rounds as there
are bytes are enough. -/
def writeLoop (ino : Nat) (data : List UInt8) (offset : Nat) :
    Nat → Mem → Nat → Ext4M (Mem × Nat)
  | 0, inode, written => pure (inode, written)
  | fuel + 1, inode, written =>
    if written < data.length then do
      let st ← Run.get
      let pos := (offset + written) % 2 ^ 64
      match ← writeTarget ino inode (pos / st.fs.blockSize) with
      | (inode, none) => pure (inode, written)
      | (inode, some (diskBlock, buf)) => do
        let toWrite := min (st.fs.blockSize - pos % st.fs.blockSize) (data.length - written)
        match ← (ext4WriteBlockRaw diskBlock (fill buf (pos % st.fs.blockSize) toWrite fun i =>
            data.getD (written + i) 0)).attempt with
        | none => pure (inode, written)
        | some () => writeLoop ino data offset fuel inode (written + toWrite)
    else pure (inode, written)

/-- Returns the number of bytes written. -/
def ext4WriteFile (ino : Nat) (data : List UInt8) (offset : Nat) : Ext4M Nat := do
  let inode ← ext4ReadInode ino
  kmalloc
  let (inode, written) ← writeLoop ino data offset data.length inode 0
  let pos := (offset + written) % 2 ^ 64
  let inode := if pos > iSizeLo inode then setISizeLo inode pos else inode
  let _ ← (ext4WriteInode ino (setIMtime inode 0)).attempt
  pure written

def newInode (mode : Nat) : Mem := store (store zeroBlock 0 2 mode) 26 2 1

/-- Returns the new inode number. -/
def ext4CreateFile (parentIno : Nat) (name : List UInt8) (mode : Nat) : Ext4M Nat := do
  let st ← Run.get
  let newIno ← ext4AllocInode ((parentIno + 2 ^ 32 - 1) % 2 ^ 32 / st.fs.inodesPerGroup)
  let isDir := mode &&& sIfdir ≠ 0
  let fileType : UInt8 := if isDir then 2 else 1
  match ← (do
    ext4WriteInode newIno (newInode mode)
    ext4AddDirEntry parentIno ⟨newIno, name, fileType⟩ : Ext4M Unit).attempt with
  | none => do
    let _ ← (ext4FreeInode newIno).attempt
    Run.fail
  | some () =>
    if isDir then do
      let _ ← (ext4AddDirEntry newIno ⟨newIno, [46], 2⟩).attempt
      let _ ← (ext4AddDirEntry newIno ⟨parentIno, [46, 46], 2⟩).attempt
      let _ ← (do
        let parent ← ext4ReadInode parentIno
        ext4WriteInode parentIno (addILinks parent 1) : Ext4M Unit).attempt
      pure newIno
    else pure newIno

def ext4VfsWrite (ino : Nat) (data : List UInt8) (offset : Nat) : Ext4M Nat :=
  ext4WriteFile ino data offset

def ext4VfsCreate (parentIno : Nat) (name : List UInt8) (mode : Nat) : Ext4M Nat :=
  ext4CreateFile parentIno name mode

def ext4VfsMkdir (parentIno : Nat) (name : List UInt8) (mode : Nat) : Ext4M Nat :=
  ext4CreateFile parentIno name (mode ||| sIfdir)

def freeFileBlocks (inode : Mem) : List Nat → Ext4M Unit
  | [] => pure ()
  | b :: rest => do
    let diskBlock ← ext4GetFileBlock inode b
    if diskBlock ≠ 0 then
      let _ ← (ext4FreeBlock diskBlock).attempt
      freeFileBlocks inode rest
    else freeFileBlocks inode rest

def ext4VfsTruncate (ino size : Nat) : Ext4M Unit := do
  let inode ← ext4ReadInode ino
  let st ← Run.get
  let newBlocks := (size + st.fs.blockSize - 1) / st.fs.blockSize
  let oldBlocks := (iSizeLo inode + st.fs.blockSize - 1) / st.fs.blockSize
  if size < iSizeLo inode then
    freeFileBlocks inode ((List.range (oldBlocks - newBlocks)).map (newBlocks + ·))
    ext4WriteInode ino (setISizeHi (setISizeLo inode size) (size / 2 ^ 32))
  else ext4WriteInode ino (setISizeHi (setISizeLo inode size) (size / 2 ^ 32))

end UnixOS.Fs.Ext4
