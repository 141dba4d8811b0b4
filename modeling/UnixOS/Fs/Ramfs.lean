import UnixOS.Lib.Memory

/-! # Files of the RAM filesystem

The inode of `kernel/fs/ramfs.c` with its file operations, and the part of `kernel/fs/vfs.c` that
moves a handle over it. Positions are `loff_t` and sizes are `size_t`, so each conversion between
them is written out. What `kmalloc` hands out is an argument: no block, or one of any content.
-/

namespace UnixOS.Fs

open ByteMemory

def eIo : Int := 5
def eNoMem : Int := 12
def eInval : Int := 22

def sIfMt : UInt32 := 0o170000
def sIfReg : UInt32 := 0o100000
def sIfDir : UInt32 := 0o040000

def sIsReg (mode : UInt32) : Bool := mode &&& sIfMt == sIfReg
def sIsDir (mode : UInt32) : Bool := mode &&& sIfMt == sIfDir

def oTrunc : UInt32 := 0x0200
def oAppend : UInt32 := 0x0400

def ramfsBlockSize : Nat := 4096

/-- A `ramfs_inode`; pointers to other inodes are addresses, `none` is `NULL`. -/
structure RamfsInode where
  ino : Nat
  mode : UInt32
  size : Nat
  data : Option Mem
  dataCapacity : Nat
  parent : Option Nat
  children : Option Nat
  sibling : Option Nat
  name : List Char

def toSize (x : Int) : Nat := (x % 2 ^ 64).toNat

def toLoff (n : Int) : Int := Int.bmod n (2 ^ 64)

/-- An open file: the inode behind `private_data`, the size in its VFS inode and the position. -/
structure File where
  inode : RamfsInode
  iSize : Int
  fPos : Int

def putBytes (m : Mem) (a : Nat) (buf : List UInt8) : Mem := fill m a buf.length fun i => buf.getD i 0

def zeroBytes (m : Mem) (a e : Nat) : Mem := fill m a (e - a) fun _ => 0

def ramfsRead (inode : RamfsInode) (count : Nat) (pos : Int) : List UInt8 × Int × Int :=
  match inode.data with
  | none => ([], 0, pos)
  | some data =>
    if toLoff inode.size ≤ pos then ([], 0, pos)
    else
      let available := toSize (inode.size - pos)
      let toRead := if count < available then count else available
      ((List.range toRead).map fun i => data (toSize pos + i), toLoff toRead, toLoff (pos + toRead))

/-- The buffer that `ramfs_write` goes on with, or `none` for `-ENOMEM`. -/
def ramfsGrow (inode : RamfsInode) (newSize : Nat) (kmalloc : Nat → Option Mem) : Option RamfsInode :=
  if inode.dataCapacity < newSize then
    let newCap := toSize (newSize + ramfsBlockSize - 1) / ramfsBlockSize * ramfsBlockSize
    match kmalloc newCap with
    | none => none
    | some newData =>
      let copied := match inode.data with
        | none => newData
        | some data => fill newData 0 inode.size data
      some { inode with data := some (zeroBytes copied inode.size newCap), dataCapacity := newCap }
  else some inode

def ramfsWrite (f : File) (buf : List UInt8) (kmalloc : Nat → Option Mem) : File × Int :=
  let count := buf.length
  let pos := f.fPos
  match ramfsGrow f.inode (toSize (pos + count)) kmalloc with
  | none => (f, -eNoMem)
  | some inode =>
    let data := inode.data.getD fun _ => 0
    let data := if inode.size < toSize pos then zeroBytes data inode.size (toSize pos) else data
    let data := putBytes data (toSize pos) buf
    let pos := toLoff (pos + count)
    let size := if toLoff inode.size < pos then toSize pos else inode.size
    ({ f with inode := { inode with data := some data, size }, iSize := toLoff size, fPos := pos },
      toLoff count)

/-- A directory's operation table has no `read` and no `write`. -/
def vfsRead (f : File) (count : Nat) : File × Int × List UInt8 :=
  if sIsDir f.inode.mode then (f, -eInval, [])
  else
    let (bytes, ret, pos) := ramfsRead f.inode count f.fPos
    ({ f with fPos := pos }, ret, bytes)

def vfsWrite (f : File) (buf : List UInt8) (kmalloc : Nat → Option Mem) : File × Int :=
  if sIsDir f.inode.mode then (f, -eInval) else ramfsWrite f buf kmalloc

/-- The `new_pos` of `vfs_lseek`; `none` is its default case. -/
def seekTarget (f : File) (offset : Int) (whence : Int) : Option Int :=
  if whence = 0 then some offset
  else if whence = 1 then some (toLoff (f.fPos + offset))
  else if whence = 2 then some (toLoff (f.iSize + offset))
  else none

def vfsLseek (f : File) (offset : Int) (whence : Int) : File × Int :=
  match seekTarget f offset whence with
  | none => (f, -eInval)
  | some newPos => if newPos < 0 then (f, -eInval) else ({ f with fPos := newPos }, newPos)

def ramfsTruncateFile (inode : RamfsInode) : RamfsInode × Int :=
  if sIsDir inode.mode then (inode, -eInval) else ({ inode with size := 0 }, 0)

/-- The end of `vfs_open`, once the lookup has found (or made) the inode. -/
def vfsOpenInode (inode : RamfsInode) (flags : UInt32) : File :=
  let f : File := ⟨inode, toLoff inode.size, 0⟩
  let f := if flags &&& oTrunc ≠ 0 ∧ sIsReg inode.mode then
      { f with iSize := 0, inode := (ramfsTruncateFile f.inode).1 } else f
  if flags &&& oAppend ≠ 0 ∧ sIsReg inode.mode then { f with fPos := f.iSize } else f

end UnixOS.Fs
