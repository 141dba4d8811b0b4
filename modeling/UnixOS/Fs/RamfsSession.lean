import UnixOS.Fs.RamfsTreeOps
import UnixOS.Fs.Mounts

/-! # Open files and directory walks over a RAM filesystem

Open files keep the address of a `ramfs_inode`, and `ramfs_readdir` keeps the one it stands at
while its callback runs. Removing an inode frees it whatever is kept elsewhere. An address stands
for one inode here: memory that is handed out again gets a new one. A step without a result
follows an address whose inode is gone, or never ends.
-/

namespace UnixOS.Fs

open ByteMemory

def oCreat : UInt32 := 0x0040

/-- A `struct file`: whether it has the operations of a directory, the inode in `private_data`, the
size in its VFS inode and the position. -/
structure OpenFile where
  isDir : Bool
  privateData : Nat
  iSize : Int
  fPos : Int

/-- Where `ramfs_readdir` stands while its callback runs: at `.` or `..` of a directory, or at a
child. -/
inductive Walk where
  | dot (dir : Nat)
  | dotDot (dir : Nat)
  | child (c : Nat)

def Walk.addr : Walk → Nat
  | .dot dir => dir
  | .dotDot dir => dir
  | .child c => c

structure Session where
  fs : Ramfs
  files : List (Option OpenFile)
  walks : List (Option Walk)
  used : List Nat
  removed : List Nat

/-- Where a call may run out of memory: before it has changed anything, or after a new inode has
been linked in. -/
inductive Memory where
  | granted
  | refused
  | refusedLate
deriving DecidableEq

inductive SessionOp where
  | openFile (path : List Char) (flags mode : UInt32) (addr : Nat) (memory : Memory)
  | mkdir (path : List Char) (mode : UInt32) (addr : Nat) (memory : Memory)
  | read (h count : Nat)
  | write (h : Nat) (buf : List UInt8) (kmalloc : Nat → Option Mem)
  | close (h : Nat)
  | unlink (path : List Char) (memory : Memory)
  | rmdir (path : List Char) (memory : Memory)
  | readdir (h : Nat)
  | next (w : Nat)

namespace Session

variable (s : Session)

def mounted (root : Nat) : Session := ⟨ramfsMount root, [], [], [root], []⟩

def openInode (a : Nat) (flags : UInt32) : Option Session := do
  let inode ← s.fs.inodes a
  let f := vfsOpenInode inode flags
  return { s with
    fs := s.fs.modify a fun _ => f.inode
    files := s.files ++ [some ⟨sIsDir inode.mode, a, f.iSize, f.fPos⟩] }

/-- `vfs_open`, where this filesystem is mounted on `/`. -/
def vfsOpen (path : List Char) (flags mode : UInt32) (addr : Nat) (memory : Memory) :
    Option Session :=
  if memory = .refused then some s
  else if pathCompare ['/'] path then
    some { s with files := s.files ++ [some ⟨true, s.fs.root, 0, 0⟩] }
  else do
    match ← s.fs.vfsLookupParent path with
    | none => return s
    | some (parent, name) =>
      match ← s.fs.ramfsLookupChild parent name with
      | some child => if memory = .granted then s.openInode child flags else return s
      | none =>
        if flags &&& oCreat = 0 then return s
        else
          let (fs, ret) ← s.fs.ramfsCreate parent name mode addr
          let s := { s with fs, used := addr :: s.used }
          if ret = 0 ∧ memory = .granted then s.openInode addr flags else return s

def vfsMkdir (path : List Char) (mode : UInt32) (addr : Nat) (memory : Memory) :
    Option Session :=
  if memory = .refused then some s
  else do
    let (fs, _) ← s.fs.vfsMkdir path mode addr
    return { s with fs, used := addr :: s.used }

def file (h : Nat) : Option OpenFile := (s.files[h]?).join

/-- A directory's operation table has no `read`. -/
def readFile (h count : Nat) : Option Session :=
  match s.file h with
  | none => some s
  | some f =>
    if f.isDir then some s
    else do
      let inode ← s.fs.inodes f.privateData
      let (_, _, pos) := ramfsRead inode count f.fPos
      return { s with files := s.files.set h (some { f with fPos := pos }) }

def writeFile (h : Nat) (buf : List UInt8) (kmalloc : Nat → Option Mem) : Option Session :=
  match s.file h with
  | none => some s
  | some f =>
    if f.isDir then some s
    else do
      let inode ← s.fs.inodes f.privateData
      let (g, _) := ramfsWrite ⟨inode, f.iSize, f.fPos⟩ buf kmalloc
      return { s with
        fs := s.fs.modify f.privateData fun _ => g.inode
        files := s.files.set h (some { f with iSize := g.iSize, fPos := g.fPos }) }

def closeFile (h : Nat) : Session := { s with files := s.files.set h none }

def remove (call : List Char → Option (Ramfs × Int)) (path : List Char) (memory : Memory) :
    Option Session :=
  if memory ≠ .granted then some s
  else do
    let target ← s.fs.target path
    let (fs, ret) ← call path
    return { s with fs, removed := if ret = 0 then target.toList ++ s.removed else s.removed }

def visit (child : Option Nat) : Option Unit :=
  match child with
  | none => some ()
  | some c => (s.fs.inodes c).map fun _ => ()

def startWalk (h : Nat) : Option Session :=
  match s.file h with
  | none => some s
  | some f =>
    if f.isDir then do
      let dir ← s.fs.inodes f.privateData
      if sIsDir dir.mode then return { s with walks := s.walks ++ [some (.dot f.privateData)] }
      else return s
    else some s

/-- The callback has returned; the walk goes on to the next call of it. -/
def nextEntry (w : Nat) : Option Session :=
  match (s.walks[w]?).join with
  | none => some s
  | some (.dot a) => do
    let dir ← s.fs.inodes a
    s.visit dir.parent
    return { s with walks := s.walks.set w (some (.dotDot a)) }
  | some (.dotDot a) => do
    let dir ← s.fs.inodes a
    s.visit dir.children
    return { s with walks := s.walks.set w (dir.children.map .child) }
  | some (.child c) => do
    let child ← s.fs.inodes c
    s.visit child.sibling
    return { s with walks := s.walks.set w (child.sibling.map .child) }

def step : SessionOp → Option Session
  | .openFile path flags mode addr memory => s.vfsOpen path flags mode addr memory
  | .mkdir path mode addr memory => s.vfsMkdir path mode addr memory
  | .read h count => s.readFile h count
  | .write h buf kmalloc => s.writeFile h buf kmalloc
  | .close h => some (s.closeFile h)
  | .unlink path memory => s.remove s.fs.vfsUnlink path memory
  | .rmdir path memory => s.remove s.fs.vfsRmdir path memory
  | .readdir h => s.startWalk h
  | .next w => s.nextEntry w

def run : Session → List SessionOp → Option Session
  | s, [] => some s
  | s, op :: ops => do
    let s' ← s.step op
    s'.run ops

def Fresh : SessionOp → Prop
  | .openFile _ _ _ addr _ => addr ∉ s.used
  | .mkdir _ _ addr _ => addr ∉ s.used
  | _ => True

def FreshAlong : Session → List SessionOp → Prop
  | _, [] => True
  | s, op :: ops => s.Fresh op ∧ ∀ s', s.step op = some s' → s'.FreshAlong ops

/-- The operation does not go through a file opened on an inode that was removed since, or a walk
that stands at one. -/
def Attached : SessionOp → Prop
  | .read h _ => ∀ f ∈ s.file h, f.isDir = false → f.privateData ∉ s.removed
  | .write h _ _ => ∀ f ∈ s.file h, f.isDir = false → f.privateData ∉ s.removed
  | .readdir h => ∀ f ∈ s.file h, f.isDir = true → f.privateData ∉ s.removed
  | .next w => ∀ p ∈ (s.walks[w]?).join, p.addr ∉ s.removed
  | _ => True

def AttachedAlong : Session → List SessionOp → Prop
  | _, [] => True
  | s, op :: ops => s.Attached op ∧ ∀ s', s.step op = some s' → s'.AttachedAlong ops

def Holds (a : Nat) : Prop :=
  (∃ f, some f ∈ s.files ∧ f.privateData = a) ∨ ∃ p, some p ∈ s.walks ∧ p.addr = a

/-- The file or the empty directory that a removal takes away is not kept anywhere. -/
def SparesHeld : SessionOp → Prop
  | .unlink path _ => ∀ a i, s.fs.target path = some (some a) → s.fs.inodes a = some i →
    sIsDir i.mode = false → ¬ s.Holds a
  | .rmdir path _ => ∀ a i, s.fs.target path = some (some a) → s.fs.inodes a = some i →
    sIsDir i.mode = true → i.children = none → ¬ s.Holds a
  | _ => True

def SparesHeldAlong : Session → List SessionOp → Prop
  | _, [] => True
  | s, op :: ops => s.SparesHeld op ∧ ∀ s', s.step op = some s' → s'.SparesHeldAlong ops

end Session

end UnixOS.Fs
