import Mathlib.Logic.Function.Basic
import UnixOS.Fs.Path
import UnixOS.Fs.Ramfs

/-! # The directory tree of the RAM filesystem

Inodes live in a heap of addresses; a directory points to its first child and each child to its next
sibling. The operations below are those of `kernel/fs/ramfs.c` under the path operations of
`kernel/fs/vfs.c`, for paths that resolve into this filesystem. Their results are optional: `none` says
that the C code does not return, because a sibling walk runs in a circle or follows a freed inode.
Allocation succeeds, and the address it returns is an argument.
-/

namespace UnixOS.Fs

def eNoEnt : Int := 2
def eExist : Int := 17
def eNotDir : Int := 20
def eIsDir : Int := 21
def eNotEmpty : Int := 39

def nameMax : Nat := 255

structure Ramfs where
  inodes : Nat → Option RamfsInode
  root : Nat
  nextIno : Nat
  inodeCount : Nat

namespace Ramfs

variable (s : Ramfs)

def modify (a : Nat) (f : RamfsInode → RamfsInode) : Ramfs :=
  { s with inodes := Function.update s.inodes a ((s.inodes a).map f) }

def setParent (a : Nat) (v : Option Nat) : Ramfs := s.modify a fun i => { i with parent := v }
def setChildren (a : Nat) (v : Option Nat) : Ramfs := s.modify a fun i => { i with children := v }
def setSibling (a : Nat) (v : Option Nat) : Ramfs := s.modify a fun i => { i with sibling := v }
def setName (a : Nat) (v : List Char) : Ramfs := s.modify a fun i => { i with name := v }

def walkFuel : Nat := s.inodeCount + 1

def ramfsAllocInode (addr : Nat) (mode : UInt32) (name : List Char) : Ramfs where
  inodes := Function.update s.inodes addr
    (some ⟨s.nextIno, mode, 0, none, 0, none, none, none, name.take nameMax⟩)
  root := s.root
  nextIno := s.nextIno + 1
  inodeCount := s.inodeCount + 1

def ramfsFreeInode (addr : Nat) : Ramfs :=
  { s with inodes := Function.update s.inodes addr none, inodeCount := s.inodeCount - 1 }

def findChild (name : List Char) : Nat → Option Nat → Option (Option Nat)
  | 0, _ => none
  | _ + 1, none => some none
  | fuel + 1, some child =>
    match s.inodes child with
    | none => none
    | some inode => if inode.name = name then some (some child) else findChild name fuel inode.sibling

def ramfsLookupChild (dir : Nat) (name : List Char) : Option (Option Nat) :=
  match s.inodes dir with
  | none => none
  | some inode => if sIsDir inode.mode then s.findChild name s.walkFuel inode.children else some none

def ramfsAddChild (dir child : Nat) : Option (Ramfs × Int) :=
  match s.inodes dir with
  | none => none
  | some inode =>
    if sIsDir inode.mode then
      let s := s.setParent child (some dir)
      let s := s.setSibling child inode.children
      some (s.setChildren dir (some child), 0)
    else some (s, -eNotDir)

def ramfsMake (type : UInt32) (dir : Nat) (name : List Char) (mode : UInt32) (addr : Nat) :
    Option (Ramfs × Int) :=
  if name = [] then some (s, -eInval)
  else do
    match ← s.ramfsLookupChild dir name with
    | some _ => return (s, -eExist)
    | none =>
      let s' := s.ramfsAllocInode addr (type ||| mode) name
      match ← s'.ramfsAddChild dir addr with
      | (s'', 0) => return (s'', 0)
      | (s'', _) => return (s''.ramfsFreeInode addr, -eNotDir)

def ramfsCreate (dir : Nat) (name : List Char) (mode : UInt32) (addr : Nat) : Option (Ramfs × Int) :=
  s.ramfsMake sIfReg dir name mode addr

def ramfsMkdir (dir : Nat) (name : List Char) (mode : UInt32) (addr : Nat) : Option (Ramfs × Int) :=
  s.ramfsMake sIfDir dir name mode addr

/-- `while (curr && curr->sibling != target) curr = curr->sibling;` -/
def findPrevious (target : Nat) : Nat → Option Nat → Option (Option Nat)
  | 0, _ => none
  | _ + 1, none => some none
  | fuel + 1, some curr =>
    match s.inodes curr with
    | none => none
    | some inode =>
      if inode.sibling = some target then some (some curr) else findPrevious target fuel inode.sibling

def unlinkChild (dir target : Nat) : Option Ramfs :=
  match s.inodes dir, s.inodes target with
  | some d, some t =>
    if d.children = some target then some (s.setChildren dir t.sibling)
    else do
      match ← s.findPrevious target s.walkFuel d.children with
      | none => return s
      | some curr => return s.setSibling curr t.sibling
  | _, _ => none

def ramfsRename (oldDir target newDir : Nat) (name : List Char) : Option (Ramfs × Int) := do
  match ← s.ramfsLookupChild newDir name with
  | some _ => return (s, -eExist)
  | none =>
    let s ← s.unlinkChild oldDir target
    let s ← if oldDir ≠ newDir then do
        let d ← s.inodes newDir
        let s := s.setSibling target d.children
        let s := s.setChildren newDir (some target)
        pure (s.setParent target (some newDir))
      else do
        let d ← s.inodes oldDir
        let s := s.setSibling target d.children
        pure (s.setChildren oldDir (some target))
    return (s.setName target (name.take nameMax), 0)

def ramfsUnlink (dir : Nat) (name : List Char) : Option (Ramfs × Int) := do
  match ← s.ramfsLookupChild dir name with
  | none => return (s, -eNoEnt)
  | some target =>
    let t ← s.inodes target
    if sIsDir t.mode then return (s, -eIsDir)
    let s ← s.unlinkChild dir target
    return (s.ramfsFreeInode target, 0)

def ramfsRmdir (dir : Nat) (name : List Char) : Option (Ramfs × Int) := do
  match ← s.ramfsLookupChild dir name with
  | none => return (s, -eNoEnt)
  | some target =>
    let t ← s.inodes target
    if ¬ sIsDir t.mode then return (s, -eNotDir)
    if t.children ≠ none then return (s, -eNotEmpty)
    let s ← s.unlinkChild dir target
    return (s.ramfsFreeInode target, 0)

end Ramfs

/-- The components that a path walk sees, each cut to `NAME_MAX` characters. -/
def components (path : List Char) : List (List Char) := (pathComponents path).map (List.take nameMax)

namespace Ramfs

variable (s : Ramfs)

def walkParent : Nat → List (List Char) → Option (Option (Nat × List Char))
  | _, [] => some none
  | curr, [name] => some (some (curr, name))
  | curr, name :: rest => do
    match ← s.ramfsLookupChild curr name with
    | none => return none
    | some child => walkParent child rest

def vfsLookupParent (path : List Char) : Option (Option (Nat × List Char)) :=
  s.walkParent s.root (components path)

def vfsCreate (path : List Char) (mode : UInt32) (addr : Nat) : Option (Ramfs × Int) := do
  match ← s.vfsLookupParent path with
  | none => return (s, -eNoEnt)
  | some (parent, name) => s.ramfsCreate parent name mode addr

def vfsMkdir (path : List Char) (mode : UInt32) (addr : Nat) : Option (Ramfs × Int) := do
  match ← s.vfsLookupParent path with
  | none => return (s, -eNoEnt)
  | some (parent, name) => s.ramfsMkdir parent name mode addr

def vfsUnlink (path : List Char) : Option (Ramfs × Int) := do
  match ← s.vfsLookupParent path with
  | none => return (s, -eNoEnt)
  | some (parent, name) =>
    match ← s.ramfsLookupChild parent name with
    | none => return (s, -eNoEnt)
    | some child =>
      let c ← s.inodes child
      if sIsDir c.mode then return (s, -eIsDir)
      s.ramfsUnlink parent name

def vfsRmdir (path : List Char) : Option (Ramfs × Int) := do
  match ← s.vfsLookupParent path with
  | none => return (s, -eNoEnt)
  | some (parent, name) =>
    match ← s.ramfsLookupChild parent name with
    | none => return (s, -eNoEnt)
    | some child =>
      let c ← s.inodes child
      if ¬ sIsDir c.mode then return (s, -eNotDir)
      s.ramfsRmdir parent name

def vfsRename (old new : List Char) : Option (Ramfs × Int) := do
  match ← s.vfsLookupParent old with
  | none => return (s, -eNoEnt)
  | some (oldParent, oldName) =>
    match ← s.vfsLookupParent new with
    | none => return (s, -eNoEnt)
    | some (newParent, newName) =>
      match ← s.ramfsLookupChild oldParent oldName with
      | none => return (s, -eNoEnt)
      | some target => s.ramfsRename oldParent target newParent newName

end Ramfs

/-- `ramfs_mount`, with the address of the root inode. -/
def ramfsMount (root : Nat) : Ramfs :=
  Ramfs.ramfsAllocInode ⟨fun _ => none, root, 1, 0⟩ root (sIfDir ||| 0o755) []

inductive TreeOp where
  | create (path : List Char) (mode : UInt32) (addr : Nat)
  | mkdir (path : List Char) (mode : UInt32) (addr : Nat)
  | rename (old new : List Char)
  | unlink (path : List Char)
  | rmdir (path : List Char)

def Ramfs.step (s : Ramfs) : TreeOp → Option (Ramfs × Int)
  | .create path mode addr => s.vfsCreate path mode addr
  | .mkdir path mode addr => s.vfsMkdir path mode addr
  | .rename old new => s.vfsRename old new
  | .unlink path => s.vfsUnlink path
  | .rmdir path => s.vfsRmdir path

def Ramfs.run (s : Ramfs) : List TreeOp → Option Ramfs
  | [] => some s
  | op :: ops => do
    let (s', _) ← s.step op
    s'.run ops

end UnixOS.Fs
