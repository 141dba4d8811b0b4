import UnixOS.Fs.MountRouting
import UnixOS.Fs.PathTokens

/-! # The VFS over its mounted filesystems

A mount keeps a pointer to a root dentry. `iso9660_mount` and `fat32_mount` allocate theirs, and
nothing changes it or what it leads to afterwards, so such a pointer is modelled by what it leads to.
`ramfs_mount` returns the same static dentry each time; what that one leads to is the `ramfs`
of the state. Allocation succeeds here, and a walk that does not return finds nothing.
-/

namespace UnixOS.Fs

/-- An `iso9660_node`; its parent and its unused `data` are left out. -/
inductive IsoNode where
  | mk (name : List Char) (diskIndex : Int) (extent size : UInt32) (isDir : Bool)
      (children : List IsoNode)

namespace IsoNode

def name : IsoNode → List Char
  | .mk name _ _ _ _ _ => name

def isDir : IsoNode → Bool
  | .mk _ _ _ _ isDir _ => isDir

def findChild : IsoNode → List Char → Option IsoNode
  | .mk _ _ _ _ _ children, name => children.find? fun child => child.name == name

end IsoNode

inductive RootDentry where
  | ramfs
  | iso9660 (root : IsoNode)
  | fat32

/-- What the `d_inode` of a dentry stands for. -/
inductive VfsInode where
  | root (dentry : RootDentry)
  | ramfs (addr : Nat)
  | iso9660 (node : IsoNode)

/-- What a path shows. The bytes of a file on a disk are fixed by its place there. -/
inductive Entry where
  | dir
  | file (bytes : List UInt8)
  | isoFile (diskIndex : Int) (extent size : UInt32)

inductive FsType where
  | fat32
  | ramfs
  | iso9660
deriving DecidableEq

def FsType.name : FsType → List Char
  | .fat32 => ['f', 'a', 't', '3', '2']
  | .ramfs => ['r', 'a', 'm', 'f', 's']
  | .iso9660 => ['i', 's', 'o', '9', '6', '6', '0']

structure Vfs where
  fileSystems : List FsType
  table : MountTable RootDentry
  ramfs : Ramfs

/-- `ramfs_mount`: the counters start again and a new root takes the place of the old one, whose
inodes stay in memory. -/
def Ramfs.mountOver (s : Ramfs) (addr : Nat) : Ramfs :=
  Ramfs.ramfsAllocInode ⟨s.inodes, addr, 1, 0⟩ addr (sIfDir ||| 0o755) []

namespace Vfs

variable (s : Vfs)

def findFilesystem (name : List Char) : Option FsType := s.fileSystems.find? fun fs => fs.name == name

def lookup (inode : VfsInode) (name : List Char) : Option VfsInode :=
  match inode with
  | .root .ramfs => (s.ramfs.ramfsLookupChild s.ramfs.root name).join.map .ramfs
  | .root (.iso9660 node) => (node.findChild name).map .iso9660
  | .root .fat32 => none
  | .ramfs addr => (s.ramfs.ramfsLookupChild addr name).join.map .ramfs
  | .iso9660 node => if node.isDir then (node.findChild name).map .iso9660 else none

def vfsLookupParent (path : List Char) : Option (VfsInode × List Char) :=
  match s.table.rootDentry with
  | none => none
  | some _ =>
    match s.table.resolvePathRoot path with
    | (none, _) => none
    | (some root, rest) =>
      let p := skipSlashes rest
      lookupParentLoop s.lookup p.length (.root root) p

/-- The inode behind the file that `vfs_open` returns without `O_CREAT`. -/
def vfsOpen (path : List Char) : Option VfsInode :=
  if path = [] then none
  else if path = ['/'] then s.table.rootDentry.map .root
  else
    match s.table.findMountByTarget path with
    | some mounted => some (.root mounted.mntRoot)
    | none =>
      match s.vfsLookupParent path with
      | some (parent, name) => s.lookup parent name
      | none =>
        let name := skipSlashes path
        if '/' ∈ name ∨ name = [] then none
        else s.table.rootDentry.bind fun root => s.lookup (.root root) (name.take nameMax)

def entry : VfsInode → Option Entry
  | .root _ => some .dir
  | .ramfs addr => (s.ramfs.inodes addr).map fun inode =>
    if sIsDir inode.mode then .dir else .file (ramfsRead inode inode.size 0).1
  | .iso9660 (.mk _ diskIndex extent size isDir _) =>
    some (if isDir then .dir else .isoFile diskIndex extent size)

def seen (path : List Char) : Option Entry := (s.vfsOpen path).bind s.entry

/-- The `mount` function of a filesystem. `addr` is where a root inode is put, `tree` is what was read
from the disk, if that went well. -/
def mountFs (fs : FsType) (addr : Nat) (tree : Option IsoNode) : Vfs × Option RootDentry :=
  match fs with
  | .fat32 => (s, some .fat32)
  | .ramfs => ({ s with ramfs := s.ramfs.mountOver addr }, some .ramfs)
  | .iso9660 => (s, tree.map .iso9660)

def vfsMount (source target fstype : List Char) (addr : Nat) (tree : Option IsoNode) : Vfs × Int :=
  match s.findFilesystem fstype with
  | none => (s, -eNoDev)
  | some fs =>
    match s.table.findMountByTarget target with
    | some existing =>
      if pathCompare existing.mntDevname source && pathCompare existing.mntFstype fstype then (s, 0)
      else (s, -eBusy)
    | none =>
      if maxMounts ≤ s.table.mountCount then (s, -eNoMem)
      else
        match s.mountFs fs addr tree with
        | (s, none) => (s, -eIo)
        | (s, some sRoot) =>
          match s.table.mounts.findIdx? Option.isNone with
          | none => (s, -eNoMem)
          | some slot => ({ s with table := s.table.enter slot source target fstype sRoot }, 0)

end Vfs

def AtOrBelow (target path : List Char) : Prop := pathComponents target <+: pathComponents path

end UnixOS.Fs
