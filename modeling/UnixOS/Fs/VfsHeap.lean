import Mathlib.Algebra.BigOperators.Group.Finset.Basic
import UnixOS.Fs.PathTokens
import UnixOS.Fs.Mounts

/-! # The kernel memory behind path lookups

A walk of `kernel/fs/vfs.c` allocates a dentry for each component it passes, and `ramfs_lookup` a VFS
inode. Here are the path operations over a RAM filesystem on `/`, with every such block. The heap grants
or refuses a request as `grant` says; it gives the bytes that `heap_used` grows by. The inodes of the
RAM filesystem itself are those of the `Ramfs`. A call without a result uses or frees a block that
is not there.
-/

namespace UnixOS.Fs

inductive DentryPtr where
  | root
  | block (addr : Nat)
deriving DecidableEq

inductive KObject where
  | dentry (dParent : Option DentryPtr) (dInode : Option Nat)
  | inode (iPrivate : Nat) (iMode : UInt32)
  | file (fDentry : DentryPtr)

structure KBlock where
  obj : KObject
  bytes : Nat

structure KHeap where
  blocks : Nat → Option KBlock
  next : Nat
  tick : Nat

namespace KHeap

def heapUsed (h : KHeap) : Nat := ∑ a ∈ Finset.range h.next, (h.blocks a).elim 0 KBlock.bytes

def kfree (h : KHeap) (addr : Nat) : Option KHeap :=
  match h.blocks addr with
  | none => none
  | some _ => some { h with blocks := Function.update h.blocks addr none }

def setObject (h : KHeap) (addr : Nat) (obj : KObject) : KHeap :=
  { h with blocks := Function.update h.blocks addr ((h.blocks addr).map fun b => { b with obj }) }

def freeChainLoop : Nat → KHeap → DentryPtr → Option KHeap
  | 0, _, _ => none
  | _ + 1, h, .root => some h
  | fuel + 1, h, .block addr =>
    match h.blocks addr with
    | some ⟨.dentry dParent _, _⟩ => do
      let h ← h.kfree addr
      match dParent with
      | none => return h
      | some parent => if parent = .block addr then return h else freeChainLoop fuel h parent
    | _ => none

def vfsFreeDentryChain (h : KHeap) (dentry : DentryPtr) : Option KHeap :=
  freeChainLoop (h.next + 1) h dentry

def inodeOf (h : KHeap) (addr : Nat) : Option (Nat × UInt32) :=
  match h.blocks addr with
  | some ⟨.dentry _ (some i), _⟩ =>
    match h.blocks i with
    | some ⟨.inode iPrivate iMode, _⟩ => some (iPrivate, iMode)
    | _ => none
  | _ => none

end KHeap

section

variable (grant : Nat → Option Nat) (s : Ramfs)

def kzalloc (h : KHeap) (obj : KObject) : Option Nat × KHeap :=
  match grant h.tick with
  | none => (none, { h with tick := h.tick + 1 })
  | some bytes =>
    (some h.next, ⟨Function.update h.blocks h.next (some ⟨obj, bytes⟩), h.next + 1, h.tick + 1⟩)

def dirOf (h : KHeap) : DentryPtr → Option Nat
  | .root => some s.root
  | .block addr => (h.inodeOf addr).map Prod.fst

/-- `ramfs_lookup`, into the dentry at `child`, whose parent is `dParent`. -/
def ramfsLookup (h : KHeap) (dir child : Nat) (dParent : Option DentryPtr) (name : List Char) :
    Option KHeap := do
  match ← s.ramfsLookupChild dir name with
  | none => return h
  | some c =>
    let inode ← s.inodes c
    match kzalloc grant h (.inode c inode.mode) with
    | (none, h) => return h
    | (some i, h) => return h.setObject child (.dentry dParent (some i))

/-- The walk of `vfs_lookup_parent`, which leaves `d_parent` null. -/
def heapWalk : KHeap → DentryPtr → List (List Char) → Option (KHeap × Option (DentryPtr × List Char))
  | h, _, [] => some (h, none)
  | h, curr, [name] => some (h, some (curr, name))
  | h, curr, name :: rest => do
    let dir ← dirOf s h curr
    match kzalloc grant h (.dentry none none) with
    | (none, h) =>
      let h ← h.vfsFreeDentryChain curr
      return (h, none)
    | (some child, h) =>
      let h ← ramfsLookup grant s h dir child none name
      match h.inodeOf child with
      | none =>
        let h ← h.vfsFreeDentryChain (.block child)
        return (h, none)
      | some _ => heapWalk h (.block child) rest

def heapLookupParent (h : KHeap) (path : List Char) : Option (KHeap × Option (DentryPtr × List Char)) :=
  heapWalk grant s h .root (components path)

def heapRemove (refuse : UInt32 → Option Int) (op : Nat → List Char → Option (Ramfs × Int))
    (h : KHeap) (path : List Char) : Option (KHeap × Ramfs × Int) := do
  match ← heapLookupParent grant s h path with
  | (h, none) => return (h, s, -eNoEnt)
  | (h, some (parent, name)) =>
    match kzalloc grant h (.dentry none none) with
    | (none, h) =>
      let h ← h.vfsFreeDentryChain parent
      return (h, s, -eNoMem)
    | (some child, h) =>
      let dir ← dirOf s h parent
      let h ← ramfsLookup grant s h dir child none name
      match h.inodeOf child with
      | none =>
        let h ← h.vfsFreeDentryChain (.block child)
        return (h, s, -eNoEnt)
      | some (_, iMode) =>
        match refuse iMode with
        | some e =>
          let h ← h.vfsFreeDentryChain (.block child)
          return (h, s, e)
        | none =>
          let (s', ret) ← op dir name
          let h ← h.vfsFreeDentryChain (.block child)
          return (h, s', ret)

def heapUnlink : KHeap → List Char → Option (KHeap × Ramfs × Int) :=
  heapRemove grant s (fun mode => if sIsDir mode then some (-eIsDir) else none) s.ramfsUnlink

def heapRmdir : KHeap → List Char → Option (KHeap × Ramfs × Int) :=
  heapRemove grant s (fun mode => if sIsDir mode then none else some (-eNotDir)) s.ramfsRmdir

/-- The block of `ramfs_mkdir` after the tree: the VFS inode of the new directory. -/
def mkdirInode (h : KHeap) (child : Nat) (dParent : DentryPtr) (addr : Nat) (mode : UInt32) (ret : Int) :
    KHeap × Int :=
  if ret = 0 then
    match kzalloc grant h (.inode addr (sIfDir ||| mode)) with
    | (none, h) => (h, -eNoMem)
    | (some i, h) => (h.setObject child (.dentry (some dParent) (some i)), 0)
  else (h, ret)

def heapMkdir (h : KHeap) (path : List Char) (mode : UInt32) (addr : Nat) :
    Option (KHeap × Ramfs × Int) := do
  match ← heapLookupParent grant s h path with
  | (h, none) => return (h, s, -eNoEnt)
  | (h, some (parent, name)) =>
    match kzalloc grant h (.dentry (some parent) none) with
    | (none, h) =>
      let h ← h.vfsFreeDentryChain parent
      return (h, s, -eNoMem)
    | (some child, h) =>
      let dir ← dirOf s h parent
      let (s', ret) ← s.ramfsMkdir dir name mode addr
      let (h, ret) := mkdirInode grant h child parent addr mode ret
      let h ← h.vfsFreeDentryChain (.block child)
      return (h, s', ret)

def openChild (h : KHeap) (parent : DentryPtr) (name : List Char) : Option (KHeap × Option Nat) := do
  match kzalloc grant h (.dentry (some parent) none) with
  | (none, h) =>
    let h ← h.vfsFreeDentryChain parent
    return (h, none)
  | (some child, h) =>
    let dir ← dirOf s h parent
    let h ← ramfsLookup grant s h dir child (some parent) name
    match h.inodeOf child with
    | none =>
      let h ← h.vfsFreeDentryChain (.block child)
      return (h, none)
    | some _ =>
      match kzalloc grant h (.file (.block child)) with
      | (none, h) =>
        let h ← h.vfsFreeDentryChain (.block child)
        return (h, none)
      | (some f, h) =>
        if parent = .root then return (h, some f)
        else
          match h.blocks child with
          | some ⟨.dentry _ i, _⟩ =>
            let h := h.setObject child (.dentry (some .root) i)
            let h ← h.vfsFreeDentryChain parent
            return (h, some f)
          | _ => none

/-- The file that `vfs_open` returns. For the path `/` it does not look whether it got one. -/
def heapOpen (h : KHeap) (path : List Char) : Option (KHeap × Option Nat) :=
  if path = [] then some (h, none)
  else if path = ['/'] then
    match kzalloc grant h (.file .root) with
    | (none, _) => none
    | (some f, h) => some (h, some f)
  else if pathCompare ['/'] path then
    match kzalloc grant h (.file .root) with
    | (none, h) => some (h, none)
    | (some f, h) => some (h, some f)
  else do
    match ← heapLookupParent grant s h path with
    | (h, some (parent, name)) => openChild grant s h parent name
    | (h, none) =>
      let name := skipSlashes path
      if '/' ∈ name ∨ name = [] then return (h, none)
      else openChild grant s h .root (name.take nameMax)

def heapClose (h : KHeap) (f : Nat) : Option KHeap :=
  match h.blocks f with
  | some ⟨.file dentry, _⟩ => do
    let h ← h.vfsFreeDentryChain dentry
    h.kfree f
  | _ => none

def heapRename (h : KHeap) (old new : List Char) : Option (KHeap × Ramfs × Int) := do
  match ← heapLookupParent grant s h old with
  | (h, none) => return (h, s, -eNoEnt)
  | (h, some (oldParent, oldName)) =>
    match ← heapLookupParent grant s h new with
    | (h, none) =>
      let h ← h.vfsFreeDentryChain oldParent
      return (h, s, -eNoEnt)
    | (h, some (newParent, newName)) =>
      match kzalloc grant h (.dentry (some oldParent) none) with
      | (none, h) =>
        let h ← h.vfsFreeDentryChain oldParent
        let h ← h.vfsFreeDentryChain newParent
        return (h, s, -eNoMem)
      | (some oldChild, h) =>
        let oldDir ← dirOf s h oldParent
        let h ← ramfsLookup grant s h oldDir oldChild (some oldParent) oldName
        match h.inodeOf oldChild with
        | none =>
          let h ← h.vfsFreeDentryChain (.block oldChild)
          return (h, s, -eNoEnt)
        | some (target, _) =>
          match kzalloc grant h (.dentry (some newParent) none) with
          | (none, h) =>
            let h ← h.vfsFreeDentryChain (.block oldChild)
            let h ← h.vfsFreeDentryChain newParent
            return (h, s, -eNoMem)
          | (some newChild, h) =>
            let newDir ← dirOf s h newParent
            let (s', ret) ← s.ramfsRename oldDir target newDir newName
            let h ← h.vfsFreeDentryChain (.block oldChild)
            let h ← h.vfsFreeDentryChain (.block newChild)
            return (h, s', ret)

end

end UnixOS.Fs
