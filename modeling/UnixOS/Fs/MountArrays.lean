import UnixOS.Fs.MountRouting
import Mathlib.Data.Finset.Card

/-! # The arrays behind the mount table

`kernel/fs/vfs.c` keeps a mount in four places: its record in `mount_pool`, a flag in `mount_slot_used`,
a pointer in `mounts` and a part in `mount_count`; `root_mount` and `root_dentry` name the one on `/`.
Pointers into the pool are indices. Only indices below `MAX_MOUNTS` are used.
-/

namespace UnixOS.Fs

structure PoolMount (δ : Type*) where
  mntRoot : Option δ
  mntParent : Option Nat
  mntDevname : List Char
  mntTarget : List Char
  mntFstype : List Char

def PoolMount.blank {δ : Type*} : PoolMount δ := ⟨none, none, [], [], []⟩

structure MountArrays (δ : Type*) where
  mounts : Nat → Option Nat
  mountPool : Nat → PoolMount δ
  mountSlotUsed : Nat → Bool
  mountCount : Nat
  rootMount : Option Nat
  rootDentry : Option δ

namespace MountArrays

variable {δ : Type*} (t : MountArrays δ)

def init : MountArrays δ := ⟨fun _ => none, fun _ => .blank, fun _ => false, 0, none, none⟩

def names (target : List Char) (i : Nat) : Bool :=
  (t.mounts i).any fun p => pathCompare (t.mountPool p).mntTarget target

def findMountByTarget (target : List Char) : Option Nat :=
  ((List.range maxMounts).find? (t.names target)).bind t.mounts

def enter (slot : Nat) (source target fstype : List Char) (sRoot : δ) : MountArrays δ :=
  let mnt : PoolMount δ :=
    ⟨some sRoot, t.rootMount, pathCopy source 64, pathCopy target 64, pathCopy fstype 32⟩
  let t := { t with
    mountSlotUsed := Function.update t.mountSlotUsed slot true
    mountPool := Function.update t.mountPool slot mnt
    mounts := Function.update t.mounts slot (some slot)
    mountCount := t.mountCount + 1 }
  if pathCompare target ['/'] then { t with rootMount := some slot, rootDentry := some sRoot } else t

def vfsMount (source target fstype : List Char) (fs : FsMount δ) : MountArrays δ × Int :=
  match fs with
  | .unknown => (t, -eNoDev)
  | fs =>
    match t.findMountByTarget target with
    | some existing =>
      if pathCompare (t.mountPool existing).mntDevname source &&
          pathCompare (t.mountPool existing).mntFstype fstype then (t, 0)
      else (t, -eBusy)
    | none =>
      if maxMounts ≤ t.mountCount then (t, -eNoMem)
      else
        match fs with
        | .unknown => (t, -eNoDev)
        | .noMount => (t, -eNoSys)
        | .failed => (t, -eIo)
        | .superBlock sRoot =>
          match (List.range maxMounts).find? fun i => !t.mountSlotUsed i with
          | none => (t, -eNoMem)
          | some slot => (t.enter slot source target fstype sRoot, 0)

def mountedOn (target : List Char) (i : Nat) : Bool :=
  (t.mounts i).any fun p =>
    (t.mountPool p).mntRoot.isSome && pathCompare (t.mountPool p).mntTarget target

/-- The body of the loop of `vfs_umount` that ends it. -/
def leave (i slot : Nat) : MountArrays δ :=
  let t := { t with mountPool := Function.update t.mountPool slot .blank }
  let t := if t.rootMount = some slot then { t with rootMount := none, rootDentry := none } else t
  { t with
    mounts := Function.update t.mounts i none
    mountSlotUsed := if slot < maxMounts then Function.update t.mountSlotUsed slot false
      else t.mountSlotUsed
    mountCount := t.mountCount - 1 }

def vfsUmount (target : List Char) : MountArrays δ × Int :=
  match (List.range maxMounts).find? (t.mountedOn target) with
  | none => (t, -eNoSys)
  | some i =>
    match t.mounts i with
    | none => (t, -eNoSys)
    | some slot => (t.leave i slot, 0)

def step : MountOp δ → MountArrays δ × Int
  | .mount source target fstype fs => t.vfsMount source target fstype fs
  | .umount target => t.vfsUmount target

def run : MountArrays δ → List (MountOp δ) → MountArrays δ
  | t, [] => t
  | t, op :: ops => (t.step op).1.run ops

def used : Finset Nat := {i ∈ Finset.range maxMounts | t.mountSlotUsed i}

def entries : Finset Nat := {i ∈ Finset.range maxMounts | (t.mounts i).isSome}

end MountArrays

end UnixOS.Fs
