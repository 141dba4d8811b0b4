import UnixOS.Fs.RamfsTree

/-! # The mount table

Mounting, unmounting and the choice of a filesystem for a path, from `kernel/fs/vfs.c`. A slot of
`mounts` is used exactly when its `mount_slot_used` flag is set, so the flag is the slot's content. What
the lookup of the filesystem type and its `mount` function give is an argument of `vfsMount`. The
type `δ` stands for the pointers to root dentries.
-/

namespace UnixOS.Fs

def eBusy : Int := 16
def eNoDev : Int := 19
def eNoSys : Int := 38

def maxMounts : Nat := 64

structure VfsMount (δ : Type*) where
  mntRoot : δ
  mntDevname : List Char
  mntTarget : List Char
  mntFstype : List Char

structure MountTable (δ : Type*) where
  mounts : List (Option (VfsMount δ))
  mountCount : Nat
  rootMount : Option Nat
  rootDentry : Option δ

def trimReversed : List Char → List Char
  | '/' :: c :: cs => trimReversed (c :: cs)
  | cs => cs

def trimSlashes (path : List Char) : List Char := (trimReversed path.reverse).reverse

def pathCompare (a b : List Char) : Bool := trimSlashes a == trimSlashes b

def pathCopy (src : List Char) (max : Nat) : List Char := src.take (max - 1)

/-- The `matched_len` of `path_has_mount_prefix`, or `none` where it returns 0. -/
def pathHasMountPrefix (path target : List Char) : Option Nat :=
  if ¬ target <+: path then none
  else if target = ['/'] then some 1
  else
    match path.drop target.length with
    | [] => some target.length
    | c :: _ => if c = '/' then some target.length else none

section

variable {δ : Type*}

def vfsInit : MountTable δ := ⟨List.replicate maxMounts none, 0, none, none⟩

namespace MountTable

variable (t : MountTable δ)

def better (path : List Char) (best : Option (VfsMount δ) × Nat) (slot : Option (VfsMount δ)) :
    Option (VfsMount δ) × Nat :=
  match slot with
  | none => best
  | some m =>
    match pathHasMountPrefix path m.mntTarget with
    | none => best
    | some len => if best.2 ≤ len then (some m, len) else best

def findMountForPath (path : List Char) : Option (VfsMount δ) × Nat :=
  t.mounts.foldl (better path) (none, 0)

def resolvePathRoot (path : List Char) : Option δ × List Char :=
  match t.findMountForPath path with
  | (some m, len) => (some m.mntRoot, (path.drop len).dropWhile (· == '/'))
  | (none, _) => (t.rootDentry, path)

def slotByTarget (target : List Char) : Option Nat :=
  t.mounts.findIdx? fun slot => slot.any fun m => pathCompare m.mntTarget target

def findMountByTarget (target : List Char) : Option (VfsMount δ) :=
  (t.slotByTarget target).bind fun i => t.mounts.getD i none

end MountTable

inductive FsMount (δ : Type*) where
  | unknown
  | noMount
  | failed
  | superBlock (sRoot : δ)

def MountTable.enter (t : MountTable δ) (slot : Nat) (source target fstype : List Char) (sRoot : δ) :
    MountTable δ :=
  let mnt : VfsMount δ := ⟨sRoot, pathCopy source 64, pathCopy target 64, pathCopy fstype 32⟩
  let t := { t with mounts := t.mounts.set slot (some mnt), mountCount := t.mountCount + 1 }
  if pathCompare target ['/'] then { t with rootMount := some slot, rootDentry := some sRoot } else t

def vfsMount (t : MountTable δ) (source target fstype : List Char) (fs : FsMount δ) :
    MountTable δ × Int :=
  match fs with
  | .unknown => (t, -eNoDev)
  | fs =>
    match t.findMountByTarget target with
    | some m =>
      if pathCompare m.mntDevname source && pathCompare m.mntFstype fstype then (t, 0) else (t, -eBusy)
    | none =>
      if maxMounts ≤ t.mountCount then (t, -eNoMem)
      else
        match fs with
        | .unknown => (t, -eNoDev)
        | .noMount => (t, -eNoSys)
        | .failed => (t, -eIo)
        | .superBlock sRoot =>
          match t.mounts.findIdx? Option.isNone with
          | none => (t, -eNoMem)
          | some slot => (t.enter slot source target fstype sRoot, 0)

def vfsUmount (t : MountTable δ) (target : List Char) : MountTable δ × Int :=
  match t.slotByTarget target with
  | none => (t, -eNoSys)
  | some slot =>
    let t := if t.rootMount = some slot then { t with rootMount := none, rootDentry := none } else t
    ({ t with mounts := t.mounts.set slot none, mountCount := t.mountCount - 1 }, 0)

inductive MountOp (δ : Type*) where
  | mount (source target fstype : List Char) (fs : FsMount δ)
  | umount (target : List Char)

def MountTable.step (t : MountTable δ) : MountOp δ → MountTable δ × Int
  | .mount source target fstype fs => vfsMount t source target fstype fs
  | .umount target => vfsUmount t target

def MountTable.run (t : MountTable δ) : List (MountOp δ) → MountTable δ
  | [] => t
  | op :: ops => (t.step op).1.run ops

def MountTable.AllSucceed (t : MountTable δ) : List (MountOp δ) → Prop
  | [] => True
  | op :: ops => (t.step op).2 = 0 ∧ (t.step op).1.AllSucceed ops

end

end UnixOS.Fs
