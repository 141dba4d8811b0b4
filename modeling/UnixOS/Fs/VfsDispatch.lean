import UnixOS.Fs.CreateFailures
import UnixOS.Lib.Fallible

/-! # Whose nodes a call uses

A filesystem keeps its own node behind `i_private`, and a pointer there does not tell of which kind. The
operations of `kernel/fs/vfs.c` mostly go through the tables of the inode they work on; `vfs_rename` goes
through one table for two directories, and `vfs_open` calls `ramfs_truncate_file` itself. Each use of a
private node is noted with the filesystem whose node it is taken for. Where it is of another kind nothing is
said about what follows. Allocation succeeds.
-/

namespace UnixOS.Fs

open Fallible

def ePerm : Int := 1

structure Use where
  as : FsType
  node : VfsInode

def RootDentry.fsType : RootDentry → FsType
  | .ramfs => .ramfs
  | .iso9660 _ => .iso9660
  | .fat32 => .fat32

def VfsInode.fsType : VfsInode → FsType
  | .root dentry => dentry.fsType
  | .ramfs _ => .ramfs
  | .iso9660 _ => .iso9660

def Use.Own (u : Use) : Prop := u.node.fsType = u.as

inductive InodeOp where
  | lookup
  | create
  | mkdir
  | rmdir
  | unlink
  | rename
deriving DecidableEq

inductive FileCall where
  | read
  | write
  | openFile
  | release
  | readdir
deriving DecidableEq

def FsType.inodeOps : FsType → List InodeOp
  | .ramfs => [.lookup, .create, .mkdir, .rmdir, .unlink, .rename]
  | .iso9660 => [.lookup]
  | .fat32 => [.lookup]

def VfsInode.iOp : VfsInode → Option FsType
  | .iso9660 node => if node.isDir then some .iso9660 else none
  | v => some v.fsType

def VfsInode.hasOp (v : VfsInode) (op : InodeOp) : Bool := v.iOp.any fun fs => op ∈ fs.inodeOps

structure Kernel where
  vfs : Vfs
  uses : List Use

abbrev Call (α : Type) := Run Kernel α

namespace Vfs

/-- The `i_mode` of an inode. -/
def mode (s : Vfs) : VfsInode → Option UInt32
  | .root (.iso9660 _) => some (sIfDir ||| 0o555)
  | .root _ => some (sIfDir ||| 0o755)
  | .ramfs addr => (s.ramfs.inodes addr).map RamfsInode.mode
  | .iso9660 node => some (if node.isDir then sIfDir ||| 0o555 else sIfReg ||| 0o444)

def fileOps (s : Vfs) (v : VfsInode) : List FileCall :=
  match v.fsType, (s.mode v).any sIsDir with
  | .ramfs, true => [.openFile, .release, .readdir]
  | .ramfs, false => [.read, .write, .openFile, .release]
  | .iso9660, true => [.readdir]
  | .iso9660, false => [.read]
  | .fat32, _ => [.read]

end Vfs

namespace Call

def use (fs : FsType) (v : VfsInode) : Call Unit := Run.modify fun k => { k with uses := k.uses ++ [⟨fs, v⟩] }

def asRamfs (v : VfsInode) : Call Nat := do
  use .ramfs v
  let k ← Run.get
  match k.vfs.ramfsInode v with
  | some addr => pure addr
  | none => Run.fail

def onRamfs (f : Ramfs → Option (Ramfs × Int)) : Call Int := do
  let k ← Run.get
  match f k.vfs.ramfs with
  | none => Run.fail
  | some (ramfs, ret) => do
    Run.modify fun k => { k with vfs := { k.vfs with ramfs } }
    pure ret

def modeOf (v : VfsInode) : Call UInt32 := do
  let k ← Run.get
  match k.vfs.mode v with
  | none => Run.fail
  | some mode => pure mode

def lookup (dir : VfsInode) (name : List Char) : Call (Option VfsInode) :=
  match dir.iOp with
  | none => pure none
  | some fs => do
    use fs dir
    let k ← Run.get
    pure (k.vfs.lookup dir name)

def parentLoop : Nat → VfsInode → List Char → Call (Option (VfsInode × List Char))
  | 0, _, _ => pure none
  | fuel + 1, curr, p =>
    if p = [] then pure none
    else
      let name := (firstName p).take nameMax
      let rest := skipSlashes (afterName p)
      if rest = [] then pure (some (curr, name))
      else do
        match ← lookup curr name with
        | none => pure none
        | some child => parentLoop fuel child rest

def vfsLookupParent (path : List Char) : Call (Option (VfsInode × List Char)) := do
  let k ← Run.get
  match k.vfs.table.rootDentry with
  | none => pure none
  | some _ =>
    match k.vfs.table.resolvePathRoot path with
    | (none, _) => pure none
    | (some root, rest) => parentLoop (skipSlashes rest).length (.root root) (skipSlashes rest)

/-- `vfs_create` and `vfs_mkdir`. -/
def vfsMake (op : InodeOp) (type : UInt32) (path : List Char) (mode : UInt32) (addr : Nat) : Call Int := do
  match ← vfsLookupParent path with
  | none => pure (-eNoEnt)
  | some (parent, name) =>
    if parent.hasOp op then do
      let dir ← asRamfs parent
      onRamfs fun ramfs => ramfs.ramfsMake type dir name mode addr
    else pure (-ePerm)

def vfsCreate (path : List Char) (mode : UInt32) (addr : Nat) : Call Int :=
  vfsMake .create sIfReg path mode addr

def vfsMkdir (path : List Char) (mode : UInt32) (addr : Nat) : Call Int :=
  vfsMake .mkdir sIfDir path mode addr

/-- `vfs_unlink` and `vfs_rmdir`: they differ in the type they want, and in what they answer to the other. -/
def vfsRemove (op : InodeOp) (wantDir : Bool) (other : Int)
    (remove : Ramfs → Nat → List Char → Option (Ramfs × Int)) (path : List Char) : Call Int := do
  match ← vfsLookupParent path with
  | none => pure (-eNoEnt)
  | some (parent, name) =>
    match ← lookup parent name with
    | none => pure (-eNoEnt)
    | some child => do
      let mode ← modeOf child
      if sIsDir mode ≠ wantDir then pure (-other)
      else if parent.hasOp op then do
        let dir ← asRamfs parent
        onRamfs fun ramfs => remove ramfs dir name
      else pure (-ePerm)

def vfsUnlink (path : List Char) : Call Int := vfsRemove .unlink false eIsDir Ramfs.ramfsUnlink path

def vfsRmdir (path : List Char) : Call Int := vfsRemove .rmdir true eNotDir Ramfs.ramfsRmdir path

/-- `ramfs_rename`, over the inodes it is handed. -/
def ramfsRename (oldDir oldChild newDir : VfsInode) (name : List Char) : Call Int := do
  let newRamDir ← asRamfs newDir
  let oldRamDir ← asRamfs oldDir
  let target ← asRamfs oldChild
  onRamfs fun ramfs => ramfs.ramfsRename oldRamDir target newRamDir name

def vfsRename (old new : List Char) : Call Int := do
  match ← vfsLookupParent old with
  | none => pure (-eNoEnt)
  | some (oldParent, oldName) =>
    match ← vfsLookupParent new with
    | none => pure (-eNoEnt)
    | some (newParent, newName) =>
      match ← lookup oldParent oldName with
      | none => pure (-eNoEnt)
      | some oldChild =>
        if oldParent.hasOp .rename then ramfsRename oldParent oldChild newParent newName
        else pure (-ePerm)

def openChild (child : VfsInode) (flags : UInt32) : Call (Option VfsInode) := do
  let mode ← modeOf child
  if flags &&& oTrunc ≠ 0 ∧ sIsReg mode then do
    let addr ← asRamfs child
    let _ ← onRamfs fun ramfs => some (ramfs.modify addr fun inode => (ramfsTruncateFile inode).1, 0)
    pure (some child)
  else pure (some child)

def openIn (parent : VfsInode) (name : List Char) (flags mode : UInt32) (addr : Nat) :
    Call (Option VfsInode) := do
  match ← lookup parent name with
  | some child => openChild child flags
  | none =>
    if flags &&& oCreat ≠ 0 ∧ parent.hasOp .create then do
      let dir ← asRamfs parent
      let ret ← onRamfs fun ramfs => ramfs.ramfsCreate dir name mode addr
      if ret = 0 then openChild (.ramfs addr) flags else pure none
    else pure none

/-- `vfs_open`: the inode behind the file, if there is one. -/
def vfsOpen (path : List Char) (flags mode : UInt32) (addr : Nat) : Call (Option VfsInode) := do
  let k ← Run.get
  if path = [] then pure none
  else if path = ['/'] then pure (k.vfs.table.rootDentry.map .root)
  else
    match k.vfs.table.findMountByTarget path with
    | some mounted => pure (some (.root mounted.mntRoot))
    | none => do
      match ← vfsLookupParent path with
      | some (parent, name) => openIn parent name flags mode addr
      | none =>
        let name := skipSlashes path
        if '/' ∈ name then pure none
        else
          match k.vfs.table.rootDentry with
          | none => Run.fail
          | some root => if name = [] then pure none else openIn (.root root) (name.take nameMax) flags mode addr

/-- A call through the operations of an open file; it answers whether there is such an operation. -/
def onFile (file : VfsInode) (op : FileCall) : Call Bool := do
  let k ← Run.get
  if op ∈ k.vfs.fileOps file then do
    use file.fsType file
    pure true
  else pure false

end Call

namespace Vfs

variable {s : Vfs} {v c : VfsInode} {name : List Char}

theorem ramfsInode_eq_none (h : v.fsType ≠ .ramfs) : s.ramfsInode v = none := by
  cases v with
  | root dentry => cases dentry <;> first | rfl | exact absurd rfl h
  | ramfs addr => exact absurd rfl h
  | iso9660 node => rfl

theorem exists_ramfsInode (h : v.fsType = .ramfs) : ∃ addr, s.ramfsInode v = some addr := by
  cases v with
  | root dentry =>
    cases dentry with
    | ramfs => exact ⟨s.ramfs.root, rfl⟩
    | iso9660 node => cases h
    | fat32 => cases h
  | ramfs addr => exact ⟨addr, rfl⟩
  | iso9660 node => cases h

theorem lookup_fsType (h : s.lookup v name = some c) :
    c.fsType = v.fsType ∧ ((∃ addr, c = .ramfs addr) ∨ ∃ node, c = .iso9660 node) := by
  cases v with
  | root dentry =>
    cases dentry with
    | ramfs =>
      obtain ⟨addr, -, rfl⟩ := Option.map_eq_some_iff.mp h
      exact ⟨rfl, .inl ⟨addr, rfl⟩⟩
    | iso9660 node =>
      obtain ⟨child, -, rfl⟩ := Option.map_eq_some_iff.mp h
      exact ⟨rfl, .inr ⟨child, rfl⟩⟩
    | fat32 => cases h
  | ramfs a =>
    obtain ⟨addr, -, rfl⟩ := Option.map_eq_some_iff.mp h
    exact ⟨rfl, .inl ⟨addr, rfl⟩⟩
  | iso9660 node =>
    rw [Vfs.lookup] at h
    split at h
    · obtain ⟨child, -, rfl⟩ := Option.map_eq_some_iff.mp h
      exact ⟨rfl, .inr ⟨child, rfl⟩⟩
    · cases h

theorem iOp_eq_some {fs : FsType} (h : v.iOp = some fs) : v.fsType = fs := by
  unfold VfsInode.iOp at h
  split at h
  · split at h
    · exact Option.some.inj h
    · cases h
  · exact Option.some.inj h

theorem fsType_of_hasOp {op : InodeOp} (hOp : op ≠ .lookup) (h : v.hasOp op = true) : v.fsType = .ramfs := by
  obtain ⟨fs, hfs, hMem⟩ : ∃ fs, v.iOp = some fs ∧ op ∈ fs.inodeOps := by
    rw [VfsInode.hasOp] at h
    cases hOps : v.iOp with
    | none => simp [hOps] at h
    | some fs => exact ⟨fs, rfl, by simpa [hOps] using h⟩
  rw [iOp_eq_some hfs]
  cases fs with
  | ramfs => rfl
  | iso9660 => simp [FsType.inodeOps, hOp] at hMem
  | fat32 => simp [FsType.inodeOps, hOp] at hMem

theorem hasOp_of_fsType (op : InodeOp) (h : v.fsType = .ramfs) : v.hasOp op = true := by
  have hOps : v.iOp = some .ramfs := by
    unfold VfsInode.iOp
    split
    · cases h
    · rw [h]
  rw [VfsInode.hasOp, hOps]
  cases op <;> rfl

end Vfs

namespace Call

variable {α β : Type} {k : Kernel} {s : Vfs} {v : VfsInode}

/-! ### Reading the tree -/

def OwnUses (k : Kernel) : Prop := ∀ u ∈ k.uses, u.Own

def Reads (s : Vfs) (m : Call α) (a : α) : Prop :=
  ∃ log, (∀ u ∈ log, Use.Own u) ∧ ∀ uses, m ⟨s, uses⟩ = (some a, ⟨s, uses ++ log⟩)

theorem Reads.pure (a : α) : Reads s (Pure.pure a) a :=
  ⟨[], by simp, fun uses => by simp [Pure.pure]⟩

theorem Reads.bind {m : Call α} {a : α} (hm : Reads s m a) {g : α → Call β} {b : β} (hg : Reads s (g a) b) :
    Reads s (m >>= g) b := by
  obtain ⟨log, hLog, hRun⟩ := hm
  obtain ⟨log', hLog', hRun'⟩ := hg
  refine ⟨log ++ log', fun u hu => (List.mem_append.mp hu).elim (hLog u) (hLog' u), fun uses => ?_⟩
  rw [Run.bind_of_some (hRun uses), hRun', List.append_assoc]

theorem Reads.bind_run {m : Call α} {a : α} (hm : Reads s m a) {uses : List Use} (hUses : OwnUses ⟨s, uses⟩) :
    ∃ uses', OwnUses ⟨s, uses'⟩ ∧ ∀ {β : Type} (g : α → Call β), (m >>= g) ⟨s, uses⟩ = g a ⟨s, uses'⟩ := by
  obtain ⟨log, hLog, hRun⟩ := hm
  refine ⟨uses ++ log, fun u hu => (List.mem_append.mp hu).elim (hUses u) (hLog u), fun g => ?_⟩
  rw [Run.bind_of_some (hRun uses)]

theorem Reads.get_bind {g : Kernel → Call α} {a : α} (h : ∃ log, (∀ u ∈ log, Use.Own u) ∧
    ∀ uses, g ⟨s, uses⟩ ⟨s, uses⟩ = (some a, ⟨s, uses ++ log⟩)) : Reads s (Run.get >>= g) a := by
  obtain ⟨log, hLog, hRun⟩ := h
  exact ⟨log, hLog, fun uses => by rw [Run.bind_of_some (Run.get_run _), hRun]⟩

theorem reads_use {fs : FsType} (h : v.fsType = fs) : Reads s (use fs v) () :=
  ⟨[⟨fs, v⟩], by simpa [Use.Own] using h, fun _ => rfl⟩

theorem reads_lookup (dir : VfsInode) (name : List Char) : Reads s (lookup dir name) (s.lookup dir name) := by
  unfold lookup
  cases hOps : dir.iOp with
  | some fs =>
    refine (reads_use (Vfs.iOp_eq_some hOps)).bind (Reads.get_bind ⟨[], by simp, fun uses => ?_⟩)
    rw [List.append_nil]
    rfl
  | none =>
    have hNone : s.lookup dir name = none := by
      cases dir with
      | root dentry => cases dentry <;> cases hOps
      | ramfs addr => cases hOps
      | iso9660 node =>
        rw [VfsInode.iOp] at hOps
        split at hOps
        · cases hOps
        · rename_i hFile
          rw [Vfs.lookup, if_neg hFile]
    rw [hNone]
    exact .pure none

theorem reads_parentLoop (fuel : Nat) (curr : VfsInode) (p : List Char) :
    Reads s (parentLoop fuel curr p) (lookupParentLoop s.lookup fuel curr p) := by
  induction fuel generalizing curr p with
  | zero => exact .pure none
  | succ fuel ih =>
    rw [parentLoop, lookupParentLoop]
    split
    · exact .pure none
    · dsimp only
      split
      · exact .pure _
      · refine (reads_lookup curr _).bind ?_
        cases s.lookup curr ((firstName p).take nameMax) with
        | none => exact .pure none
        | some child => exact ih child _

theorem reads_vfsLookupParent (path : List Char) :
    Reads s (vfsLookupParent path) (s.vfsLookupParent path) := by
  unfold vfsLookupParent Vfs.vfsLookupParent
  refine Reads.get_bind ?_
  dsimp only
  cases s.table.rootDentry with
  | none => exact Reads.pure none
  | some root =>
    rcases s.table.resolvePathRoot path with ⟨_ | root', rest⟩
    · exact Reads.pure none
    · exact reads_parentLoop _ _ _

/-! ### Calls on the RAM filesystem -/

theorem asRamfs_run {addr : Nat} (h : k.vfs.ramfsInode v = some addr) :
    asRamfs v k = (some addr, ⟨k.vfs, k.uses ++ [⟨.ramfs, v⟩]⟩) := by
  have hUse : use .ramfs v k = (some (), ⟨k.vfs, k.uses ++ [⟨.ramfs, v⟩]⟩) := rfl
  rw [asRamfs, Run.bind_of_some hUse, Run.bind_of_some (Run.get_run _)]
  dsimp only
  rw [h]
  rfl

theorem asRamfs_fails (h : v.fsType ≠ .ramfs) :
    asRamfs v k = (none, ⟨k.vfs, k.uses ++ [⟨.ramfs, v⟩]⟩) := by
  have hUse : use .ramfs v k = (some (), ⟨k.vfs, k.uses ++ [⟨.ramfs, v⟩]⟩) := rfl
  rw [asRamfs, Run.bind_of_some hUse, Run.bind_of_some (Run.get_run _)]
  dsimp only
  rw [Vfs.ramfsInode_eq_none h]
  rfl

theorem reads_asRamfs {addr : Nat} (h : s.ramfsInode v = some addr) : Reads s (asRamfs v) addr := by
  refine ⟨[⟨.ramfs, v⟩], ?_, fun uses => asRamfs_run h⟩
  intro u hu
  obtain rfl := List.mem_singleton.mp hu
  rw [Use.Own]
  by_contra hOther
  rw [Vfs.ramfsInode_eq_none hOther] at h
  cases h

theorem onRamfs_uses (f : Ramfs → Option (Ramfs × Int)) : (onRamfs f k).2.uses = k.uses := by
  rw [onRamfs, Run.bind_of_some (Run.get_run k)]
  dsimp only
  cases f k.vfs.ramfs with
  | none => rfl
  | some r => rfl

theorem onRamfs_run {f : Ramfs → Option (Ramfs × Int)} {ramfs : Ramfs} {ret : Int}
    (h : f k.vfs.ramfs = some (ramfs, ret)) :
    onRamfs f k = (some ret, ⟨{ k.vfs with ramfs }, k.uses⟩) := by
  rw [onRamfs, Run.bind_of_some (Run.get_run k)]
  dsimp only
  rw [h]
  rfl

/-! ### Calls that stay with their own nodes -/

/-- The call takes no node for another's, whatever it does. -/
def Keeps (m : Call α) : Prop := ∀ k, OwnUses k → OwnUses (m k).2

theorem Keeps.of_reads {m : Call α} (h : ∀ s, ∃ a, Reads s m a) : Keeps m := by
  rintro ⟨s, uses⟩ hUses
  obtain ⟨a, log, hLog, hRun⟩ := h s
  rw [hRun uses]
  exact fun u hu => (List.mem_append.mp hu).elim (hUses u) (hLog u)

theorem Keeps.bind {m : Call α} {g : α → Call β} (hm : Keeps m) (hg : ∀ a, Keeps (g a)) : Keeps (m >>= g) := by
  intro k hk
  have hFirst := hm k hk
  rcases hRun : m k with ⟨_ | a, k'⟩
  · rw [Run.bind_of_none hRun]
    rwa [hRun] at hFirst
  · rw [Run.bind_of_some hRun]
    rw [hRun] at hFirst
    exact hg a k' hFirst

theorem keeps_pure (a : α) : Keeps (Pure.pure a : Call α) := fun _ hk => hk

theorem keeps_onRamfs (f : Ramfs → Option (Ramfs × Int)) : Keeps (onRamfs f) := by
  intro k hk
  rw [OwnUses, onRamfs_uses]
  exact hk

theorem keeps_asRamfs (h : v.fsType = .ramfs) : Keeps (asRamfs v) :=
  .of_reads fun _ => ⟨_, reads_asRamfs (Vfs.exists_ramfsInode h).choose_spec⟩

theorem keeps_modeOf (v : VfsInode) : Keeps (modeOf v) := by
  intro k hk
  rw [modeOf, Run.bind_of_some (Run.get_run k)]
  cases k.vfs.mode v <;> exact hk

theorem keeps_vfsMake {op : InodeOp} (hOp : op ≠ .lookup) (type : UInt32) (path : List Char) (mode : UInt32)
    (addr : Nat) : Keeps (vfsMake op type path mode addr) := by
  refine (Keeps.of_reads fun s => ⟨_, reads_vfsLookupParent path⟩).bind fun found => ?_
  rcases found with _ | ⟨parent, name⟩
  · exact keeps_pure _
  · dsimp only
    split
    case isTrue hHas =>
      exact (keeps_asRamfs (Vfs.fsType_of_hasOp hOp hHas)).bind fun dir => keeps_onRamfs _
    case isFalse => exact keeps_pure _

theorem keeps_vfsRemove {op : InodeOp} (hOp : op ≠ .lookup) (wantDir : Bool) (other : Int)
    (remove : Ramfs → Nat → List Char → Option (Ramfs × Int)) (path : List Char) :
    Keeps (vfsRemove op wantDir other remove path) := by
  refine (Keeps.of_reads fun s => ⟨_, reads_vfsLookupParent path⟩).bind fun found => ?_
  rcases found with _ | ⟨parent, name⟩
  · exact keeps_pure _
  · refine (Keeps.of_reads fun s => ⟨_, reads_lookup parent name⟩).bind fun child => ?_
    cases child with
    | none => exact keeps_pure _
    | some child =>
      refine (keeps_modeOf child).bind fun mode => ?_
      split
      · exact keeps_pure _
      · split
        case isTrue hHas =>
          exact (keeps_asRamfs (Vfs.fsType_of_hasOp hOp hHas)).bind fun dir => keeps_onRamfs _
        case isFalse => exact keeps_pure _

theorem keeps_onFile (file : VfsInode) (op : FileCall) : Keeps (onFile file op) := by
  refine .of_reads fun s => ⟨decide (op ∈ s.fileOps file), Reads.get_bind ?_⟩
  by_cases hHas : op ∈ s.fileOps file
  · simp only [if_pos hHas, decide_eq_true hHas]
    exact (reads_use rfl).bind (.pure true)
  · simp only [if_neg hHas, decide_eq_false hHas]
    exact Reads.pure false

/-! ### Renaming -/

end Call

namespace Vfs

variable (s : Vfs)

def InRamfs (path : List Char) : Prop :=
  ∃ dir name, s.vfsLookupParent path = some (dir, name) ∧ dir.fsType = .ramfs

/-- Between two filesystems a rename fails and changes nothing, and no node is taken for another's. -/
structure RenameContained (old new : List Char) : Prop where
  own : Call.OwnUses (Call.vfsRename old new ⟨s, []⟩).2
  apart : ¬ (s.InRamfs old ∧ s.InRamfs new) → ∃ ret ≠ 0, ∃ uses, Call.vfsRename old new ⟨s, []⟩ = (some ret, ⟨s, uses⟩)

def Crosses (old new : List Char) : Prop :=
  ∃ dir name dir' name', s.vfsLookupParent old = some (dir, name) ∧ s.vfsLookupParent new = some (dir', name') ∧
    dir.fsType = .ramfs ∧ dir'.fsType ≠ .ramfs ∧ s.lookup dir name ≠ none

end Vfs

namespace Call

variable {s : Vfs} {old new path : List Char}

theorem ownUses_nil (s : Vfs) : OwnUses ⟨s, []⟩ := fun _ hu => absurd hu List.not_mem_nil

theorem ramfsRename_foreign {oldDir oldChild newDir : VfsInode} (h : newDir.fsType ≠ .ramfs) (name : List Char)
    (k : Kernel) : ¬ OwnUses (ramfsRename oldDir oldChild newDir name k).2 := by
  rw [ramfsRename, Run.bind_of_none (asRamfs_fails h)]
  exact fun hOwn => h (hOwn ⟨.ramfs, newDir⟩ (by simp))

theorem renameContained_iff (s : Vfs) (old new : List Char) : s.RenameContained old new ↔ ¬ s.Crosses old new := by
  obtain ⟨u₁, hOwn₁, hRun₁⟩ := (reads_vfsLookupParent (s := s) old).bind_run (ownUses_nil s)
  obtain ⟨u₂, hOwn₂, hRun₂⟩ := (reads_vfsLookupParent (s := s) new).bind_run hOwn₁
  have hStop : ∀ {ret : Int} {uses : List Use}, vfsRename old new ⟨s, []⟩ = (some ret, ⟨s, uses⟩) → ret ≠ 0 →
      OwnUses ⟨s, uses⟩ → s.RenameContained old new := by
    intro ret uses hEq hRet hOwn
    exact ⟨by rw [hEq]; exact hOwn, fun _ => ⟨ret, hRet, uses, hEq⟩⟩
  have hStart : vfsRename old new ⟨s, []⟩ = _ := hRun₁ _
  cases hOld : s.vfsLookupParent old with
  | none =>
    rw [hOld] at hStart
    refine iff_of_true (hStop hStart (by decide) hOwn₁) ?_
    rintro ⟨dir, name, dir', name', hEq, -⟩
    rw [hOld] at hEq
    cases hEq
  | some found =>
    obtain ⟨dir, name⟩ := found
    rw [hOld] at hStart
    replace hStart := hStart.trans (hRun₂ _)
    cases hNew : s.vfsLookupParent new with
    | none =>
      rw [hNew] at hStart
      refine iff_of_true (hStop hStart (by decide) hOwn₂) ?_
      rintro ⟨-, -, dir', name', -, hEq, -⟩
      rw [hNew] at hEq
      cases hEq
    | some found' =>
      obtain ⟨dir', name'⟩ := found'
      rw [hNew] at hStart
      obtain ⟨u₃, hOwn₃, hRun₃⟩ := (reads_lookup (s := s) dir name).bind_run hOwn₂
      replace hStart := hStart.trans (hRun₃ _)
      have hCrosses : s.Crosses old new ↔
          dir.fsType = .ramfs ∧ dir'.fsType ≠ .ramfs ∧ s.lookup dir name ≠ none := by
        constructor
        · rintro ⟨d, n, d', n', hEq, hEq', hAll⟩
          obtain ⟨rfl, rfl⟩ := Prod.mk.inj (Option.some.inj (hOld.symm.trans hEq))
          obtain ⟨rfl, rfl⟩ := Prod.mk.inj (Option.some.inj (hNew.symm.trans hEq'))
          exact hAll
        · exact fun hAll => ⟨dir, name, dir', name', hOld, hNew, hAll⟩
      rw [hCrosses]
      cases hChild : s.lookup dir name with
      | none =>
        rw [hChild] at hStart
        exact iff_of_true (hStop hStart (by decide) hOwn₃) fun hAll => hAll.2.2 rfl
      | some child =>
        rw [hChild] at hStart
        dsimp only at hStart
        split at hStart
        case isFalse hHas =>
          refine iff_of_true (hStop hStart (by decide) hOwn₃) fun hAll => hHas ?_
          exact Vfs.hasOp_of_fsType .rename hAll.1
        case isTrue hHas =>
          have hDir := Vfs.fsType_of_hasOp (by decide) hHas
          by_cases hOther : dir'.fsType = .ramfs
          · refine iff_of_true ⟨?_, fun hNot => ?_⟩ fun hAll => hAll.2.1 hOther
            · rw [hStart]
              refine ((keeps_asRamfs hOther).bind fun newDir => (keeps_asRamfs hDir).bind fun oldDir => ?_) _ hOwn₃
              have hChildFs := (Vfs.lookup_fsType hChild).1.trans hDir
              exact (keeps_asRamfs hChildFs).bind fun target => keeps_onRamfs _
            · exact absurd ⟨⟨dir, name, hOld, hDir⟩, ⟨dir', name', hNew, hOther⟩⟩ hNot
          · refine iff_of_false (fun hContained => ?_) fun hNot => hNot ⟨hDir, hOther, by simp⟩
            have hOwn := hContained.own
            rw [hStart] at hOwn
            exact ramfsRename_foreign hOther name' _ hOwn

/-! ### Opening -/

structure Contained (s : Vfs) (r : Option (Option VfsInode) × Kernel) : Prop where
  own : OwnUses r.2
  elsewhere : ∀ file, r.1 = some file → (∀ v ∈ file, v.fsType ≠ .ramfs) → s.ramfs.SameTree r.2.vfs.ramfs

theorem contained_same {r : Option (Option VfsInode)} {uses : List Use} (h : OwnUses ⟨s, uses⟩) :
    Contained s (r, ⟨s, uses⟩) := ⟨h, fun _ _ _ => .refl s.ramfs⟩

def IsIsoFile (v : Option VfsInode) : Prop := ∃ node, v = some (.iso9660 node) ∧ node.isDir = false

theorem modeOf_run (v : VfsInode) :
    (∃ mode, k.vfs.mode v = some mode ∧ modeOf v k = (some mode, k)) ∨ modeOf v k = (none, k) := by
  rw [modeOf, Run.bind_of_some (Run.get_run k)]
  cases k.vfs.mode v with
  | none => exact .inr rfl
  | some mode => exact .inl ⟨mode, rfl, rfl⟩

theorem openChild_ramfs {addr : Nat} (flags : UInt32) (hk : OwnUses k) :
    Contained s (openChild (.ramfs addr) flags k) := by
  rcases modeOf_run (k := k) (.ramfs addr) with ⟨mode, -, hMode⟩ | hMode
  · have hOwn : OwnUses (openChild (.ramfs addr) flags k).2 := by
      rw [openChild, Run.bind_of_some hMode]
      split
      · refine ((keeps_asRamfs rfl).bind fun a => (keeps_onRamfs _).bind fun _ => keeps_pure _) k hk
      · exact hk
    refine ⟨hOwn, fun file hFile hOther => ?_⟩
    have hSame : file = some (.ramfs addr) := by
      rw [openChild, Run.bind_of_some hMode] at hFile
      split at hFile
      · have hAddr : k.vfs.ramfsInode (.ramfs addr) = some addr := rfl
        rw [Run.bind_of_some (asRamfs_run hAddr), Run.bind_of_some (onRamfs_run rfl)] at hFile
        exact (Option.some.inj hFile).symm
      · exact (Option.some.inj hFile).symm
    exact absurd rfl (hOther (.ramfs addr) (by rw [hSame]; rfl))
  · rw [openChild, Run.bind_of_none hMode]
    exact ⟨hk, fun file hFile => by cases hFile⟩

theorem openChild_iso {node : IsoNode} {uses : List Use} (flags : UInt32) (hUses : OwnUses ⟨s, uses⟩) :
    Contained s (openChild (.iso9660 node) flags ⟨s, uses⟩) ↔ ¬ (flags &&& oTrunc ≠ 0 ∧ node.isDir = false) := by
  have hMode : modeOf (.iso9660 node) ⟨s, uses⟩ =
      (some (if node.isDir then sIfDir ||| 0o555 else sIfReg ||| 0o444), ⟨s, uses⟩) := rfl
  have hReg : sIsReg (if node.isDir then sIfDir ||| 0o555 else sIfReg ||| 0o444) = true ↔ node.isDir = false := by
    cases node.isDir <;> decide
  rw [openChild, Run.bind_of_some hMode, ← hReg]
  generalize (if node.isDir then sIfDir ||| 0o555 else sIfReg ||| 0o444) = mode
  split
  case isTrue hBoth =>
    have hForeign : (VfsInode.iso9660 node).fsType ≠ .ramfs := by simp [VfsInode.fsType]
    rw [Run.bind_of_none (asRamfs_fails hForeign)]
    exact iff_of_false (fun h => hForeign (h.own ⟨.ramfs, .iso9660 node⟩ (by simp))) fun hNot => hNot hBoth
  case isFalse hNot => exact iff_of_true (contained_same hUses) hNot

theorem openIn_contained_iff (parent : VfsInode) (name : List Char) (flags mode : UInt32) {addr : Nat}
    (hFree : s.ramfs.inodes addr = none) {uses : List Use} (hUses : OwnUses ⟨s, uses⟩) :
    Contained s (openIn parent name flags mode addr ⟨s, uses⟩) ↔
      ¬ (flags &&& oTrunc ≠ 0 ∧ IsIsoFile (s.lookup parent name)) := by
  obtain ⟨u, hOwn, hRun⟩ := (reads_lookup (s := s) parent name).bind_run hUses
  rw [openIn, hRun]
  cases hChild : s.lookup parent name with
  | some child =>
    rcases (Vfs.lookup_fsType hChild).2 with ⟨a, rfl⟩ | ⟨node, rfl⟩
    · refine iff_of_true (openChild_ramfs flags hOwn) ?_
      rintro ⟨-, node, hEq, -⟩
      cases hEq
    · refine (openChild_iso flags hOwn).trans (not_congr (and_congr_right' ?_))
      constructor
      · exact fun hFile => ⟨node, rfl, hFile⟩
      · rintro ⟨node', hEq, hFile⟩
        cases hEq
        exact hFile
  | none =>
    refine iff_of_true ?_ ?_
    · dsimp only
      split
      case isFalse => exact contained_same hOwn
      case isTrue hHas =>
        have hParent := Vfs.fsType_of_hasOp (by decide) hHas.2
        obtain ⟨dir, hDir⟩ := Vfs.exists_ramfsInode (s := s) hParent
        obtain ⟨u', hOwn', hRun'⟩ := (reads_asRamfs hDir).bind_run hOwn
        rw [hRun']
        cases hCreate : s.ramfs.ramfsCreate dir name mode addr with
        | none =>
          have hFail : onRamfs (fun ramfs => ramfs.ramfsCreate dir name mode addr) ⟨s, u'⟩ = (none, ⟨s, u'⟩) := by
            rw [onRamfs, Run.bind_of_some (Run.get_run _)]
            simp only [hCreate]
            rfl
          rw [Run.bind_of_none hFail]
          exact ⟨hOwn', fun file hFile => by cases hFile⟩
        | some made =>
          obtain ⟨ramfs, ret⟩ := made
          rw [Run.bind_of_some (onRamfs_run hCreate)]
          split
          case isTrue => exact openChild_ramfs flags hOwn'
          case isFalse hRet => exact ⟨hOwn', fun _ _ _ => Ramfs.ramfsMake_failed hCreate hRet hFree⟩
    · rintro ⟨-, node, hEq, -⟩
      cases hEq

end Call

namespace Vfs

/-- `O_TRUNC`, for a file on an ISO volume. -/
def TruncatesIso (s : Vfs) (path : List Char) (flags : UInt32) : Prop :=
  flags &&& oTrunc ≠ 0 ∧ Call.IsIsoFile (s.vfsOpen path)

end Vfs

namespace Call

theorem not_isIsoFile_root (v : Option RootDentry) : ¬ IsIsoFile (v.map .root) := by
  rintro ⟨node, hEq, -⟩
  obtain ⟨dentry, -, hRoot⟩ := Option.map_eq_some_iff.mp hEq
  cases hRoot

theorem vfsOpen_contained_iff (s : Vfs) (path : List Char) (flags mode : UInt32) {addr : Nat}
    (hFree : s.ramfs.inodes addr = none) :
    Contained s (vfsOpen path flags mode addr ⟨s, []⟩) ↔ ¬ s.TruncatesIso path flags := by
  have hNil := ownUses_nil s
  rw [vfsOpen, Run.bind_of_some (Run.get_run _), Vfs.TruncatesIso, Vfs.vfsOpen]
  by_cases hPath : path = []
  · rw [if_pos hPath, if_pos hPath]
    exact iff_of_true (contained_same hNil) fun h => not_isIsoFile_root none h.2
  rw [if_neg hPath, if_neg hPath]
  by_cases hSlash : path = ['/']
  · rw [if_pos hSlash, if_pos hSlash]
    exact iff_of_true (contained_same hNil) fun h => not_isIsoFile_root _ h.2
  rw [if_neg hSlash, if_neg hSlash]
  cases hMount : s.table.findMountByTarget path with
  | some mounted => exact iff_of_true (contained_same hNil) fun h => not_isIsoFile_root (some _) h.2
  | none =>
    obtain ⟨u, hOwn, hRun⟩ := (reads_vfsLookupParent (s := s) path).bind_run hNil
    dsimp only
    rw [hRun]
    cases hParent : s.vfsLookupParent path with
    | some found => exact openIn_contained_iff found.1 found.2 flags mode hFree hOwn
    | none =>
      dsimp only
      by_cases hMany : '/' ∈ skipSlashes path
      · rw [if_pos hMany, if_pos (.inl hMany)]
        exact iff_of_true (contained_same hOwn) fun h => not_isIsoFile_root none h.2
      rw [if_neg hMany]
      cases hRoot : s.table.rootDentry with
      | none =>
        refine iff_of_true ⟨hOwn, fun file hFile => by cases hFile⟩ fun h => not_isIsoFile_root none ?_
        simpa using h.2
      | some root =>
        by_cases hName : skipSlashes path = []
        · dsimp only
          rw [if_pos hName, if_pos (.inr hName)]
          exact iff_of_true (contained_same hOwn) fun h => not_isIsoFile_root none h.2
        · dsimp only
          rw [if_neg hName, if_neg (not_or.mpr ⟨hMany, hName⟩)]
          exact openIn_contained_iff (.root root) _ flags mode hFree hOwn

end Call

namespace Vfs

/-- `vfs_open` takes no node for another's, and changes nodes of the RAM filesystem for its own files only. -/
def OpenContained (s : Vfs) (path : List Char) (flags mode : UInt32) (addr : Nat) : Prop :=
  Call.Contained s (Call.vfsOpen path flags mode addr ⟨s, []⟩)

/-- A private node is taken for another's only where a rename leaves the RAM filesystem, and where `O_TRUNC`
meets a file of an ISO volume. -/
theorem own_nodes_iff (s : Vfs) (old new path : List Char) (flags mode : UInt32) (addr : Nat)
    (hFree : s.ramfs.inodes addr = none) (file : VfsInode) (op : FileCall) :
    (s.RenameContained old new ↔ ¬ s.Crosses old new) ∧
    (s.OpenContained path flags mode addr ↔ ¬ s.TruncatesIso path flags) ∧
    Call.Keeps (Call.vfsCreate path mode addr) ∧ Call.Keeps (Call.vfsMkdir path mode addr) ∧
    Call.Keeps (Call.vfsUnlink path) ∧ Call.Keeps (Call.vfsRmdir path) ∧ Call.Keeps (Call.onFile file op) :=
  ⟨Call.renameContained_iff s old new, Call.vfsOpen_contained_iff s path flags mode hFree,
    Call.keeps_vfsMake (by decide) _ _ _ _, Call.keeps_vfsMake (by decide) _ _ _ _,
    Call.keeps_vfsRemove (by decide) _ _ _ _, Call.keeps_vfsRemove (by decide) _ _ _ _,
    Call.keeps_onFile file op⟩

def volumeRoot : IsoNode := .mk [] 0 20 2048 true [.mk ['F'] 0 21 100 false []]

/-- The directory `a` on the RAM filesystem at `/`, and the volume at `/c`. -/
def withVolume : Vfs where
  fileSystems := [.ramfs, .iso9660]
  table := (vfsInit.enter 0 ['r'] ['/'] FsType.ramfs.name .ramfs).enter 1 ['c', 'd'] ['/', 'c']
    FsType.iso9660.name (.iso9660 volumeRoot)
  ramfs := chain [['a']]

theorem own_nodes_withVolume :
    (withVolume.RenameContained ['/', 'a'] ['/', 'b'] ↔ ¬ withVolume.Crosses ['/', 'a'] ['/', 'b']) ∧
    (withVolume.OpenContained ['/', 'b'] (oTrunc ||| oCreat) 0o644 2 ↔
      ¬ withVolume.TruncatesIso ['/', 'b'] (oTrunc ||| oCreat)) ∧
    Call.Keeps (Call.vfsCreate ['/', 'b'] 0o644 2) ∧ Call.Keeps (Call.vfsMkdir ['/', 'b'] 0o644 2) ∧
    Call.Keeps (Call.vfsUnlink ['/', 'b']) ∧ Call.Keeps (Call.vfsRmdir ['/', 'b']) ∧
    Call.Keeps (Call.onFile (.ramfs 1) .readdir) :=
  own_nodes_iff withVolume ['/', 'a'] ['/', 'b'] ['/', 'b'] (oTrunc ||| oCreat) 0o644 2 rfl (.ramfs 1) .readdir

/-- `vfs_rename("/a", "/c/b")` and `vfs_open("/c/F", O_TRUNC)` take nodes of the volume for a `ramfs_inode`. -/
theorem foreign_nodes_used :
    ¬ withVolume.RenameContained ['/', 'a'] ['/', 'c', '/', 'b'] ∧
      ¬ withVolume.OpenContained ['/', 'c', '/', 'F'] oTrunc 0 2 := by
  constructor
  · intro hContained
    refine (Call.renameContained_iff _ _ _).mp hContained ?_
    refine ⟨.root .ramfs, ['a'], .root (.iso9660 volumeRoot), ['b'], rfl, rfl, rfl, ?_, ?_⟩
    · simp [VfsInode.fsType, RootDentry.fsType]
    · exact Option.ne_none_iff_exists'.mpr ⟨.ramfs 1, rfl⟩
  · intro hContained
    refine (Call.vfsOpen_contained_iff _ _ _ _ rfl).mp hContained ⟨by decide, ?_⟩
    exact ⟨.mk ['F'] 0 21 100 false [], rfl, rfl⟩

end Vfs

end UnixOS.Fs
