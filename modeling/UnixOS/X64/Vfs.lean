import UnixOS.Lib.Memory
import Mathlib.Data.List.TakeWhile
import Mathlib.Logic.Function.Basic

/-! # The RAM filesystem of `os-x86_64/kernel/fs/vfs.c`

All inodes lie in one array, a deletion moves the last one into the gap, and slots beyond the count keep what they
held. Each inode has its whole path as a string and the index of its parent. A handle has the index of its inode.
Data pointers are numbers of blocks; what `kmalloc` answers is an argument: no block, or one of any content.
-/

namespace UnixOS.X64Vfs

open ByteMemory

def maxFiles : Nat := 256
def maxPath : Nat := 256
def maxName : Nat := 64
def maxOpen : Nat := 32

def eNoEnt : Int := 2
def eBadF : Int := 9
def eNoMem : Int := 12
def eExist : Int := 17
def eNotDir : Int := 20
def eIsDir : Int := 21
def eInval : Int := 22
def eNoSpc : Int := 28
def eNotEmpty : Int := 39

def oWrOnly : UInt32 := 0x0001
def oCreat : UInt32 := 0x0100
def oTrunc : UInt32 := 0x0200
def oAppend : UInt32 := 0x0400

structure Inode where
  name : List Char
  path : List Char
  isDir : Bool
  data : Option Nat
  size : Nat
  capacity : Nat
  parent : Int

structure Handle where
  valid : Bool
  inode : Nat
  flags : UInt32
  pos : Nat

structure State where
  inodes : Nat → Inode
  inodeCount : Nat
  openFiles : Nat → Handle
  /-- What the blocks hold that data pointers lead to. -/
  blocks : Nat → Mem

/-- What `kmalloc` answers: `none` for `NULL`. -/
abbrev Grant := Option (Nat × Mem)

def State.setInode (s : State) (i : Nat) (node : Inode) : State := { s with inodes := Function.update s.inodes i node }

def State.setHandle (s : State) (h : Nat) (f : Handle) : State := { s with openFiles := Function.update s.openFiles h f }

def toSize (x : Int) : Nat := (x % 2 ^ 64).toNat

def toSsize (n : Nat) : Int := Int.bmod n (2 ^ 64)

/-! ### Paths -/

def strCpy (src : List Char) (max : Nat) : List Char := src.take (max - 1)

def afterLastSlash (path : List Char) : List Char := (path.reverse.takeWhile (· ≠ '/')).reverse

def beforeLastSlash (path : List Char) : List Char := ((path.reverse.dropWhile (· ≠ '/')).drop 1).reverse

def getParentPath (path : List Char) : List Char :=
  let parent := strCpy path maxPath
  let parent := if 1 < parent.length ∧ parent.getLast? = some '/' then parent.dropLast else parent
  if beforeLastSlash parent = [] then ['/'] else beforeLastSlash parent

def getFilename (path : List Char) : List Char := strCpy (afterLastSlash path) maxName

def findInode (s : State) (path : List Char) : Option Nat :=
  (List.range s.inodeCount).find? fun i => decide ((s.inodes i).path = path)

/-- The index that `find_inode` returns. -/
def indexOf (s : State) (path : List Char) : Int := (findInode s path).elim (-1) fun i => i

/-! ### Nodes -/

/-- The path and the type are in place when the parent is looked for. -/
def createInode (s : State) (path : List Char) (isDir : Bool) : State × Int :=
  if maxFiles ≤ s.inodeCount then (s, -eNoSpc)
  else if (findInode s path).isSome then (s, -eExist)
  else
    let idx := s.inodeCount
    let node : Inode :=
      { name := getFilename path, path := strCpy path maxPath, isDir := isDir, data := none, size := 0, capacity := 0
        parent := (s.inodes idx).parent }
    let s := { s.setInode idx node with inodeCount := idx + 1 }
    (s.setInode idx { node with parent := indexOf s (getParentPath path) }, idx)

def zeroInode : Inode := ⟨[], [], false, none, 0, 0, 0⟩

def State.init : State :=
  (createInode ⟨fun _ => zeroInode, 0, fun _ => ⟨false, 0, 0, 0⟩, fun _ _ => 0⟩ ['/'] true).1

def vfsMkdir (s : State) (path : List Char) : State × Int := createInode s path true

def vfsCreate (s : State) (path : List Char) : State × Int := createInode s path false

def removeInode (s : State) (idx : Nat) : State :=
  let last := s.inodeCount - 1
  if idx < last then
    let moved := Function.update s.inodes idx (s.inodes last)
    { s with
      inodes := fun i => if i < last ∧ (moved i).parent = last then { moved i with parent := idx } else moved i
      inodeCount := last }
  else { s with inodeCount := last }

def vfsDelete (s : State) (path : List Char) : State × Int :=
  match findInode s path with
  | none => (s, -eNoEnt)
  | some idx =>
    if idx = 0 then (s, -eInval)
    else if (s.inodes idx).isDir ∧ ∃ i < s.inodeCount, (s.inodes i).parent = idx then (s, -eNotEmpty)
    else (removeInode s idx, 0)

def vfsRename (s : State) (oldpath newpath : List Char) : State × Int :=
  match findInode s oldpath with
  | none => (s, -eNoEnt)
  | some idx =>
    if (findInode s newpath).isSome then (s, -eExist)
    else
      let s := s.setInode idx { s.inodes idx with path := strCpy newpath maxPath, name := getFilename newpath }
      (s.setInode idx { s.inodes idx with parent := indexOf s (getParentPath newpath) }, 0)

structure Dirent where
  name : List Char
  isDir : Bool
  size : Nat

/-- The entries; `none` for an error. -/
def vfsReaddir (s : State) (path : List Char) (maxEntries : Nat) : Option (List Dirent) :=
  match findInode s path with
  | none => none
  | some dirIdx =>
    if (s.inodes dirIdx).isDir then
      some ((((List.range s.inodeCount).filter fun i => decide ((s.inodes i).parent = dirIdx)).take maxEntries).map
        fun i => ⟨strCpy (s.inodes i).name maxName, (s.inodes i).isDir, (s.inodes i).size⟩)
    else none

/-! ### Handles -/

/-- The handle, or `none` for `NULL`. -/
def vfsOpen (s : State) (path : List Char) (flags : UInt32) : State × Option Nat :=
  match (List.range maxOpen).find? fun i => !(s.openFiles i).valid with
  | none => (s, none)
  | some fd =>
    let found : State × Option Nat :=
      match findInode s path with
      | some idx => (s, some idx)
      | none =>
        if flags &&& oCreat ≠ 0 then
          let (s, idx) := createInode s path false
          (s, if idx < 0 then none else some idx.toNat)
        else (s, none)
    match found with
    | (s, none) => (s, none)
    | (s, some idx) =>
      if (s.inodes idx).isDir then (s, none)
      else
        let s :=
          if flags &&& oTrunc ≠ 0 then s.setInode idx { s.inodes idx with data := none, size := 0, capacity := 0 } else s
        (s.setHandle fd ⟨true, idx, flags, if flags &&& oAppend ≠ 0 then (s.inodes idx).size else 0⟩, some fd)

def vfsClose (s : State) (h : Nat) : State :=
  if (s.openFiles h).valid then s.setHandle h { s.openFiles h with valid := false } else s

/-- `buf` is what the caller's buffer holds, before and after. -/
def vfsRead (s : State) (h : Nat) (buf : Mem) (count : Nat) : State × Int × Mem :=
  let f := s.openFiles h
  if f.valid = false then (s, -eBadF, buf)
  else
    let node := s.inodes f.inode
    if node.isDir then (s, -eIsDir, buf)
    else if node.size ≤ f.pos then (s, 0, buf)
    else
      let available := node.size - f.pos
      let toRead := if count < available then count else available
      let buf := match node.data with
        | none => buf
        | some b => fill buf 0 toRead fun i => s.blocks b (f.pos + i)
      (s.setHandle h { f with pos := f.pos + toRead }, toSsize toRead, buf)

/-- The node with room for `newSize` bytes and what the blocks hold then, or `none` for `-ENOMEM`. -/
def grow (s : State) (node : Inode) (newSize : Nat) (kmalloc : Grant) : Option (Inode × (Nat → Mem)) :=
  if node.capacity < newSize then
    let newCap := (newSize + 4095) % 2 ^ 64 / 4096 * 4096
    match if newCap = 0 then none else kmalloc with
    | none => none
    | some (b, content) =>
      let content := match node.data with
        | none => content
        | some old => fill content 0 node.size (s.blocks old)
      some ({ node with data := some b, capacity := newCap }, Function.update s.blocks b content)
  else some (node, s.blocks)

def vfsWrite (s : State) (h : Nat) (data : List UInt8) (kmalloc : Grant) : State × Int :=
  let f := s.openFiles h
  if f.valid = false then (s, -eBadF)
  else
    let node := s.inodes f.inode
    if node.isDir then (s, -eIsDir)
    else
      match grow s node ((f.pos + data.length) % 2 ^ 64) kmalloc with
      | none => (s, -eNoMem)
      | some (node, blocks) =>
        let blocks := match node.data with
          | none => blocks
          | some b => Function.update blocks b (fill (blocks b) f.pos data.length fun i => data.getD i 0)
        let pos := (f.pos + data.length) % 2 ^ 64
        let s := { s with blocks := blocks }
        ((s.setInode f.inode { node with size := if node.size < pos then pos else node.size }).setHandle h
          { f with pos := pos }, toSsize data.length)

/-- The `new_pos` of `vfs_seek`; `none` is its default case. -/
def seekTarget (s : State) (f : Handle) (offset whence : Int) : Option Nat :=
  if whence = 0 then some (toSize offset)
  else if whence = 1 then some (toSize (f.pos + offset))
  else if whence = 2 then some (toSize ((s.inodes f.inode).size + offset))
  else none

def vfsSeek (s : State) (h : Nat) (offset whence : Int) : State × Int :=
  let f := s.openFiles h
  if f.valid = false then (s, -eBadF)
  else
    match seekTarget s f offset whence with
    | none => (s, -eInval)
    | some newPos => (s.setHandle h { f with pos := newPos }, Int.bmod newPos (2 ^ 32))

/-! ### Runs -/

inductive Call where
  | create (path : List Char)
  | mkdir (path : List Char)
  | openFile (path : List Char) (flags : UInt32)
  | close (h : Nat)
  | read (h : Nat) (buf : Mem) (count : Nat)
  | write (h : Nat) (data : List UInt8) (kmalloc : Grant)
  | seek (h : Nat) (offset whence : Int)
  | delete (path : List Char)
  | rename (oldpath newpath : List Char)

def Call.next (s : State) : Call → State
  | .create path => (vfsCreate s path).1
  | .mkdir path => (vfsMkdir s path).1
  | .openFile path flags => (vfsOpen s path flags).1
  | .close h => vfsClose s h
  | .read h buf count => (vfsRead s h buf count).1
  | .write h data kmalloc => (vfsWrite s h data kmalloc).1
  | .seek h offset whence => (vfsSeek s h offset whence).1
  | .delete path => (vfsDelete s path).1
  | .rename oldpath newpath => (vfsRename s oldpath newpath).1

def State.after (s : State) (calls : List Call) : State := calls.foldl Call.next s

/-! ### Lookups -/

section Lookup

variable {s s' : State} {path : List Char} {i : Nat}

theorem findInode_eq_some_iff :
    findInode s path = some i ↔
      i < s.inodeCount ∧ (s.inodes i).path = path ∧ ∀ j < i, (s.inodes j).path ≠ path := by
  unfold findInode
  rw [List.find?_range_eq_some]
  simp only [decide_eq_true_eq, List.mem_range, Bool.not_eq_eq_eq_not, Bool.not_true, decide_eq_false_iff_not]
  tauto

theorem findInode_eq_none_iff : findInode s path = none ↔ ∀ j < s.inodeCount, (s.inodes j).path ≠ path := by
  unfold findInode
  rw [List.find?_eq_none]
  simp

structure SameNames (s s' : State) : Prop where
  count : s'.inodeCount = s.inodeCount
  path : ∀ i, (s'.inodes i).path = (s.inodes i).path
  name : ∀ i, (s'.inodes i).name = (s.inodes i).name
  isDir : ∀ i, (s'.inodes i).isDir = (s.inodes i).isDir
  parent : ∀ i, (s'.inodes i).parent = (s.inodes i).parent

theorem SameNames.refl (s : State) : SameNames s s := ⟨rfl, fun _ => rfl, fun _ => rfl, fun _ => rfl, fun _ => rfl⟩

theorem SameNames.trans {s'' : State} (h : SameNames s s') (h' : SameNames s' s'') : SameNames s s'' :=
  ⟨h'.count.trans h.count, fun i => (h'.path i).trans (h.path i), fun i => (h'.name i).trans (h.name i),
    fun i => (h'.isDir i).trans (h.isDir i), fun i => (h'.parent i).trans (h.parent i)⟩

theorem SameNames.findInode (h : SameNames s s') (path : List Char) : findInode s' path = findInode s path := by
  unfold X64Vfs.findInode
  rw [h.count]
  simp only [h.path]

@[simp] theorem setHandle_inodes (s : State) (h : Nat) (f : Handle) : (s.setHandle h f).inodes = s.inodes := rfl

@[simp] theorem setHandle_inodeCount (s : State) (h : Nat) (f : Handle) : (s.setHandle h f).inodeCount = s.inodeCount :=
  rfl

theorem SameNames.setHandle (s : State) (h : Nat) (f : Handle) : SameNames s (s.setHandle h f) :=
  ⟨rfl, fun _ => rfl, fun _ => rfl, fun _ => rfl, fun _ => rfl⟩

theorem SameNames.setBlocks (s : State) (blocks : Nat → Mem) : SameNames s { s with blocks := blocks } :=
  ⟨rfl, fun _ => rfl, fun _ => rfl, fun _ => rfl, fun _ => rfl⟩

theorem SameNames.setInode {node : Inode} (hName : node.name = (s.inodes i).name) (hPath : node.path = (s.inodes i).path)
    (hDir : node.isDir = (s.inodes i).isDir) (hParent : node.parent = (s.inodes i).parent) :
    SameNames s (s.setInode i node) := by
  have hField : ∀ {α : Type} (g : Inode → α), g node = g (s.inodes i) → ∀ j, g ((s.setInode i node).inodes j) =
      g (s.inodes j) := by
    intro α g hg j
    by_cases hj : j = i
    · subst hj
      exact (congrArg g (Function.update_self ..)).trans hg
    · exact congrArg g (Function.update_of_ne hj ..)
  exact ⟨rfl, hField Inode.path hPath, hField Inode.name hName, hField Inode.isDir hDir, hField Inode.parent hParent⟩

theorem vfsClose_sameNames (s : State) (h : Nat) : SameNames s (vfsClose s h) := by
  unfold vfsClose
  split
  · exact SameNames.setHandle s h _
  · exact SameNames.refl s

theorem vfsRead_sameNames (s : State) (h : Nat) (buf : Mem) (count : Nat) : SameNames s (vfsRead s h buf count).1 := by
  unfold vfsRead
  dsimp only
  split
  · exact SameNames.refl s
  split
  · exact SameNames.refl s
  split
  · exact SameNames.refl s
  · exact SameNames.setHandle s h _

theorem vfsSeek_sameNames (s : State) (h : Nat) (offset whence : Int) : SameNames s (vfsSeek s h offset whence).1 := by
  unfold vfsSeek
  dsimp only
  split
  · exact SameNames.refl s
  split
  · exact SameNames.refl s
  · exact SameNames.setHandle s h _

theorem grow_names {node node' : Inode} {n : Nat} {kmalloc : Grant} {blocks : Nat → Mem}
    (h : grow s node n kmalloc = some (node', blocks)) :
    node'.name = node.name ∧ node'.path = node.path ∧ node'.isDir = node.isDir ∧ node'.parent = node.parent ∧
      node'.size = node.size := by
  unfold grow at h
  split at h
  · dsimp only at h
    split at h
    · cases h
    · cases h
      exact ⟨rfl, rfl, rfl, rfl, rfl⟩
  · cases h
    exact ⟨rfl, rfl, rfl, rfl, rfl⟩

theorem vfsWrite_sameNames (s : State) (h : Nat) (data : List UInt8) (kmalloc : Grant) :
    SameNames s (vfsWrite s h data kmalloc).1 := by
  unfold vfsWrite
  dsimp only
  split
  · exact SameNames.refl s
  split
  · exact SameNames.refl s
  split
  · exact SameNames.refl s
  · rename_i node blocks hGrow
    obtain ⟨hName, hPath, hDir, hParent, -⟩ := grow_names hGrow
    refine SameNames.trans ?_ (SameNames.setHandle _ h _)
    apply SameNames.trans (SameNames.setBlocks s _)
    exact SameNames.setInode hName hPath hDir hParent

end Lookup

/-! ### What the calls do to the inodes -/

section Steps

variable {s : State} {path : List Char}

structure Fresh (path : List Char) (isDir : Bool) (node : Inode) : Prop where
  name : node.name = getFilename path
  path : node.path = strCpy path maxPath
  isDir : node.isDir = isDir
  data : node.data = none
  size : node.size = 0
  capacity : node.capacity = 0

def State.add (s : State) (node : Inode) : State := { s.setInode s.inodeCount node with inodeCount := s.inodeCount + 1 }

theorem createInode_cases (s : State) (path : List Char) (isDir : Bool) :
    ((createInode s path isDir).1 = s ∧ (createInode s path isDir).2 < 0 ∧
        (maxFiles ≤ s.inodeCount ∨ findInode s path ≠ none)) ∨
      ∃ node, s.inodeCount < maxFiles ∧ findInode s path = none ∧ Fresh path isDir node ∧
        node.parent = indexOf (s.add node) (getParentPath path) ∧
        createInode s path isDir = (s.add node, (s.inodeCount : Int)) := by
  unfold createInode
  split
  · exact Or.inl ⟨rfl, show -eNoSpc < 0 by decide, Or.inl ‹_›⟩
  split
  · exact Or.inl ⟨rfl, show -eExist < 0 by decide, Or.inr (Option.isSome_iff_ne_none.mp ‹_›)⟩
  · rename_i hRoom hNew
    refine Or.inr ⟨⟨getFilename path, strCpy path maxPath, isDir, none, 0, 0, indexOf (s.add ⟨getFilename path,
      strCpy path maxPath, isDir, none, 0, 0, (s.inodes s.inodeCount).parent⟩) (getParentPath path)⟩,
      Nat.lt_of_not_le hRoom, Option.not_isSome_iff_eq_none.mp hNew, ⟨rfl, rfl, rfl, rfl, rfl, rfl⟩, ?_, ?_⟩
    rotate_left
    · dsimp only
      refine Prod.ext ?_ rfl
      simp only [State.add, State.setInode, Function.update_idem]
    · refine congrArg (fun o : Option Nat => o.elim (-1 : Int) fun i => i) ?_
      unfold findInode
      refine congrArg (fun p => List.find? p _) (funext fun j => ?_)
      simp only [State.add, State.setInode, Function.update_apply]
      split <;> rfl

def slotSource (s : State) (idx i : Nat) : Nat := if i = idx then s.inodeCount - 1 else i

theorem removeInode_count (s : State) (idx : Nat) : (removeInode s idx).inodeCount = s.inodeCount - 1 := by
  unfold removeInode
  dsimp only
  split <;> rfl

theorem removeInode_inodes {idx i : Nat} (hi : i < s.inodeCount - 1) :
    (removeInode s idx).inodes i = { s.inodes (slotSource s idx i) with
      parent := if idx < s.inodeCount - 1 ∧ (s.inodes (slotSource s idx i)).parent = ((s.inodeCount - 1 : Nat) : Int)
        then (idx : Int) else (s.inodes (slotSource s idx i)).parent } := by
  have hMoved : Function.update s.inodes idx (s.inodes (s.inodeCount - 1)) i = s.inodes (slotSource s idx i) := by
    rw [Function.update_apply, slotSource]
    split <;> rfl
  unfold removeInode
  dsimp only
  split
  case isTrue hInner =>
    dsimp only
    rw [hMoved]
    simp only [hInner, hi, true_and]
    split <;> rfl
  case isFalse hLast =>
    have hOther : slotSource s idx i = i := if_neg (by omega)
    rw [hOther]
    simp only [hLast, false_and, if_false]

theorem slotSource_lt {idx i : Nat} (hi : i < s.inodeCount - 1) : slotSource s idx i < s.inodeCount := by
  unfold slotSource
  split <;> omega

theorem slotSource_ne {idx i : Nat} (hi : i < s.inodeCount - 1) : slotSource s idx i ≠ idx := by
  unfold slotSource
  split <;> omega

theorem slotSource_inj {idx i j : Nat} (hi : i < s.inodeCount - 1) (hj : j < s.inodeCount - 1)
    (h : slotSource s idx i = slotSource s idx j) : i = j := by
  unfold slotSource at h
  split at h <;> split at h <;> omega

theorem vfsDelete_cases (s : State) (path : List Char) :
    ((vfsDelete s path).1 = s ∧ (vfsDelete s path).2 < 0 ∧
        ∀ idx, findInode s path = some idx → idx = 0 ∨ (s.inodes idx).isDir = true) ∨
      ∃ idx, findInode s path = some idx ∧ idx ≠ 0 ∧
        ((s.inodes idx).isDir = true → ∀ i < s.inodeCount, (s.inodes i).parent ≠ (idx : Int)) ∧
        vfsDelete s path = (removeInode s idx, 0) := by
  unfold vfsDelete
  split
  · rename_i hNone
    exact Or.inl ⟨rfl, show -eNoEnt < 0 by decide, fun idx hFound => by rw [hNone] at hFound; cases hFound⟩
  · rename_i idx hFound
    split
    · rename_i hRoot
      refine Or.inl ⟨rfl, show -eInval < 0 by decide, fun i hi => Or.inl ?_⟩
      rw [hFound] at hi
      exact Option.some.inj hi ▸ hRoot
    split
    · rename_i hFull
      refine Or.inl ⟨rfl, show -eNotEmpty < 0 by decide, fun i hi => Or.inr ?_⟩
      rw [hFound] at hi
      exact Option.some.inj hi ▸ hFull.1
    · rename_i hRoot hEmpty
      exact Or.inr ⟨idx, hFound, hRoot, fun hDir i hi hParent => hEmpty ⟨hDir, i, hi, hParent⟩, rfl⟩

structure Renamed (path : List Char) (old node : Inode) : Prop where
  name : node.name = getFilename path
  path : node.path = strCpy path maxPath
  isDir : node.isDir = old.isDir
  data : node.data = old.data
  size : node.size = old.size
  capacity : node.capacity = old.capacity

theorem vfsRename_cases (s : State) (oldpath newpath : List Char) :
    ((vfsRename s oldpath newpath).1 = s ∧ (vfsRename s oldpath newpath).2 < 0) ∨
      ∃ idx node, findInode s oldpath = some idx ∧ findInode s newpath = none ∧ Renamed newpath (s.inodes idx) node ∧
        node.parent = indexOf (s.setInode idx node) (getParentPath newpath) ∧
        vfsRename s oldpath newpath = (s.setInode idx node, 0) := by
  unfold vfsRename
  split
  · exact Or.inl ⟨rfl, show -eNoEnt < 0 by decide⟩
  · rename_i idx hFound
    split
    · exact Or.inl ⟨rfl, show -eExist < 0 by decide⟩
    · rename_i hNew
      refine Or.inr ⟨idx, { s.inodes idx with
        path := strCpy newpath maxPath, name := getFilename newpath, parent := indexOf (s.setInode idx { s.inodes idx with
          path := strCpy newpath maxPath, name := getFilename newpath }) (getParentPath newpath) }, hFound,
        Option.not_isSome_iff_eq_none.mp hNew, ⟨rfl, rfl, rfl, rfl, rfl, rfl⟩, ?_, ?_⟩
      rotate_left
      · dsimp only
        refine Prod.ext ?_ rfl
        simp only [State.setInode, Function.update_idem, Function.update_self]
      · refine congrArg (fun o : Option Nat => o.elim (-1 : Int) fun i => i) ?_
        unfold findInode
        refine congrArg (fun p => List.find? p _) (funext fun j => ?_)
        simp only [State.setInode, Function.update_apply]
        split <;> rfl

def State.truncated (s : State) (idx : Nat) (flags : UInt32) : State :=
  if flags &&& oTrunc ≠ 0 then s.setInode idx { s.inodes idx with data := none, size := 0, capacity := 0 } else s

def State.opened (s : State) (fd idx : Nat) (flags : UInt32) : State :=
  (s.truncated idx flags).setHandle fd
    ⟨true, idx, flags, if flags &&& oAppend ≠ 0 then ((s.truncated idx flags).inodes idx).size else 0⟩

theorem truncated_sameNames (s : State) (idx : Nat) (flags : UInt32) : SameNames s (s.truncated idx flags) := by
  unfold State.truncated
  split
  · exact SameNames.setInode rfl rfl rfl rfl
  · exact SameNames.refl s

theorem opened_sameNames (s : State) (fd idx : Nat) (flags : UInt32) : SameNames s (s.opened fd idx flags) :=
  (truncated_sameNames s idx flags).trans (SameNames.setHandle _ fd _)

def FreeHandle (s : State) (fd : Nat) : Prop :=
  fd < maxOpen ∧ (s.openFiles fd).valid = false ∧ ∀ j < fd, (s.openFiles j).valid = true

theorem find_handle_iff {fd : Nat} :
    ((List.range maxOpen).find? fun i => !(s.openFiles i).valid) = some fd ↔ FreeHandle s fd := by
  rw [List.find?_range_eq_some, FreeHandle]
  simp only [List.mem_range, Bool.not_eq_eq_eq_not, Bool.not_not]
  tauto

theorem find_handle_none : ((List.range maxOpen).find? fun i => !(s.openFiles i).valid) = none ↔
    ∀ fd < maxOpen, (s.openFiles fd).valid = true := by
  rw [List.find?_eq_none]
  simp

theorem vfsOpen_cases (s : State) (path : List Char) (flags : UInt32) :
    (vfsOpen s path flags = (s, none) ∧ ((∀ fd < maxOpen, (s.openFiles fd).valid = true) ∨
        (∃ idx, findInode s path = some idx ∧ (s.inodes idx).isDir = true) ∨
        (findInode s path = none ∧ (flags &&& oCreat = 0 ∨ maxFiles ≤ s.inodeCount)))) ∨
      ∃ fd idx, FreeHandle s fd ∧
        ((findInode s path = some idx ∧ (s.inodes idx).isDir = false ∧
            vfsOpen s path flags = (s.opened fd idx flags, some fd)) ∨
          ∃ node, flags &&& oCreat ≠ 0 ∧ idx = s.inodeCount ∧ s.inodeCount < maxFiles ∧ findInode s path = none ∧
            Fresh path false node ∧ node.parent = indexOf (s.add node) (getParentPath path) ∧
            vfsOpen s path flags = ((s.add node).opened fd idx flags, some fd)) := by
  unfold vfsOpen
  rcases hHandle : (List.range maxOpen).find? fun i => !(s.openFiles i).valid with _ | fd
  · exact Or.inl ⟨rfl, Or.inl (find_handle_none.mp hHandle)⟩
  · dsimp only
    have hFree := find_handle_iff.mp hHandle
    rcases hFound : findInode s path with _ | idx
    · dsimp only
      by_cases hCreate : flags &&& oCreat ≠ 0
      · rw [if_pos hCreate]
        have hCases := createInode_cases s path false
        rcases hCases with ⟨hSame, hNeg, hWhy⟩ | ⟨node, hRoom, -, hFresh, hParent, hEq⟩
        · refine Or.inl ⟨?_, Or.inr (Or.inr ⟨rfl, Or.inr (hWhy.resolve_right (not_not.mpr hFound))⟩)⟩
          simp only [hNeg, if_true, hSame]
        · refine Or.inr ⟨fd, s.inodeCount, hFree, Or.inr ⟨node, hCreate, rfl, hRoom, rfl, hFresh, hParent, ?_⟩⟩
          have hFile : ((s.add node).inodes s.inodeCount).isDir = false := by
            rw [State.add, State.setInode]
            exact (congrArg Inode.isDir (Function.update_self ..)).trans hFresh.isDir
          rw [hEq]
          simp only [Int.not_lt.mpr (Int.natCast_nonneg s.inodeCount), if_false, Int.toNat_natCast]
          rw [if_neg (by rw [hFile]; exact Bool.false_ne_true)]
          rfl
      · rw [if_neg hCreate]
        exact Or.inl ⟨rfl, Or.inr (Or.inr ⟨rfl, Or.inl (not_not.mp hCreate)⟩)⟩
    · dsimp only
      rcases Bool.eq_false_or_eq_true (s.inodes idx).isDir with hDir | hFile
      · rw [if_pos hDir]
        exact Or.inl ⟨rfl, Or.inr (Or.inl ⟨idx, rfl, hDir⟩)⟩
      · rw [if_neg (by rw [hFile]; exact Bool.false_ne_true)]
        exact Or.inr ⟨fd, idx, hFree, Or.inl ⟨rfl, hFile, rfl⟩⟩

end Steps

/-! ### Names along a run -/

/-- A path that was not cut off when it was stored belongs to one inode only, and no name has a slash. -/
structure NamesInv (s : State) : Prop where
  unique : ∀ i j, i < s.inodeCount → j < s.inodeCount → (s.inodes i).path = (s.inodes j).path →
    (s.inodes i).path.length + 1 < maxPath → i = j
  name : ∀ i < s.inodeCount, '/' ∉ (s.inodes i).name ∧ (s.inodes i).name.length < maxName

section Names

variable {s s' : State} {path : List Char}

theorem slash_not_mem_afterLastSlash (path : List Char) : '/' ∉ afterLastSlash path := by
  rw [afterLastSlash, List.mem_reverse]
  intro h
  have hPass := List.mem_takeWhile_imp h
  simp at hPass

theorem getFilename_ok (path : List Char) : '/' ∉ getFilename path ∧ (getFilename path).length < maxName :=
  ⟨fun h => slash_not_mem_afterLastSlash path (List.mem_of_mem_take h),
    Nat.lt_of_le_of_lt (List.length_take_le ..) (by decide)⟩

theorem strCpy_eq_self (h : (strCpy path maxPath).length + 1 < maxPath) : strCpy path maxPath = path := by
  rw [strCpy, List.length_take] at h
  exact List.take_of_length_le (by omega)

theorem NamesInv.of_sameNames (h : NamesInv s) (hSame : SameNames s s') : NamesInv s' := by
  refine ⟨fun i j hi hj hPath hShort => ?_, fun i hi => ?_⟩
  · rw [hSame.count] at hi hj
    rw [hSame.path, hSame.path] at hPath
    rw [hSame.path] at hShort
    exact h.unique i j hi hj hPath hShort
  · rw [hSame.name]
    exact h.name i (hSame.count ▸ hi)

theorem NamesInv.of_new {slot : Nat} (h : NamesInv s) (hNone : findInode s path = none)
    (hCount : s'.inodeCount ≤ max s.inodeCount (slot + 1)) (hSlot : slot ≤ s.inodeCount)
    (hPath : (s'.inodes slot).path = strCpy path maxPath) (hName : (s'.inodes slot).name = getFilename path)
    (hOther : ∀ i, i ≠ slot → (s'.inodes i).path = (s.inodes i).path ∧ (s'.inodes i).name = (s.inodes i).name) :
    NamesInv s' := by
  have hNew : ∀ i, i ≠ slot → i < s'.inodeCount → (s'.inodes i).path = strCpy path maxPath →
      (strCpy path maxPath).length + 1 < maxPath → False := by
    intro i hi hLt hSame hShort
    rw [(hOther i hi).1, strCpy_eq_self hShort] at hSame
    exact findInode_eq_none_iff.mp hNone i (by omega) hSame
  refine ⟨fun i j hi hj hSame hShort => ?_, fun i hi => ?_⟩
  · by_cases hI : i = slot
    · by_cases hJ : j = slot
      · exact hI.trans hJ.symm
      · rw [hI, hPath] at hSame hShort
        exact (hNew j hJ hj hSame.symm hShort).elim
    · by_cases hJ : j = slot
      · rw [hJ, hPath] at hSame
        rw [hSame] at hShort
        exact (hNew i hI hi hSame hShort).elim
      · rw [(hOther i hI).1, (hOther j hJ).1] at hSame
        rw [(hOther i hI).1] at hShort
        exact h.unique i j (by omega) (by omega) hSame hShort
  · by_cases hI : i = slot
    · rw [hI, hName]
      exact getFilename_ok path
    · rw [(hOther i hI).2]
      exact h.name i (by omega)

theorem setInode_self (s : State) (i : Nat) (node : Inode) : (s.setInode i node).inodes i = node :=
  Function.update_self ..

theorem setInode_other (s : State) {i j : Nat} (node : Inode) (h : j ≠ i) : (s.setInode i node).inodes j = s.inodes j :=
  Function.update_of_ne h ..

theorem NamesInv.add (h : NamesInv s) {isDir : Bool} {node : Inode} (hNone : findInode s path = none)
    (hFresh : Fresh path isDir node) : NamesInv (s.add node) := by
  have hSelf : (s.add node).inodes s.inodeCount = node := setInode_self s _ node
  refine h.of_new hNone (Nat.le_max_right ..) (Nat.le_refl _) (by rw [hSelf, hFresh.path]) (by rw [hSelf, hFresh.name]) ?_
  intro i hi
  have hKept : (s.add node).inodes i = s.inodes i := setInode_other s node hi
  rw [hKept]
  exact ⟨rfl, rfl⟩

theorem NamesInv.create (h : NamesInv s) (path : List Char) (isDir : Bool) : NamesInv (createInode s path isDir).1 := by
  rcases createInode_cases s path isDir with ⟨hSame, -, -⟩ | ⟨node, -, hNone, hFresh, -, hEq⟩
  · rwa [hSame]
  · rw [hEq]
    exact h.add hNone hFresh

theorem NamesInv.remove (h : NamesInv s) (idx : Nat) : NamesInv (removeInode s idx) := by
  have hCount := removeInode_count s idx
  have hAt : ∀ i < s.inodeCount - 1, ((removeInode s idx).inodes i).path = (s.inodes (slotSource s idx i)).path ∧
      ((removeInode s idx).inodes i).name = (s.inodes (slotSource s idx i)).name := by
    intro i hi
    rw [removeInode_inodes hi]
    exact ⟨rfl, rfl⟩
  refine ⟨fun i j hi hj hPath hShort => ?_, fun i hi => ?_⟩
  · rw [hCount] at hi hj
    rw [(hAt i hi).1, (hAt j hj).1] at hPath
    rw [(hAt i hi).1] at hShort
    exact slotSource_inj hi hj (h.unique _ _ (slotSource_lt hi) (slotSource_lt hj) hPath hShort)
  · rw [hCount] at hi
    rw [(hAt i hi).2]
    exact h.name _ (slotSource_lt hi)

theorem NamesInv.next (h : NamesInv s) (c : Call) : NamesInv (c.next s) := by
  cases c with
  | create path => exact h.create path false
  | mkdir path => exact h.create path true
  | openFile path flags =>
    rw [Call.next]
    rcases vfsOpen_cases s path flags with ⟨hEq, -⟩ | ⟨fd, idx, -, ⟨-, -, hEq⟩ | ⟨node, -, -, -, hNone, hFresh, -, hEq⟩⟩
    · rwa [hEq]
    · rw [hEq]
      exact h.of_sameNames (opened_sameNames s fd idx flags)
    · rw [hEq]
      exact (h.add hNone hFresh).of_sameNames (opened_sameNames _ fd idx flags)
  | close fd => exact h.of_sameNames (vfsClose_sameNames s fd)
  | read fd buf count => exact h.of_sameNames (vfsRead_sameNames s fd buf count)
  | write fd data kmalloc => exact h.of_sameNames (vfsWrite_sameNames s fd data kmalloc)
  | seek fd offset whence => exact h.of_sameNames (vfsSeek_sameNames s fd offset whence)
  | delete path =>
    rw [Call.next]
    rcases vfsDelete_cases s path with ⟨hSame, -, -⟩ | ⟨idx, -, -, -, hEq⟩
    · rwa [hSame]
    · rw [hEq]
      exact h.remove idx
  | rename oldpath newpath =>
    rw [Call.next]
    rcases vfsRename_cases s oldpath newpath with ⟨hSame, -⟩ | ⟨idx, node, hFound, hNone, hNode, -, hEq⟩
    · rwa [hSame]
    · rw [hEq]
      have hIdx := (findInode_eq_some_iff.mp hFound).1
      refine h.of_new hNone (Nat.le_max_left ..) hIdx.le (by rw [setInode_self, hNode.path])
        (by rw [setInode_self, hNode.name]) fun i hi => ?_
      rw [setInode_other s node hi]
      exact ⟨rfl, rfl⟩

theorem namesInv_init : NamesInv State.init := by
  have hEmpty : NamesInv ⟨fun _ => zeroInode, 0, fun _ => ⟨false, 0, 0, 0⟩, fun _ _ => 0⟩ :=
    ⟨fun i _ hi => absurd hi (Nat.not_lt_zero i), fun i hi => absurd hi (Nat.not_lt_zero i)⟩
  exact hEmpty.create ['/'] true

theorem NamesInv.after (h : NamesInv s) (calls : List Call) : NamesInv (s.after calls) := by
  induction calls generalizing s with
  | nil => exact h
  | cons c calls ih => exact ih (h.next c)

def RootInv (s : State) : Prop := 0 < s.inodeCount ∧ (s.inodes 0).isDir = true

theorem RootInv.of_sameNames (h : RootInv s) (hSame : SameNames s s') : RootInv s' :=
  ⟨hSame.count ▸ h.1, (hSame.isDir 0).trans h.2⟩

theorem RootInv.add (h : RootInv s) (node : Inode) : RootInv (s.add node) :=
  ⟨Nat.succ_pos _, (congrArg Inode.isDir (setInode_other s node (Nat.ne_of_lt h.1))).trans h.2⟩

theorem RootInv.create (h : RootInv s) (path : List Char) (isDir : Bool) : RootInv (createInode s path isDir).1 := by
  rcases createInode_cases s path isDir with ⟨hSame, -, -⟩ | ⟨node, -, -, -, -, hEq⟩
  · rwa [hSame]
  · rw [hEq]
    exact h.add node

theorem RootInv.next (h : RootInv s) (c : Call) : RootInv (c.next s) := by
  cases c with
  | create path => exact h.create path false
  | mkdir path => exact h.create path true
  | openFile path flags =>
    rw [Call.next]
    rcases vfsOpen_cases s path flags with ⟨hEq, -⟩ | ⟨fd, idx, -, ⟨-, -, hEq⟩ | ⟨node, -, -, -, -, -, -, hEq⟩⟩
    · rwa [hEq]
    · rw [hEq]
      exact h.of_sameNames (opened_sameNames s fd idx flags)
    · rw [hEq]
      exact (h.add node).of_sameNames (opened_sameNames _ fd idx flags)
  | close fd => exact h.of_sameNames (vfsClose_sameNames s fd)
  | read fd buf count => exact h.of_sameNames (vfsRead_sameNames s fd buf count)
  | write fd data kmalloc => exact h.of_sameNames (vfsWrite_sameNames s fd data kmalloc)
  | seek fd offset whence => exact h.of_sameNames (vfsSeek_sameNames s fd offset whence)
  | delete path =>
    rw [Call.next]
    rcases vfsDelete_cases s path with ⟨hSame, -, -⟩ | ⟨idx, hFound, hRoot, -, hEq⟩
    · rwa [hSame]
    · have hIdx := (findInode_eq_some_iff.mp hFound).1
      rw [hEq]
      refine ⟨by rw [removeInode_count]; omega, ?_⟩
      rw [removeInode_inodes (by omega), slotSource, if_neg (Ne.symm hRoot)]
      exact h.2
  | rename oldpath newpath =>
    rw [Call.next]
    rcases vfsRename_cases s oldpath newpath with ⟨hSame, -⟩ | ⟨idx, node, -, -, hNode, -, hEq⟩
    · rwa [hSame]
    · rw [hEq]
      refine ⟨h.1, ?_⟩
      by_cases hIdx : (0 : Nat) = idx
      · subst hIdx
        rw [setInode_self, hNode.isDir]
        exact h.2
      · rw [setInode_other s node hIdx]
        exact h.2

theorem RootInv.after (h : RootInv s) (calls : List Call) : RootInv (s.after calls) := by
  induction calls generalizing s with
  | nil => exact h
  | cons c calls ih => exact ih (h.next c)

theorem rootInv_init : RootInv State.init := by
  unfold State.init
  rcases createInode_cases ⟨fun _ => zeroInode, 0, fun _ => ⟨false, 0, 0, 0⟩, fun _ _ => 0⟩ ['/'] true with
    ⟨-, -, hFull | hFound⟩ | ⟨node, -, -, hFresh, -, hEq⟩
  · exact absurd hFull (by decide)
  · exact absurd rfl hFound
  · rw [hEq]
    exact ⟨Nat.succ_pos _, (congrArg Inode.isDir (setInode_self _ _ node)).trans hFresh.isDir⟩

end Names

end UnixOS.X64Vfs
