import UnixOS.Fs.PathMap

/-! # Open files over the path map

`vfs_open`, `vfs_read`, `vfs_write` and `vfs_lseek` for callers that hold a file in a local variable. Where
memory is enough, a file opened for writing and written from its start on holds what was written, and
no other file changes.
-/

namespace UnixOS.Fs

open ByteMemory

def oRdOnly : UInt32 := 0x0000
def oWrOnly : UInt32 := 0x0001

/-- `vfs_open` where the memory it asks for is there. -/
def Ramfs.vfsOpen (s : Ramfs) (path : List Char) (flags mode : UInt32) (addr : Nat) :
    Option (Ramfs × Option OpenFile) := do
  let t ← Session.vfsOpen ⟨s, [], [], [], []⟩ path flags mode addr .granted
  return (t.fs, t.files.head?.join)

namespace OpenFile

variable (f : OpenFile) (s : Ramfs)

def vfsRead (count : Nat) : Option (OpenFile × Int × List UInt8) :=
  if f.isDir then some (f, -eInval, [])
  else do
    let inode ← s.inodes f.privateData
    let (bytes, ret, pos) := ramfsRead inode count f.fPos
    return ({ f with fPos := pos }, ret, bytes)

def vfsWrite (buf : List UInt8) (kmalloc : Nat → Option Mem) : Option (Ramfs × OpenFile × Int) :=
  if f.isDir then some (s, f, -eInval)
  else do
    let inode ← s.inodes f.privateData
    let (g, ret) := ramfsWrite ⟨inode, f.iSize, f.fPos⟩ buf kmalloc
    return (s.modify f.privateData fun _ => g.inode, { f with iSize := g.iSize, fPos := g.fPos }, ret)

def vfsLseekCur (offset : Int) : OpenFile × Int :=
  let newPos := toLoff (f.fPos + offset)
  if newPos < 0 then (f, -eInval) else ({ f with fPos := newPos }, newPos)

end OpenFile

namespace Ramfs

variable {s s' : Ramfs} {kids : Nat → List Nat} {a b p : Nat} {i j : RamfsInode} {N : List (List Char)}
  {path : List Char}

/-! ### One file changes -/

theorem FileTree.modify_file (h : s.FileTree kids) (hAt : s.At N a i) (hFile : sIsDir i.mode = false)
    (hShape : SameShape i j) (hSound : j.Sound) :
    s.Shows (s.modify a fun _ => j) (Function.update s.objAt N (some (.file j.bytes))) {N} ∧
      (s.modify a fun _ => j).At N a j := by
  have hView := view_modify hAt.2 hShape
  have hResolve := h.tree.resolve_congr hView rfl rfl
  have hInodes : ∀ c, (s.modify a fun _ => j).inodes c = if c = a then some j else s.inodes c := by
    intro c
    simp only [modify, hAt.2, Option.map_some, Function.update_apply]
  have hNew : (s.modify a fun _ => j).At N a j := ⟨(hResolve N).trans hAt.1, by rw [hInodes, if_pos rfl]⟩
  have hObj : j.obj = .file j.bytes := obj_eq_file.mpr ⟨hShape.mode ▸ hFile, rfl⟩
  have hGood : (s.modify a fun _ => j).Good := by
    refine ⟨kids, h.transfer (h.tree.congr hView rfl rfl) rfl fun c k hk => ?_⟩
    rw [hInodes] at hk
    split at hk
    case isTrue hHere =>
      obtain rfl := Option.some.inj hk
      subst hHere
      refine .inr ⟨?_, hShape.name ▸ h.names hAt.2, hSound⟩
      rintro rfl
      obtain ⟨k, hRoot, hDir⟩ := h.at_root
      obtain rfl : i = k := Option.some.inj (hAt.2.symm.trans hRoot.2)
      rw [obj_eq_dir, hFile] at hDir
      cases hDir
    case isFalse => exact .inl ⟨k, hk, .refl k⟩
  have hSpares : s.Spares (s.modify a fun _ => j) {N} := by
    intro names hNames b k hk
    have hb : b ≠ a := by
      rintro rfl
      exact hNames (h.tree.at_inj hk hAt)
    exact ⟨k, ⟨(hResolve names).trans hk.1, by rw [hInodes, if_neg hb, hk.2]⟩, .refl k⟩
  have hShows := shows_update hGood hSpares fun names b k _ hk =>
    h.tree.at_of_resolve ((hResolve names).symm.trans hk.1)
  rw [hNew.objAt, hObj] at hShows
  exact ⟨hShows, hNew⟩

/-! ### Opening -/

theorem modify_self (hi : s.inodes a = some i) : (s.modify a fun _ => i) = s := by
  have hInodes : Function.update s.inodes a ((s.inodes a).map fun _ => i) = s.inodes := by
    rw [hi, Option.map_some, ← hi, Function.update_eq_self]
  rw [modify, hInodes]

theorem openInode_eq (hi : s.inodes a = some i) (flags : UInt32) :
    Session.openInode ⟨s, [], [], [], []⟩ a flags =
      some ⟨s.modify a fun _ => (vfsOpenInode i flags).inode,
        [some ⟨sIsDir i.mode, a, (vfsOpenInode i flags).iSize, (vfsOpenInode i flags).fPos⟩], [], [], []⟩ := by
  simp [Session.openInode, hi]

theorem vfsOpen_root (hPath : path ≠ []) (hNil : components path = []) (flags mode : UInt32) (a : Nat) :
    s.vfsOpen path flags mode a = some (s, some ⟨true, s.root, 0, 0⟩) := by
  have hCompare := (Vfs.compare_root_iff hPath).mpr (Vfs.components_eq_nil.mp hNil)
  simp [vfsOpen, Session.vfsOpen, hCompare]

theorem compare_root_false (hNames : components path ≠ []) : pathCompare ['/'] path = false := by
  have hPath : path ≠ [] := by
    rintro rfl
    exact hNames rfl
  rw [Bool.eq_false_iff, ne_eq, Vfs.compare_root_iff hPath, ← Vfs.components_eq_nil]
  exact hNames

theorem FileTree.vfsOpen_found (h : s.FileTree kids) (hAt : s.At (components path) b i)
    (hPath : components path ≠ []) (flags mode : UInt32) (a : Nat) :
    s.vfsOpen path flags mode a = some (s.modify b fun _ => (vfsOpenInode i flags).inode,
      some ⟨sIsDir i.mode, b, (vfsOpenInode i flags).iSize, (vfsOpenInode i flags).fPos⟩) := by
  have hCompare := compare_root_false hPath
  have hTop := h.tree.rooted.root_live
  rcases h.vfsLookupParent_cases path with ⟨hNil, -⟩ | ⟨P, n, hEq, -, -, hWalk⟩
  · exact absurd hNil hPath
  rw [hEq] at hAt
  obtain ⟨c, hc, hMem, hName⟩ := (h.tree.resolve_concat hTop).mp hAt.1
  rcases hWalk with ⟨hNone, -⟩ | ⟨p, hP, hLookup⟩
  · rw [hNone] at hc
    cases hc
  · obtain rfl := Option.some.inj (hP.symm.trans hc)
    have hChild := (h.tree.lookup_iff (h.tree.resolve_live hTop hP)).mpr ⟨hMem, hName⟩
    simp [vfsOpen, Session.vfsOpen, hCompare, hLookup, hChild, openInode_eq hAt.2]

theorem Good.vfsOpen_rdOnly (h : s.Good) (hPath : path ≠ []) (a : Nat) :
    (s.objAt (components path) = none ∧ s.vfsOpen path oRdOnly 0 a = some (s, none)) ∨
    ∃ b i size, s.At (components path) b i ∧ (sIsDir i.mode = false → size = (i.size : Int)) ∧ size < 2 ^ 63 ∧
      s.vfsOpen path oRdOnly 0 a = some (s, some ⟨sIsDir i.mode, b, size, 0⟩) := by
  obtain ⟨kids, h⟩ := h
  by_cases hNil : components path = []
  · obtain ⟨i, hi, hDir⟩ := h.at_root
    have hMode := obj_eq_dir.mp hDir
    refine .inr ⟨s.root, i, 0, hNil ▸ hi, fun hFile => ?_, by decide, ?_⟩
    · rw [hMode] at hFile
      cases hFile
    · rw [vfsOpen_root hPath hNil, hMode]
  cases hObj : s.objAt (components path) with
  | some o =>
    obtain ⟨b, i, hi, -⟩ := objAt_eq_some.mp hObj
    have hSize := (h.sound hi.2).size_lt
    have hOpen : vfsOpenInode i oRdOnly = ⟨i, i.size, 0⟩ := by
      simp [vfsOpenInode, oRdOnly, toLoff_of_range (x := i.size) (by omega) (by omega)]
    refine .inr ⟨b, i, i.size, hi, fun _ => rfl, by omega, ?_⟩
    rw [h.vfsOpen_found hi hNil, hOpen, modify_self hi.2]
  | none =>
    refine .inl ⟨rfl, ?_⟩
    have hCompare := compare_root_false hNil
    rcases h.vfsLookupParent_cases path with ⟨hRoot, -⟩ | ⟨P, n, hEq, -, -, ⟨-, -, -, hLookup⟩ | ⟨p, hP, hLookup⟩⟩
    · exact absurd hRoot hNil
    · simp [vfsOpen, Session.vfsOpen, hCompare, hLookup]
    · rw [hEq] at hObj
      have hChild := (h.tree.objAt_child hP).mp hObj
      simp [vfsOpen, Session.vfsOpen, hCompare, hLookup, hChild, oRdOnly]

def createFlags : UInt32 := oCreat ||| oWrOnly ||| oTrunc

theorem Good.vfsOpen_create (h : s.Good) (ha : ¬ s.view.live a) (hPath : path ≠ [])
    (hFile : ∀ c, s.objAt (components path) ≠ some (.file c)) :
    (s.objAt (components path) = some .dir ∧ ∃ b size,
      s.vfsOpen path createFlags 0o644 a = some (s, some ⟨true, b, size, 0⟩)) ∨
    (s.objAt (components path) ≠ some .dir ∧ s.objAt (components path).dropLast = some .dir ∧ ∃ s' j,
      s.vfsOpen path createFlags 0o644 a = some (s', some ⟨false, a, 0, 0⟩) ∧
      s.Shows s' (Function.update s.objAt (components path) (some (.file []))) ∅ ∧
      s'.At (components path) a j ∧ sIsDir j.mode = false ∧ j.bytes = []) ∨
    (s.objAt (components path) ≠ some .dir ∧ s.objAt (components path).dropLast ≠ some .dir ∧ ∃ s',
      s.vfsOpen path createFlags 0o644 a = some (s', none) ∧ s.Shows s' s.objAt ∅) := by
  obtain ⟨kids, h⟩ := h
  by_cases hNil : components path = []
  · obtain ⟨i, hi, hDir⟩ := h.at_root
    refine .inl ⟨?_, s.root, 0, vfsOpen_root hPath hNil _ _ _⟩
    rw [hNil, hi.objAt, hDir]
  cases hObj : s.objAt (components path) with
  | some o =>
    cases o with
    | file c => exact absurd hObj (hFile c)
    | dir =>
      obtain ⟨b, i, hi, hDir⟩ := objAt_eq_some.mp hObj
      have hMode := obj_eq_dir.mp hDir
      have hOther : sIsReg i.mode = false := by
        by_contra hReg
        have hNot := not_sIsDir_of_sIsReg (by simpa using hReg)
        rw [hMode] at hNot
        cases hNot
      have hOpen : vfsOpenInode i createFlags = ⟨i, toLoff i.size, 0⟩ := by
        simp [vfsOpenInode, hOther]
      refine .inl ⟨rfl, b, toLoff i.size, ?_⟩
      rw [h.vfsOpen_found hi hNil, hOpen, modify_self hi.2, hMode]
  | none =>
    have hCompare := compare_root_false hNil
    have hCreat : ¬ createFlags &&& oCreat = 0 := by decide
    refine .inr ?_
    rcases h.vfsLookupParent_cases path with
      ⟨hRoot, -⟩ | ⟨P, n, hEq, hName, hFits, ⟨-, hParent, -, hLookup⟩ | ⟨p, hP, hLookup⟩⟩
    · exact absurd hRoot hNil
    · rw [hEq, List.dropLast_concat]
      refine .inr ⟨by simp, by simp [hParent], s, ?_, Good.shows ⟨kids, h⟩ ∅⟩
      simp [vfsOpen, Session.vfsOpen, hCompare, hLookup]
    · rw [hEq] at hObj ⊢
      rw [List.dropLast_concat]
      have hChild := (h.tree.objAt_child hP).mp hObj
      rcases h.make ha hP hName hFits sIfReg 0o644 with
        ⟨hDir, -, s', j, hMake, hShows, hAt, hMode, hSize⟩ | ⟨hNot, s', ret, hMake, hRet, hShows⟩
      · have hReg : sIsReg j.mode = true := by
          rw [hMode]
          decide
        have hNotDir := not_sIsDir_of_sIsReg hReg
        have hBytes : j.bytes = [] := by
          rw [RamfsInode.bytes, hSize]
          rfl
        have hOpen : vfsOpenInode j createFlags = ⟨j, 0, 0⟩ := by
          have hSame : { j with size := 0 } = j := by rw [← hSize]
          have hTrunc : createFlags &&& oTrunc ≠ 0 := by decide
          have hAppend : createFlags &&& oAppend = 0 := by decide
          simp [vfsOpenInode, ramfsTruncateFile, hNotDir, hReg, hSame, hTrunc, hAppend]
        rw [obj_eq_file.mpr ⟨hNotDir, hBytes⟩] at hShows
        refine .inl ⟨by simp, hDir, s', j, ?_, hShows, hAt, hNotDir, hBytes⟩
        have hModify := modify_self hAt.2
        simp [vfsOpen, Session.vfsOpen, hCompare, hLookup, hChild, hCreat, ramfsCreate, hMake,
          Session.openInode, hAt.2, hOpen, hModify, hNotDir]
      · refine .inr ⟨by simp, fun hDir => hNot ⟨hDir, hObj⟩, s', ?_, hShows⟩
        simp [vfsOpen, Session.vfsOpen, hCompare, hLookup, hChild, hCreat, ramfsCreate, hMake, hRet]

/-! ### Reading and writing -/

theorem ramfsRead_min {count : Nat} (hSound : i.Sound) (hPos : p ≤ i.size) :
    ramfsRead i count p = ramfsRead i (min count (i.size - p)) p := by
  have hSize := hSound.size_lt
  have hAvail : toSize (i.size - p) = i.size - p := by
    rw [toSize_of_nonneg (by omega) (by omega)]
    omega
  have hMin : (if count < i.size - p then count else i.size - p) =
      if min count (i.size - p) < i.size - p then min count (i.size - p) else i.size - p := by
    split <;> split <;> omega
  simp only [ramfsRead, hAvail]
  rw [hMin]

theorem vfsRead_at {count : Nat} (hi : s.inodes a = some i) (hSound : i.Sound) (hFile : sIsDir i.mode = false)
    (hPos : p ≤ i.size) (size : Int) :
    OpenFile.vfsRead ⟨false, a, size, p⟩ s count =
      some ((⟨false, a, size, (p + ((i.bytes.drop p).take count).length : Nat)⟩ : OpenFile),
        (((i.bytes.drop p).take count).length : Int), (i.bytes.drop p).take count) := by
  have hSize := hSound.size_lt
  have hRefines : Refines ⟨i, i.size, p⟩ ⟨i.bytes, p⟩ := ⟨hSound, hFile, rfl, rfl, by simp only; omega, rfl⟩
  have hRange : File.InRange ⟨i, i.size, p⟩ (.read (min count (i.size - p))) := by
    simp only [File.InRange]
    omega
  have hRead := (ramfsRead_min hSound hPos).trans (ramfsRead_refines hRefines hRange)
  have hChunk : (i.bytes.drop p).take (min count (i.size - p)) = (i.bytes.drop p).take count := by
    have hLen : (i.bytes.drop p).length = i.size - p := by simp
    rw [← hLen, List.take_eq_take_iff]
    omega
  simp only [ByteFile.chunk, hChunk] at hRead
  simp only [OpenFile.vfsRead, Bool.false_eq_true, if_false, hi, Option.bind_eq_bind, Option.bind_some,
    hRead, Nat.cast_add]
  rfl

theorem vfsLseekCur_eq {n : Nat} (hRange : p + n < 2 ^ 63) (size : Int) :
    OpenFile.vfsLseekCur ⟨false, a, size, p⟩ n =
      ((⟨false, a, size, (p + n : Nat)⟩ : OpenFile), ((p + n : Nat) : Int)) := by
  have hPos : toLoff (p + n) = ((p + n : Nat) : Int) :=
    (toLoff_of_range (by omega) (by omega)).trans (Nat.cast_add p n).symm
  have hNonneg : ¬ ((p + n : Nat) : Int) < 0 := by omega
  unfold OpenFile.vfsLseekCur
  dsimp only
  rw [hPos, if_neg hNonneg]

theorem overwrite_end (content buf : List UInt8) : overwrite content content.length buf = content ++ buf := by
  simp [overwrite]

theorem FileTree.vfsWrite_end (h : s.FileTree kids) (hAt : s.At N a i) (hFile : sIsDir i.mode = false)
    (buf : List UInt8) (hRange : i.size + buf.length < 2 ^ 63) (size : Int) (block : Nat → Mem) :
    ∃ s' size' j, OpenFile.vfsWrite ⟨false, a, size, i.size⟩ s buf (fun n => some (block n)) =
        some (s', (⟨false, a, size', (i.size + buf.length : Nat)⟩ : OpenFile), (buf.length : Int)) ∧
      s.Shows s' (Function.update s.objAt N (some (.file (i.bytes ++ buf)))) {N} ∧
      s'.At N a j ∧ sIsDir j.mode = false ∧ j.bytes = i.bytes ++ buf := by
  have hGrow : ramfsGrow i (i.size + buf.length) (fun n => some (block n)) ≠ none := by
    unfold ramfsGrow
    split <;> simp
  have hShape := sameShape_ramfsWrite ⟨i, size, i.size⟩ buf fun n => some (block n)
  obtain ⟨hNone, -⟩ | ⟨j, hSound, hMode, hBytes, -, hWrite⟩ :=
    vfsWrite_cases (f := ⟨i, size, i.size⟩) (fun n => some (block n)) (h.sound hAt.2) hFile rfl hRange
  · exact absurd hNone hGrow
  rw [UnixOS.Fs.vfsWrite, if_neg (by simp [hFile])] at hWrite
  rw [hWrite] at hShape
  have hEnd : j.bytes = i.bytes ++ buf := by
    rw [hBytes, ← RamfsInode.length_bytes i, overwrite_end]
  obtain ⟨hShows, hNew⟩ := h.modify_file hAt hFile hShape hSound
  rw [hEnd] at hShows
  refine ⟨_, j.size, j, ?_, hShows, hNew, hMode ▸ hFile, hEnd⟩
  simp only [OpenFile.vfsWrite, Bool.false_eq_true, if_false, hAt.2, Option.bind_eq_bind, Option.bind_some,
    hWrite, Nat.cast_add]
  rfl

end Ramfs

end UnixOS.Fs
