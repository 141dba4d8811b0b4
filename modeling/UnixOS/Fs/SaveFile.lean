import UnixOS.Fs.RamfsCreate

/-! # Saving a whole file

`vfs_save_file` of `kernel/fs/vfs.c`, with the directories it makes above the file: the parts of the path are
built up in a buffer, and at each slash what is there so far is made. Every call may run out of memory
anywhere. Closing the file does not touch the tree.
-/

namespace UnixOS.Fs

open ByteMemory

def pathMax : Nat := 4096

def eFBig : Int := 27

def vfsSaveCreateParents : UInt32 := 1
def vfsSaveAppend : UInt32 := 2

/-- The memory that a call gets: for the VFS call with a number, in the state it finds, and for the write that
comes after some bytes. What is granted is not an inode in use. -/
structure Grant where
  kzalloc : Nat → Ramfs → Grants
  kmalloc : Nat → Nat → Option Mem
  free : ∀ n s t a, kzalloc n s t = some a → s.inodes a = none

namespace Ramfs

section Calls

variable (grant : Grant)

/-- `vfs_mkdir(current, 0755)`, whatever it returns, with the number of the next call. -/
def makeParent (s : Ramfs) (calls : Nat) (current : List Char) : Option (Ramfs × Nat) := do
  let (s', _) ← s.vfsMkdirFrom (grant.kzalloc calls s) current 0o755
  return (s', calls + 1)

def ensureLoop : Ramfs → Nat → List Char → List Char → Option (Ramfs × Nat)
  | s, calls, _, [] => some (s, calls)
  | s, calls, current, c :: rest => do
    let (s, calls) ← if c = '/' ∧ 1 < current.length then makeParent grant s calls current
      else some (s, calls)
    ensureLoop s calls (current ++ [c]) rest

def vfsEnsureParentDirs (s : Ramfs) (path : List Char) : Option (Ramfs × Nat) :=
  match path with
  | '/' :: p =>
    if pathMax ≤ path.length then some (s, 0)
    else
      match splitLastSlash p with
      | none => some (s, 0)
      | some (before, _) => do
        let (s, calls) ← ensureLoop grant s 0 ['/'] before
        if 1 < ('/' :: before).length then makeParent grant s calls ('/' :: before) else return (s, calls)
  | _ => some (s, 0)

/-- `while (total < size)`: each round writes something or is the last one. -/
def saveLoop (data : List UInt8) : Nat → Nat → Ramfs → OpenFile → Option (Ramfs × Int)
  | 0, _, _, _ => none
  | fuel + 1, total, s, f =>
    if total < data.length then do
      let (s, f, written) ← f.vfsWrite s (data.drop total) (grant.kmalloc total)
      if written ≤ 0 then return (s, -eIo) else saveLoop data fuel (total + written.toNat) s f
    else some (s, total)

def vfsSaveFile (s : Ramfs) (path : List Char) (data : List UInt8) (flags : UInt32) : Option (Ramfs × Int) :=
  if path = [] then some (s, -eInval)
  else if 0x7fffffff < data.length then some (s, -eFBig)
  else do
    let (s, calls) ← (if flags &&& vfsSaveCreateParents ≠ 0 then vfsEnsureParentDirs grant s path
      else some (s, 0))
    let openFlags := oWrOnly ||| oCreat ||| if flags &&& vfsSaveAppend ≠ 0 then oAppend else oTrunc
    match ← s.vfsOpenFrom (grant.kzalloc calls s) path openFlags 0o644 with
    | (s, none) => return (s, -eNoEnt)
    | (s, some f) => saveLoop grant data (data.length + 1) 0 s f

end Calls

/-! ### What is there stays, and what comes are directories -/

structure Grown (s s' : Ramfs) : Prop where
  good : s'.Good
  objAt : ∀ names, s'.objAt names = s.objAt names ∨ s.objAt names = none ∧ s'.objAt names = some .dir
  spares : s.Spares s' ∅

variable {s s' s'' : Ramfs} {kids : Nat → List Nat} {grant : Grant} {kzalloc : Grants} {a b p t : Nat}
  {i : RamfsInode} {n : List Char} {P : List (List Char)} {path : List Char} {type mode flags : UInt32}

theorem Grown.refl (h : s.Good) : s.Grown s := ⟨h, fun _ => .inl rfl, (h.shows ∅).spares⟩

theorem Grown.trans (h : s.Grown s') (h' : s'.Grown s'') : s.Grown s'' := by
  refine ⟨h'.good, fun names => ?_, fun names hNames b i hi => ?_⟩
  · rcases h.objAt names with hSame | ⟨hNone, hDir⟩
    · rw [← hSame]
      exact h'.objAt names
    · rcases h'.objAt names with hSame | ⟨hGone, -⟩
      · exact .inr ⟨hNone, hSame.trans hDir⟩
      · rw [hDir] at hGone
        cases hGone
  · obtain ⟨j, hj, hSame⟩ := h.spares names hNames b i hi
    obtain ⟨k, hk, hSame'⟩ := h'.spares names hNames b j hj
    exact ⟨k, hk, hSame.trans hSame'⟩

theorem FileTree.makeFrom_shows (h : s.FileTree kids)
    (hFree : ∀ t a, kzalloc t = some a → s.inodes a = none) (hP : s.resolve s.root P = some p) (hName : n ≠ [])
    (hFits : n.length ≤ nameMax) (type mode : UInt32) (t : Nat) :
    (∃ s' ret, s.ramfsMakeFrom kzalloc type t p n mode = some ⟨s', ret, none⟩ ∧ s.Shows s' s.objAt ∅) ∨
    s.objAt (P ++ [n]) = none ∧ ∃ s' ret a i inode, s.ramfsMakeFrom kzalloc type t p n mode =
        some ⟨s', ret, inode⟩ ∧ (∀ b ∈ inode, b = a) ∧
      s.Shows s' (Function.update s.objAt (P ++ [n]) (some i.obj)) ∅ ∧ s'.At (P ++ [n]) a i ∧
      i.mode = type ||| mode ∧ i.size = 0 := by
  cases hGrant : kzalloc t with
  | none =>
    obtain ⟨r, hLookup, -⟩ := h.tree.lookup (h.tree.resolve_live h.tree.rooted.root_live hP) n
    refine .inl ⟨s, if r = none then -eNoMem else -eExist, ?_, Good.shows ⟨kids, h⟩ ∅⟩
    cases r <;> simp [ramfsMakeFrom, hName, hLookup, hGrant]
  | some a =>
    have ha : ¬ s.view.live a := by simp [view, hFree t a hGrant]
    rw [ramfsMakeFrom_granted hGrant]
    rcases h.make ha hP hName hFits type mode with
      ⟨-, hNone, s', i, hMake, hShows, hAt, hMode, hSize⟩ | ⟨-, s', ret, hMake, hRet, hShows⟩
    · refine .inr ⟨hNone, ?_⟩
      cases hLater : kzalloc (t + 1) with
      | none => exact ⟨s', -eNoMem, a, i, none, by simp [hMake], by simp, hShows, hAt, hMode, hSize⟩
      | some c => exact ⟨s', 0, a, i, some a, by simp [hMake], by simp, hShows, hAt, hMode, hSize⟩
    · exact .inl ⟨s', ret, by simp [hMake, hRet], hShows⟩

theorem Good.vfsMkdirFrom (h : s.Good) (hFree : ∀ t a, kzalloc t = some a → s.inodes a = none)
    (path : List Char) (mode : UInt32) (hMode : sIsDir (sIfDir ||| mode) = true) :
    ∃ s' ret, s.vfsMkdirFrom kzalloc path mode = some (s', ret) ∧ s.Grown s' := by
  have hStay := Grown.refl h
  obtain ⟨kids, h⟩ := h
  rcases h.walkParentFrom_cases kzalloc path with
    ⟨-, hWalk⟩ | ⟨P, n, -, hName, hFits, ⟨p, hP, -, hWalk⟩ | ⟨-, t, hWalk⟩⟩
  · exact ⟨s, -eNoEnt, by simp [Ramfs.vfsMkdirFrom, vfsMakeFrom, hWalk], hStay⟩
  · cases hDentry : kzalloc (2 * P.length) with
    | none => exact ⟨s, -eNoMem, by simp [Ramfs.vfsMkdirFrom, vfsMakeFrom, hWalk, hName, hDentry], hStay⟩
    | some d =>
      rcases h.makeFrom_shows hFree hP hName hFits sIfDir mode (2 * P.length + 1) with
        ⟨s', ret, hMake, hShows⟩ | ⟨hNone, s', ret, a, i, inode, hMake, -, hShows, -, hNew, -⟩
      · refine ⟨s', ret, by simp [Ramfs.vfsMkdirFrom, vfsMakeFrom, hWalk, hName, hDentry, hMake], ?_⟩
        exact ⟨hShows.good, fun names => .inl (by rw [hShows.objAt]), hShows.spares⟩
      · refine ⟨s', ret, by simp [Ramfs.vfsMkdirFrom, vfsMakeFrom, hWalk, hName, hDentry, hMake], ?_⟩
        refine ⟨hShows.good, fun names => ?_, hShows.spares⟩
        rw [hShows.objAt]
        by_cases hHere : names = P ++ [n]
        · subst hHere
          exact .inr ⟨hNone, by rw [Function.update_self, obj_eq_dir.mpr (hNew ▸ hMode)]⟩
        · exact .inl (Function.update_of_ne hHere _ _)
  · exact ⟨s, -eNoEnt, by simp [Ramfs.vfsMkdirFrom, vfsMakeFrom, hWalk], hStay⟩

theorem Good.makeParent (h : s.Good) (grant : Grant) (calls : Nat) (current : List Char) :
    ∃ s' calls', makeParent grant s calls current = some (s', calls') ∧ s.Grown s' := by
  obtain ⟨s', ret, hMkdir, hGrown⟩ := h.vfsMkdirFrom (grant.free calls s) current 0o755 (by decide)
  exact ⟨s', calls + 1, by simp [Ramfs.makeParent, hMkdir], hGrown⟩

theorem Good.ensureLoop (h : s.Good) (grant : Grant) (calls : Nat) (current rest : List Char) :
    ∃ s' calls', ensureLoop grant s calls current rest = some (s', calls') ∧ s.Grown s' := by
  induction rest generalizing s calls current with
  | nil => exact ⟨s, calls, rfl, .refl h⟩
  | cons c rest ih =>
    rw [Ramfs.ensureLoop]
    split
    · obtain ⟨s₁, calls₁, hMake, hGrown⟩ := h.makeParent grant calls current
      obtain ⟨s', calls', hRest, hGrown'⟩ := ih hGrown.good calls₁ (current ++ [c])
      exact ⟨s', calls', by simp [hMake, hRest], hGrown.trans hGrown'⟩
    · obtain ⟨s', calls', hRest, hGrown'⟩ := ih h calls (current ++ [c])
      exact ⟨s', calls', by simp [hRest], hGrown'⟩

theorem Good.vfsEnsureParentDirs (h : s.Good) (grant : Grant) (path : List Char) :
    ∃ s' calls, vfsEnsureParentDirs grant s path = some (s', calls) ∧ s.Grown s' := by
  unfold Ramfs.vfsEnsureParentDirs
  split
  case h_2 => exact ⟨s, 0, rfl, .refl h⟩
  case h_1 p =>
    split
    · exact ⟨s, 0, rfl, .refl h⟩
    · cases splitLastSlash p with
      | none => exact ⟨s, 0, rfl, .refl h⟩
      | some r =>
        obtain ⟨s₁, calls₁, hLoop, hGrown⟩ := h.ensureLoop grant 0 ['/'] r.1
        dsimp only
        split
        · obtain ⟨s', calls', hMake, hGrown'⟩ := hGrown.good.makeParent grant calls₁ ('/' :: r.1)
          exact ⟨s', calls', by simp [hLoop, hMake], hGrown.trans hGrown'⟩
        · exact ⟨s₁, calls₁, by simp [hLoop], hGrown⟩

/-! ### Opening the file -/

def OpenedAt (s s' : Ramfs) (names : List (List Char)) (flags mode : UInt32) (f : OpenFile) : Prop :=
  f.isDir = true ∨ ∃ s₁ b i, s₁.Good ∧ s₁.At names b i ∧ sIsDir i.mode = false ∧
    (s₁ = s ∨ s.objAt names = none ∧ s.Shows s₁ (Function.update s.objAt names (some (.file []))) ∅ ∧
      i.mode = sIfReg ||| mode) ∧
    s' = (s₁.modify b fun _ => (vfsOpenInode i flags).inode) ∧
    f = ⟨false, b, (vfsOpenInode i flags).iSize, (vfsOpenInode i flags).fPos⟩

theorem openMade_some {f : OpenFile} (h : s.openMade kzalloc t a flags = some (s', some f)) :
    ∃ i, s.inodes a = some i ∧ s' = (s.modify a fun _ => (vfsOpenInode i flags).inode) ∧
      f = ⟨sIsDir i.mode, a, (vfsOpenInode i flags).iSize, (vfsOpenInode i flags).fPos⟩ := by
  unfold openMade at h
  split at h
  · cases h
  · obtain ⟨i, hi, h⟩ := Option.bind_eq_some_iff.mp h
    obtain ⟨rfl, hf⟩ := Prod.mk.inj (Option.some.inj h)
    exact ⟨i, hi, rfl, (Option.some.inj hf).symm⟩

theorem FileTree.openIn_some (h : s.FileTree kids) (hFree : ∀ t a, kzalloc t = some a → s.inodes a = none)
    (hP : s.resolve s.root P = some p) (hName : n ≠ []) (hFits : n.length ≤ nameMax) {f : OpenFile}
    (hOpen : s.openIn kzalloc t p n flags mode = some (s', some f)) :
    s.OpenedAt s' (P ++ [n]) flags mode f := by
  have hTop := h.tree.rooted.root_live
  obtain ⟨r, hLookup, -⟩ := h.tree.lookup (h.tree.resolve_live hTop hP) n
  have hThere : ∀ {u c}, s.openMade kzalloc u c flags = some (s', some f) → r = some c →
      s.OpenedAt s' (P ++ [n]) flags mode f := by
    rintro u c hMade rfl
    obtain ⟨i, hi, hs', hf⟩ := openMade_some hMade
    obtain ⟨hMem, hLabel⟩ := (h.tree.lookup_iff (h.tree.resolve_live hTop hP)).mp hLookup
    have hResolve := (h.tree.resolve_concat hTop).mpr ⟨p, hP, hMem, hLabel⟩
    cases hDir : sIsDir i.mode with
    | true => exact .inl (by rw [hf, hDir])
    | false => exact .inr ⟨s, c, i, ⟨kids, h⟩, ⟨hResolve, hi⟩, hDir, .inl rfl, hs', by rw [hf, hDir]⟩
  have hMake : ∀ {u made b}, s.ramfsMakeFrom kzalloc sIfReg u p n mode = some made → made.inode = some b →
      made.fs.openMade kzalloc (u + 2) b flags = some (s', some f) → s.OpenedAt s' (P ++ [n]) flags mode f := by
    intro u made b hNew hb hMade
    rcases h.makeFrom_shows hFree hP hName hFits sIfReg mode u with
      ⟨s₁, ret, hFail, -⟩ | ⟨hNone, s₁, ret, a, i, inode, hNew', hAddr, hShows, hAt, hMode, hSize⟩
    · obtain rfl := Option.some.inj (hNew.symm.trans hFail)
      cases hb
    · obtain rfl := Option.some.inj (hNew.symm.trans hNew')
      obtain rfl := hAddr b hb
      obtain ⟨j, hj, hs', hf⟩ := openMade_some hMade
      obtain rfl : i = j := Option.some.inj (hAt.2.symm.trans hj)
      have hDir : sIsDir i.mode = false := by rw [hMode, not_sIsDir_sIfReg]
      have hBytes : i.bytes = [] := by
        rw [RamfsInode.bytes, hSize]
        rfl
      rw [obj_eq_file.mpr ⟨hDir, hBytes⟩] at hShows
      exact .inr ⟨s₁, b, i, hShows.good, hAt, hDir, .inr ⟨hNone, hShows, hMode⟩, hs', by rw [hf, hDir]⟩
  unfold Ramfs.openIn at hOpen
  split at hOpen
  · cases hOpen
  · rw [if_neg hName, ramfsLookup, hLookup] at hOpen
    cases r with
    | none =>
      simp only [Option.bind_eq_bind, Option.bind_some, Option.pure_def] at hOpen
      split at hOpen
      · cases hOpen
      · obtain ⟨made, hNew, hOpen⟩ := Option.bind_eq_some_iff.mp hOpen
        split at hOpen
        case h_1 => cases hOpen
        case h_2 b hb => exact hMake hNew hb hOpen
    | some c =>
      simp only [Option.bind_eq_bind, Option.bind_some, Option.pure_def] at hOpen
      cases hInode : kzalloc (t + 1) with
      | none =>
        simp only [hInode, Option.bind_some] at hOpen
        split at hOpen
        · cases hOpen
        · obtain ⟨made, hNew, hOpen⟩ := Option.bind_eq_some_iff.mp hOpen
          split at hOpen
          case h_1 => cases hOpen
          case h_2 b hb => exact hMake hNew hb hOpen
      | some d =>
        simp only [hInode, Option.bind_some] at hOpen
        exact hThere hOpen rfl

theorem FileTree.vfsOpenFrom_some (h : s.FileTree kids)
    (hFree : ∀ t a, kzalloc t = some a → s.inodes a = none) {f : OpenFile}
    (hOpen : s.vfsOpenFrom kzalloc path flags mode = some (s', some f)) :
    s.OpenedAt s' (components path) flags mode f := by
  unfold Ramfs.vfsOpenFrom at hOpen
  split at hOpen
  · cases hOpen
  · rename_i hPath
    split at hOpen
    · obtain ⟨d, -, hEq⟩ := Option.map_eq_some_iff.mp hOpen
      obtain ⟨-, hf⟩ := Prod.mk.inj hEq
      exact .inl (by rw [← Option.some.inj hf])
    · split at hOpen
      · obtain ⟨-, hf⟩ := Prod.mk.inj (Option.some.inj hOpen)
        obtain ⟨d, -, rfl⟩ := Option.map_eq_some_iff.mp hf
        exact .inl rfl
      · rename_i hBelow
        rcases h.walkParentFrom_cases kzalloc path with
          ⟨hNil, -⟩ | ⟨P, n, hEq, hName, hFits, ⟨p, hP, -, hWalk⟩ | ⟨hFail, t, hWalk⟩⟩
        · exact absurd ((Vfs.compare_root_iff hPath).mpr (Vfs.components_eq_nil.mp hNil)) hBelow
        · rw [hWalk] at hOpen
          rw [hEq]
          exact h.openIn_some hFree hP hName hFits hOpen
        · rw [hWalk] at hOpen
          simp only [Option.bind_eq_bind, Option.bind_some, h.slash_of_failed_walk hEq hFail, if_true] at hOpen
          cases hOpen

/-! ### Writing it -/

/-- Two ways to start a file: from nothing, or behind what is there. -/
def startsWith (append : Bool) (old : List UInt8) : List UInt8 := if append then old else []

def openFlags (append : Bool) : UInt32 := oWrOnly ||| oCreat ||| if append then oAppend else oTrunc

theorem openedFile_openFlags (i : RamfsInode) (append : Bool) : openedFile i (openFlags append) =
    ⟨startsWith append i.bytes, (startsWith append i.bytes).length⟩ := by
  cases append with
  | false =>
    have hTrunc : openFlags false &&& oTrunc ≠ 0 := by decide
    have hAppend : openFlags false &&& oAppend = 0 := by decide
    simp [openedFile, startsWith, hTrunc, hAppend]
  | true =>
    have hTrunc : openFlags true &&& oTrunc = 0 := by decide
    have hAppend : openFlags true &&& oAppend ≠ 0 := by decide
    simp [openedFile, startsWith, hTrunc, hAppend]

theorem FileTree.saveLoop (h : s.FileTree kids) {names : List (List Char)} (hAt : s.At names b i)
    (hReg : sIsReg i.mode = true) (append : Bool) {data : List UInt8} (hData : data ≠ [])
    (hRoom : (startsWith append i.bytes).length + data.length < 2 ^ 63) {ret : Int}
    (hRun : saveLoop grant data (data.length + 1) 0
      (s.modify b fun _ => (vfsOpenInode i (openFlags append)).inode)
      ⟨false, b, (vfsOpenInode i (openFlags append)).iSize, (vfsOpenInode i (openFlags append)).fPos⟩ =
        some (s', ret)) (hRet : 0 ≤ ret) :
    ret = data.length ∧ s.Shows s'
      (Function.update s.objAt names (some (.file (startsWith append i.bytes ++ data)))) {names} := by
  have hDir := not_sIsDir_of_sIsReg hReg
  have hSound := h.sound hAt.2
  have hRefines := vfsOpenInode_refines hReg hSound (openFlags append)
  have hShapeOpen := sameShape_vfsOpenInode i (openFlags append)
  rw [openedFile_openFlags] at hRefines
  generalize vfsOpenInode i (openFlags append) = g at hRun hRefines hShapeOpen
  have hPos := hRefines.pos
  have hPosLen : 0 < data.length := List.length_pos_iff.mpr hData
  have hHere : (s.modify b fun _ => g.inode).inodes b = some g.inode := by simp [modify, hAt.2]
  have hShapeWrite := sameShape_ramfsWrite g data (grant.kmalloc 0)
  have hWhole : ramfsWrite g data (grant.kmalloc 0) = vfsWrite g data (grant.kmalloc 0) := by
    rw [UnixOS.Fs.vfsWrite, if_neg (by simp [hRefines.regular])]
  have hHandle : (⟨g.inode, g.iSize, g.fPos⟩ : File) = g := rfl
  rw [Ramfs.saveLoop, if_pos hPosLen] at hRun
  simp only [List.drop_zero, OpenFile.vfsWrite, Bool.false_eq_true, if_false, hHere, Option.bind_eq_bind,
    Option.bind_some, Option.pure_def, hHandle] at hRun
  rw [hWhole] at hRun hShapeWrite
  rcases vfsWrite_cases (grant.kmalloc 0) hRefines.sound hRefines.regular hPos hRoom with
    ⟨-, hWrite⟩ | ⟨j, hSoundJ, -, hBytes, -, hWrite⟩
  · have hNone : -eNoMem ≤ 0 := by decide
    rw [hWrite, if_pos hNone] at hRun
    obtain ⟨-, rfl⟩ := Prod.mk.inj (Option.some.inj hRun)
    exact absurd hRet (by decide)
  · rw [hWrite] at hRun hShapeWrite
    have hMore : ¬ (data.length : Int) ≤ 0 := by omega
    simp only [if_neg hMore, Int.toNat_natCast, Nat.zero_add] at hRun
    obtain ⟨fuel, hFuel⟩ := Nat.exists_eq_succ_of_ne_zero (Nat.ne_of_gt hPosLen)
    rw [hFuel, Ramfs.saveLoop, ← hFuel, if_neg (Nat.lt_irrefl _)] at hRun
    obtain ⟨hs', rfl⟩ := Prod.mk.inj (Option.some.inj hRun)
    rw [modify_modify] at hs'
    have hContent : j.bytes = startsWith append i.bytes ++ data := by
      rw [hBytes, hRefines.content, overwrite_end]
    have hShape : SameShape i j :=
      ⟨hShapeWrite.mode.trans hShapeOpen.mode, hShapeWrite.parent.trans hShapeOpen.parent,
        hShapeWrite.children.trans hShapeOpen.children, hShapeWrite.sibling.trans hShapeOpen.sibling,
        hShapeWrite.name.trans hShapeOpen.name⟩
    have hShows := (h.modify_file hAt hDir hShape hSoundJ).1
    rw [hContent] at hShows
    exact ⟨rfl, hs' ▸ hShows⟩

def contentAt (M : PathMap) (names : List (List Char)) : List UInt8 :=
  match M names with
  | some (.file c) => c
  | _ => []

structure Saved (s s' : Ramfs) (names : List (List Char)) (content : List UInt8) : Prop where
  here : s'.objAt names = some (.file content)
  above : ∀ P, P <+: names → P ≠ names → s'.objAt P = some .dir
  others : ∀ names' ≠ names, ∀ c, s'.objAt names' = some (.file c) ↔ s.objAt names' = some (.file c)

theorem Grown.file_iff (h : s.Grown s') {names : List (List Char)} {c : List UInt8} :
    s'.objAt names = some (.file c) ↔ s.objAt names = some (.file c) := by
  rcases h.objAt names with hSame | ⟨hNone, hDir⟩
  · rw [hSame]
  · rw [hNone, hDir]
    simp

theorem saved_of_shows {s₀ : Ramfs} (hGrown : s.Grown s₀) {names : List (List Char)} {content : List UInt8}
    (hGood : s'.Good) (hObj : s'.objAt = Function.update s₀.objAt names (some (.file content))) :
    s.Saved s' names content := by
  obtain ⟨kids, h⟩ := hGood
  have hHere : s'.objAt names = some (.file content) := by rw [hObj, Function.update_self]
  refine ⟨hHere, ?_, fun names' hNe c => ?_⟩
  · rintro P ⟨r, rfl⟩ hNe
    exact h.objAt_above (by rw [hHere]; simp) fun hNil => hNe (by simp [hNil])
  · rw [hObj, Function.update_of_ne hNe]
    exact hGrown.file_iff

/-- If `vfs_save_file` returns no error, it returns the size, and the file holds what was to be saved; a file
that is there already has to be a regular one. -/
theorem save_file_stored (grant : Grant) (h : s.Good) (path : List Char)
    (hFits : ∀ c ∈ pathComponents path, c.length ≤ nameMax) (data : List UInt8) (hData : data ≠ [])
    (flags : UInt32)
    (hReg : ∀ b i, s.At (pathComponents path) b i → sIsDir i.mode = false → sIsReg i.mode = true)
    (hRoom : (contentAt s.objAt (pathComponents path)).length + data.length < 2 ^ 63) (s' : Ramfs) (ret : Int)
    (hRun : vfsSaveFile grant s path data flags = some (s', ret)) (hRet : 0 ≤ ret) :
    ret = data.length ∧ s.Saved s' (pathComponents path)
      (startsWith (flags &&& vfsSaveAppend ≠ 0) (contentAt s.objAt (pathComponents path)) ++ data) := by
  have hNames := Vfs.components_of_fits hFits
  unfold vfsSaveFile at hRun
  split at hRun
  · obtain ⟨-, rfl⟩ := Prod.mk.inj (Option.some.inj hRun)
    exact absurd hRet (by decide)
  split at hRun
  · obtain ⟨-, rfl⟩ := Prod.mk.inj (Option.some.inj hRun)
    exact absurd hRet (by decide)
  obtain ⟨⟨s₀, calls⟩, hEnsure, hRun⟩ := Option.bind_eq_some_iff.mp hRun
  have hGrown : s.Grown s₀ := by
    split at hEnsure
    · obtain ⟨t, n, hEq, hGrown⟩ := h.vfsEnsureParentDirs grant path
      obtain ⟨rfl, -⟩ := Prod.mk.inj (Option.some.inj (hEq.symm.trans hEnsure))
      exact hGrown
    · obtain ⟨rfl, -⟩ := Prod.mk.inj (Option.some.inj hEnsure)
      exact .refl h
  have hFlags : (oWrOnly ||| oCreat ||| if flags &&& vfsSaveAppend ≠ 0 then oAppend else oTrunc) =
      openFlags (flags &&& vfsSaveAppend ≠ 0) := by
    simp [openFlags]
  dsimp only at hRun
  rw [hFlags] at hRun
  generalize decide (flags &&& vfsSaveAppend ≠ 0) = append at hRun ⊢
  obtain ⟨⟨s₁, file⟩, hOpen, hRun⟩ := Option.bind_eq_some_iff.mp hRun
  cases file with
  | none =>
    obtain ⟨-, rfl⟩ := Prod.mk.inj (Option.some.inj hRun)
    exact absurd hRet (by decide)
  | some f =>
    obtain ⟨kids, h₀⟩ := hGrown.good
    have hOpened := h₀.vfsOpenFrom_some (grant.free calls s₀) hOpen
    rw [hNames] at hOpened
    generalize pathComponents path = names at hReg hRoom hOpened ⊢
    rcases hOpened with hIsDir | ⟨t, b, i, hGood, hAt, hDir, hStart, rfl, rfl⟩
    · -- a directory takes no bytes
      have hPos : 0 < data.length := List.length_pos_iff.mpr hData
      have hNone : -eInval ≤ 0 := by decide
      simp only [saveLoop, if_pos hPos, OpenFile.vfsWrite, hIsDir, if_true, Option.bind_eq_bind, Option.bind_some,
        if_pos hNone] at hRun
      obtain ⟨-, rfl⟩ := Prod.mk.inj (Option.some.inj hRun)
      exact absurd hRet (by decide)
    · obtain ⟨kids', h'⟩ := hGood
      have hOld : i.bytes = contentAt s.objAt names ∧ sIsReg i.mode = true ∧
          ∀ content, Function.update t.objAt names (some (.file content)) =
            Function.update s₀.objAt names (some (.file content)) := by
        rcases hStart with rfl | ⟨hNone, hShows, hMode⟩
        · have hThere := hGrown.file_iff.mp (hAt.objAt.trans (congrArg some (obj_eq_file.mpr ⟨hDir, rfl⟩)))
          obtain ⟨b', i', hi', -⟩ := objAt_eq_some.mp hThere
          obtain ⟨j, hj, hSame⟩ := hGrown.spares names (by simp) b' i' hi'
          obtain ⟨rfl, rfl⟩ := hAt.unique hj
          refine ⟨by rw [contentAt, hThere], ?_, fun content => rfl⟩
          rw [hSame.mode] at hDir ⊢
          exact hReg _ i' hi' hDir
        · have hGone : s.objAt names = none := by
            rcases hGrown.objAt names with hSame | ⟨hOldNone, -⟩
            · rw [← hSame, hNone]
            · exact hOldNone
          have hEmpty := hAt.objAt
          rw [hShows.objAt, Function.update_self] at hEmpty
          refine ⟨?_, ?_, fun content => ?_⟩
          · rw [contentAt, hGone]
            exact (obj_eq_file.mp (Option.some.inj hEmpty).symm).2
          · rw [hMode]
            decide
          · rw [hShows.objAt, Function.update_idem]
      obtain ⟨hBytes, hRegular, hMap⟩ := hOld
      have hRoom' : (startsWith append i.bytes).length + data.length < 2 ^ 63 := by
        rw [hBytes]
        cases append with
        | false =>
          simp only [startsWith, Bool.false_eq_true, if_false, List.length_nil]
          omega
        | true => exact hRoom
      obtain ⟨hRetEq, hShows⟩ := h'.saveLoop hAt hRegular append hData hRoom' hRun hRet
      rw [hMap, hBytes] at hShows
      exact ⟨hRetEq, saved_of_shows hGrown hShows.good hShows.objAt⟩

def plentiful : Grant where
  kzalloc n s t := if (s.inodes (64 * n + t + 1)).isNone then some (64 * n + t + 1) else none
  kmalloc _ _ := some fun _ => 0
  free := by
    intro n s t a h
    split at h
    · rename_i hNone
      obtain rfl := Option.some.inj h
      simpa using hNone
    · cases h

theorem save_file_stored_mounted :
    ∃ s', vfsSaveFile plentiful (ramfsMount 0) ['/', 'd', '/', '/', 'f'] [7] vfsSaveCreateParents = some (s', 1) ∧
      (1 : Int) = [(7 : UInt8)].length ∧ (ramfsMount 0).Saved s' [['d'], ['f']]
        (startsWith (vfsSaveCreateParents &&& vfsSaveAppend ≠ 0) (contentAt (ramfsMount 0).objAt [['d'], ['f']]) ++
          [7]) := by
  have hGone : (ramfsMount 0).resolve (ramfsMount 0).root [['d'], ['f']] = none := rfl
  refine ⟨_, rfl, save_file_stored plentiful ⟨_, fileTree_ramfsMount 0⟩ ['/', 'd', '/', '/', 'f'] (by decide) [7]
    (by decide) vfsSaveCreateParents (fun b i hAt => ?_) (by decide) _ 1 rfl (by decide)⟩
  exact absurd (hGone.symm.trans hAt.1) (Option.some_ne_none b).symm

/-- A file whose mode has the bits of a regular file and of a directory, as `open` makes it where it is asked
for that mode. -/
def oddFile : Ramfs :=
  match (ramfsMount 0).ramfsCreateFile ['/', 'a'] (sIfDir ||| 0o644) (some [1, 2]) 500 grantSome with
  | some (s, _) => s
  | none => ramfsMount 0

/-- `O_TRUNC` leaves such a file as it is, so the end of its old content stays. -/
theorem odd_file_keeps_end :
    oddFile.Good ∧ ∃ s', vfsSaveFile plentiful oddFile ['/', 'a'] [7] 0 = some (s', 1) ∧
      s'.objAt [['a']] = some (.file [7, 2]) := by
  constructor
  · have hGrant : ∀ bytes : List UInt8, some [1, 2] = some bytes → bytes ≠ [] → grantSome bytes.length ≠ none :=
      fun bytes _ hNe => by simp [grantSome, hNe]
    have hMade := (fileTree_ramfsMount 0).ramfsCreateFile rfl hGrant (by decide) (a := 500) rfl ['/', 'a']
      (sIfDir ||| 0o644)
    obtain ⟨s₁, hCall, hStored⟩ := hMade.made [] ['a'] rfl ⟨rfl, rfl⟩ (by simp)
    have hEq : oddFile = s₁ := by rw [oddFile, hCall]
    exact hEq ▸ hStored.shows.good
  · refine ⟨_, rfl, ?_⟩
    decide +kernel

end Ramfs

end UnixOS.Fs
