import UnixOS.X64.Vfs

/-! # Cut and paste on the desktop

`desktop_refresh`, `action_cut` and `action_paste` of `os-x86_64/kernel/gui/desktop_mgr.c`. A file that is on the
desktop is pasted onto its own path: it is opened twice, copied onto itself, and then deleted.
-/

namespace UnixOS.X64Vfs

open ByteMemory

/-! ### The actions -/

def desktopPath : List Char := ['/', 'D', 'e', 's', 'k', 't', 'o', 'p']
def desktopMaxIcons : Nat := 64

/-- A `dsk_icon_t`, without what is for drawing. -/
structure Icon where
  name : List Char
  path : List Char

structure Desktop where
  icons : List Icon
  selected : Option Nat
  clipboardPath : List Char
  clipboardCut : Bool

/-- `snprintf(path, 256, "%s/%s", DESKTOP_PATH, name)` -/
def childPath (name : List Char) : List Char := (desktopPath ++ '/' :: name).take (maxPath - 1)

def desktopRefresh (s : State) (d : Desktop) : Desktop :=
  let entries := (vfsReaddir s desktopPath 32).getD []
  { d with icons := (entries.take desktopMaxIcons).map fun e => ⟨strCpy e.name maxName, childPath e.name⟩ }

/-- An index behind the icons does nothing here; the code copies the path that an earlier icon left there. -/
def actionCut (d : Desktop) : Desktop :=
  match d.selected.bind fun i => d.icons[i]? with
  | none => d
  | some icon => { d with clipboardPath := strCpy icon.path maxPath, clipboardCut := true }

/-- The copy loop; `grants` is what `kmalloc` answers in each round, and `none` a loop that still runs. -/
def copyLoop (grants : Nat → Grant) (src dst : Nat) : Nat → State → Mem → Nat → Option State
  | 0, _, _, _ => none
  | fuel + 1, s, buf, k =>
    let (s, n, buf) := vfsRead s src buf 512
    if 0 < n then
      copyLoop grants src dst fuel (vfsWrite s dst ((List.range n.toNat).map buf) (grants k)).1 buf (k + 1)
    else some s

/-- `buf` is what the buffer on the stack held before. -/
def actionPaste (fuel : Nat) (grants : Nat → Grant) (buf : Mem) (d : Desktop) (s : State) : Option (Desktop × State) :=
  if d.clipboardPath = [] then some (d, s)
  else
    let dest := childPath (afterLastSlash d.clipboardPath)
    match vfsOpen s d.clipboardPath 0 with
    | (s, none) => some (d, s)
    | (s, some src) =>
      let copied : Option State :=
        match vfsOpen s dest (oCreat ||| oWrOnly) with
        | (s, none) => some s
        | (s, some dst) => (copyLoop grants src dst fuel s buf 0).map fun s => vfsClose s dst
      copied.map fun s =>
        let s := vfsClose s src
        if d.clipboardCut then
          let s := (vfsDelete s d.clipboardPath).1
          (desktopRefresh s { d with clipboardPath := [] }, s)
        else (desktopRefresh s d, s)

/-! ### What should be kept -/

def State.nodeAt (s : State) (path : List Char) : Option (Bool × List UInt8) :=
  (findInode s path).map fun i => ((s.inodes i).isDir, (List.range (s.inodes i).size).map fun k =>
    ((s.inodes i).data.elim 0 fun b => s.blocks b k))

structure Kept (s s' : State) (src dest : List Char) : Prop where
  stored : ∀ bytes, s.nodeAt src = some (false, bytes) → s'.nodeAt src = some (false, bytes) ∨
    s'.nodeAt dest = some (false, bytes)
  others : ∀ path, path ≠ src → path ≠ dest → s'.nodeAt path = s.nodeAt path

/-- `vfs_open` for reading succeeds. -/
def Readable (s : State) (path : List Char) : Prop :=
  (∃ fd < maxOpen, (s.openFiles fd).valid = false) ∧ ∃ i, findInode s path = some i ∧ (s.inodes i).isDir = false

theorem Kept.refl (s : State) (src dest : List Char) : Kept s s src dest := ⟨fun _ h => Or.inl h, fun _ _ _ => rfl⟩

/-! ### The copy of a file onto itself -/

section Copy

variable {s : State} {src dst idx : Nat}

structure Copying (s : State) (src dst idx : Nat) : Prop where
  two : src ≠ dst
  srcValid : (s.openFiles src).valid = true
  dstValid : (s.openFiles dst).valid = true
  srcInode : (s.openFiles src).inode = idx
  dstInode : (s.openFiles dst).inode = idx
  file : (s.inodes idx).isDir = false
  behind : (s.openFiles dst).pos ≤ (s.openFiles src).pos
  within : (s.openFiles src).pos ≤ (s.inodes idx).size

theorem openFiles_setHandle_self (s : State) (h : Nat) (f : Handle) : (s.setHandle h f).openFiles h = f :=
  Function.update_self ..

theorem openFiles_setHandle_other (s : State) {h k : Nat} (f : Handle) (hk : k ≠ h) :
    (s.setHandle h f).openFiles k = s.openFiles k := Function.update_of_ne hk ..

theorem Copying.write {n : Nat} {data : List UInt8} {kmalloc : Grant} {f : Handle} (h : Copying s src dst idx)
    (hMoved : f = { s.openFiles src with pos := (s.openFiles src).pos + n }) (hLength : data.length = n)
    (hEnd : (s.openFiles src).pos + n ≤ (s.inodes idx).size) :
    Copying (vfsWrite (s.setHandle src f) dst data kmalloc).1 src dst idx ∧
      ((vfsWrite (s.setHandle src f) dst data kmalloc).1.openFiles src).pos = (s.openFiles src).pos + n ∧
      ((vfsWrite (s.setHandle src f) dst data kmalloc).1.inodes idx).size = (s.inodes idx).size := by
  have hBehind := h.behind
  have hSrc : (s.setHandle src f).openFiles src = f := openFiles_setHandle_self s src f
  have hDst : (s.setHandle src f).openFiles dst = s.openFiles dst := openFiles_setHandle_other s f h.two.symm
  have hStay : Copying (s.setHandle src f) src dst idx := by
    refine ⟨h.two, ?_, by rw [hDst, h.dstValid], ?_, by rw [hDst, h.dstInode], h.file, ?_, ?_⟩
    · rw [hSrc, hMoved]
      exact h.srcValid
    · rw [hSrc, hMoved]
      exact h.srcInode
    · rw [hSrc, hDst, hMoved]
      exact hBehind.trans (Nat.le_add_right _ _)
    · rw [hSrc, hMoved]
      exact hEnd
  have hPos : f.pos = (s.openFiles src).pos + n := by rw [hMoved]
  unfold vfsWrite
  dsimp only
  rw [hDst, h.dstValid, if_neg Bool.false_ne_true.symm, h.dstInode, setHandle_inodes,
    if_neg (by rw [h.file]; exact Bool.false_ne_true)]
  rcases hGrow : grow (s.setHandle src f) (s.inodes idx) (((s.openFiles dst).pos + data.length) % 2 ^ 64) kmalloc
    with _ | ⟨node, blocks⟩
  · exact ⟨hStay, by rw [hSrc, hPos], rfl⟩
  · obtain ⟨-, -, hDir, -, hSize⟩ := grow_names hGrow
    have hMod : ((s.openFiles dst).pos + data.length) % 2 ^ 64 ≤ (s.openFiles dst).pos + data.length := Nat.mod_le _ _
    have hSame : (if node.size < ((s.openFiles dst).pos + data.length) % 2 ^ 64 then
        ((s.openFiles dst).pos + data.length) % 2 ^ 64 else node.size) = (s.inodes idx).size := by
      rw [if_neg (by omega), hSize]
    dsimp only
    rw [hSame]
    refine ⟨⟨h.two, ?_, ?_, ?_, ?_, ?_, ?_, ?_⟩, ?_, ?_⟩
    · rw [openFiles_setHandle_other _ _ h.two]
      exact hStay.srcValid
    · rw [openFiles_setHandle_self]
    · rw [openFiles_setHandle_other _ _ h.two]
      exact hStay.srcInode
    · rw [openFiles_setHandle_self]
    · rw [setHandle_inodes, setInode_self]
      exact hDir.trans h.file
    · rw [openFiles_setHandle_self, openFiles_setHandle_other _ _ h.two]
      show ((s.openFiles dst).pos + data.length) % 2 ^ 64 ≤ ((s.setHandle src f).openFiles src).pos
      rw [hSrc, hPos]
      omega
    · rw [openFiles_setHandle_other _ _ h.two, setHandle_inodes, setInode_self]
      show ((s.setHandle src f).openFiles src).pos ≤ (s.inodes idx).size
      rw [hSrc, hPos]
      exact hEnd
    · rw [openFiles_setHandle_other _ _ h.two]
      show ((s.setHandle src f).openFiles src).pos = _
      rw [hSrc, hPos]
    · rw [setHandle_inodes, setInode_self]

theorem Copying.loop (h : Copying s src dst idx) (grants : Nat → Grant) (fuel : Nat)
    (hFuel : (s.inodes idx).size - (s.openFiles src).pos < fuel) (buf : Mem) (k : Nat) :
    ∃ s', copyLoop grants src dst fuel s buf k = some s' ∧ SameNames s s' := by
  induction fuel generalizing s buf k with
  | zero => exact absurd hFuel (Nat.not_lt_zero _)
  | succ fuel ih =>
    have hNames := vfsRead_sameNames s src buf 512
    unfold copyLoop
    rcases hRead : vfsRead s src buf 512 with ⟨s₁, n, buf₁⟩
    rw [hRead] at hNames
    dsimp only at hNames ⊢
    unfold vfsRead at hRead
    dsimp only at hRead
    rw [h.srcValid, if_neg Bool.false_ne_true.symm, h.srcInode, if_neg (by rw [h.file]; exact Bool.false_ne_true)] at hRead
    split at hRead
    case isTrue hEnd =>
      cases hRead
      exact ⟨s, rfl, SameNames.refl s⟩
    case isFalse hMore =>
      have hCount : (if 512 < (s.inodes idx).size - (s.openFiles src).pos then 512
          else (s.inodes idx).size - (s.openFiles src).pos) = min 512 ((s.inodes idx).size - (s.openFiles src).pos) := by
        split <;> omega
      rw [hCount] at hRead
      have hSize : toSsize (min 512 ((s.inodes idx).size - (s.openFiles src).pos)) =
          (min 512 ((s.inodes idx).size - (s.openFiles src).pos) : Nat) := by
        unfold toSsize
        exact Int.bmod_eq_of_le (by omega) (by omega)
      rw [hSize] at hRead
      simp only [Prod.mk.injEq] at hRead
      obtain ⟨rfl, rfl, -⟩ := hRead
      have hPos : (0 : Int) < (min 512 ((s.inodes idx).size - (s.openFiles src).pos) : Nat) := by omega
      obtain ⟨hNext, hSrcPos, hSame⟩ := @Copying.write s src dst idx _ ((List.range (Int.toNat
        (min 512 ((s.inodes idx).size - (s.openFiles src).pos) : Nat))).map buf₁) (grants k)
        ⟨true, idx, (s.openFiles src).flags, _⟩ h (by simp only [h.srcValid, h.srcInode]; rfl)
        (by rw [List.length_map, List.length_range, Int.toNat_natCast]) (by omega)
      rw [if_pos hPos]
      obtain ⟨s', hLoop, hKept⟩ := ih hNext (by rw [hSame, hSrcPos]; omega) buf₁ (k + 1)
      exact ⟨s', hLoop, (hNames.trans (vfsWrite_sameNames _ dst _ (grants k))).trans hKept⟩

theorem copyLoop_mono {grants : Nat → Grant} {fuel more k : Nat} {buf : Mem} {s' : State}
    (h : copyLoop grants src dst fuel s buf k = some s') (hMore : fuel ≤ more) :
    copyLoop grants src dst more s buf k = some s' := by
  induction fuel generalizing s buf k more with
  | zero => cases h
  | succ fuel ih =>
    obtain ⟨more, rfl⟩ := Nat.exists_eq_add_of_lt hMore
    unfold copyLoop at h ⊢
    dsimp only at h ⊢
    split at h
    · rw [if_pos ‹_›]
      exact ih h (Nat.le_add_right _ _)
    · rw [if_neg ‹_›]
      exact h

end Copy

/-! ### The paste -/

section Paste

variable {s : State} {path : List Char}

theorem childPath_short {name : List Char} (h : name.length < maxName) :
    childPath name = desktopPath ++ '/' :: name ∧ (childPath name).length + 1 < maxPath := by
  have hName : name.length < 64 := h
  have hWhole : childPath name = desktopPath ++ '/' :: name := by
    refine List.take_of_length_le ?_
    simp only [desktopPath, maxPath, List.length_append, List.length_cons, List.length_nil]
    omega
  refine ⟨hWhole, ?_⟩
  rw [hWhole]
  simp only [desktopPath, maxPath, List.length_append, List.length_cons, List.length_nil]
  omega

theorem afterLastSlash_append (front : List Char) {name : List Char} (h : '/' ∉ name) :
    afterLastSlash (front ++ '/' :: name) = name := by
  have hName : ∀ c ∈ name.reverse, (decide (c ≠ '/')) = true := by
    intro c hc
    rw [decide_eq_true_eq]
    rintro rfl
    exact h (List.mem_reverse.mp hc)
  rw [afterLastSlash, List.reverse_append, List.reverse_cons, List.append_assoc, List.takeWhile_append_of_pos hName]
  simp

theorem icon_path (h : NamesInv s) {d : Desktop} {icon : Icon} (hIcon : icon ∈ (desktopRefresh s d).icons) :
    icon.path.length + 1 < maxPath ∧ icon.path ≠ [] ∧ childPath (afterLastSlash icon.path) = icon.path := by
  obtain ⟨e, he, rfl⟩ := List.mem_map.mp hIcon
  have hEntry := List.mem_of_mem_take he
  unfold vfsReaddir at hEntry
  split at hEntry
  · cases hEntry
  split at hEntry
  · obtain ⟨i, hi, rfl⟩ := List.mem_map.mp hEntry
    have hLt := List.mem_range.mp (List.mem_filter.mp (List.mem_of_mem_take hi)).1
    obtain ⟨hSlash, -⟩ := h.name i hLt
    have hCut : (strCpy (s.inodes i).name maxName).length < maxName :=
      Nat.lt_of_le_of_lt (List.length_take_le ..) (by decide)
    have hFree : '/' ∉ strCpy (s.inodes i).name maxName := fun hMem => hSlash (List.mem_of_mem_take hMem)
    obtain ⟨hWhole, hShort⟩ := childPath_short hCut
    dsimp only
    refine ⟨hShort, ?_, ?_⟩
    · rw [hWhole]
      exact nofun
    · rw [hWhole, afterLastSlash_append _ hFree, hWhole]
  · cases hEntry

theorem findInode_removeInode (h : NamesInv s) {idx : Nat} (hFound : findInode s path = some idx)
    (hShort : path.length + 1 < maxPath) : findInode (removeInode s idx) path = none := by
  obtain ⟨hIdx, hPath, -⟩ := findInode_eq_some_iff.mp hFound
  rw [findInode_eq_none_iff]
  intro i hi hSame
  rw [removeInode_count] at hi
  rw [removeInode_inodes hi] at hSame
  exact slotSource_ne hi (h.unique _ _ (slotSource_lt hi) hIdx (hSame.trans hPath.symm) (hSame ▸ hShort))

theorem vfsOpen_not_readable (h : ¬ Readable s path) : vfsOpen s path 0 = (s, none) := by
  rcases vfsOpen_cases s path 0 with ⟨hEq, -⟩ | ⟨fd, idx, hFree, ⟨hFound, hFile, -⟩ | ⟨-, hCreate, -⟩⟩
  · exact hEq
  · exact absurd ⟨⟨fd, hFree.1, hFree.2.1⟩, idx, hFound, hFile⟩ h
  · exact absurd (UInt32.zero_and) hCreate

theorem truncated_eq {flags : UInt32} (idx : Nat) (h : flags &&& oTrunc = 0) : s.truncated idx flags = s :=
  if_neg (not_not.mpr h)

theorem opened_eq {flags : UInt32} (fd idx : Nat) (hTrunc : flags &&& oTrunc = 0) (hAppend : flags &&& oAppend = 0) :
    s.opened fd idx flags = s.setHandle fd ⟨true, idx, flags, 0⟩ := by
  rw [State.opened, truncated_eq idx hTrunc, if_neg (not_not.mpr hAppend)]

theorem vfsOpen_readable {idx : Nat} (hHandle : ∃ fd < maxOpen, (s.openFiles fd).valid = false)
    (hFound : findInode s path = some idx) (hFile : (s.inodes idx).isDir = false) :
    ∃ fd, FreeHandle s fd ∧ vfsOpen s path 0 = (s.setHandle fd ⟨true, idx, 0, 0⟩, some fd) := by
  rcases vfsOpen_cases s path 0 with ⟨-, hFull | ⟨i, hI, hDir⟩ | ⟨hNone, -⟩⟩ |
    ⟨fd, i, hFree, ⟨hI, -, hEq⟩ | ⟨-, hCreate, -⟩⟩
  · obtain ⟨fd, hFd, hFree⟩ := hHandle
    rw [hFull fd hFd] at hFree
    cases hFree
  · rw [hFound] at hI
    rw [← Option.some.inj hI, hFile] at hDir
    cases hDir
  · rw [hFound] at hNone
    cases hNone
  · rw [hFound] at hI
    obtain rfl := Option.some.inj hI
    exact ⟨fd, hFree, by rw [hEq, opened_eq fd idx (by decide) (by decide)]⟩
  · exact absurd (UInt32.zero_and) hCreate

theorem vfsOpen_again (src : Nat) {idx : Nat} (hFound : findInode s path = some idx)
    (hFile : (s.inodes idx).isDir = false) :
    vfsOpen (s.setHandle src ⟨true, idx, 0, 0⟩) path (oCreat ||| oWrOnly) = (s.setHandle src ⟨true, idx, 0, 0⟩, none) ∨
      ∃ s' dst, vfsOpen (s.setHandle src ⟨true, idx, 0, 0⟩) path (oCreat ||| oWrOnly) = (s', some dst) ∧
        Copying s' src dst idx ∧ SameNames s s' := by
  have hFound' : findInode (s.setHandle src ⟨true, idx, 0, 0⟩) path = some idx := hFound
  rcases vfsOpen_cases (s.setHandle src ⟨true, idx, 0, 0⟩) path (oCreat ||| oWrOnly) with ⟨hEq, -⟩ |
    ⟨dst, i, hFree, ⟨hI, -, hEq⟩ | ⟨-, -, -, -, hNone, -⟩⟩
  · exact Or.inl hEq
  · rw [hFound'] at hI
    obtain rfl := Option.some.inj hI
    rw [opened_eq dst idx (by decide) (by decide)] at hEq
    have hTwo : src ≠ dst := by
      rintro rfl
      have hTaken := hFree.2.1
      rw [openFiles_setHandle_self] at hTaken
      cases hTaken
    refine Or.inr ⟨_, dst, hEq, ?_, (SameNames.setHandle s src _).trans (SameNames.setHandle _ dst _)⟩
    constructor
    case two => exact hTwo
    case file => exact hFile
    all_goals simp [openFiles_setHandle_self, openFiles_setHandle_other _ _ hTwo]
  · rw [hFound'] at hNone
    cases hNone

theorem actionPaste_readable (hNames : NamesInv s) (hRoot : RootInv s) (h : Readable s path) {d : Desktop}
    (hPath : path ≠ []) (hShort : path.length + 1 < maxPath) (hOnto : childPath (afterLastSlash path) = path)
    (hClip : d.clipboardPath = path) (hCut : d.clipboardCut = true) (grants : Nat → Grant) (buf : Mem) :
    ∃ n d' s', (∀ fuel, n ≤ fuel → actionPaste fuel grants buf d s = some (d', s')) ∧ findInode s' path = none := by
  obtain ⟨hHandle, idx, hFound, hFile⟩ := h
  obtain ⟨src, hSrc, hOpen⟩ := vfsOpen_readable hHandle hFound hFile
  have hEnd : ∀ n s₁, SameNames s s₁ →
      (∀ fuel, n ≤ fuel → actionPaste fuel grants buf d s = some (desktopRefresh (vfsDelete (vfsClose s₁ src) path).1
        { d with clipboardPath := [] }, (vfsDelete (vfsClose s₁ src) path).1)) →
      ∃ n d' s', (∀ fuel, n ≤ fuel → actionPaste fuel grants buf d s = some (d', s')) ∧ findInode s' path = none := by
    intro n s₁ hSame hRun
    refine ⟨n, _, _, hRun, ?_⟩
    have hClosed := hSame.trans (vfsClose_sameNames s₁ src)
    have hIdx : findInode (vfsClose s₁ src) path = some idx := (hClosed.findInode path).trans hFound
    rcases vfsDelete_cases (vfsClose s₁ src) path with ⟨-, -, hWhy⟩ | ⟨i, hI, -, -, hEq⟩
    · rcases hWhy idx hIdx with rfl | hDir
      · rw [hRoot.2] at hFile
        cases hFile
      · rw [hClosed.isDir, hFile] at hDir
        cases hDir
    · rw [hEq]
      exact findInode_removeInode (hNames.of_sameNames hClosed) hI hShort
  have hOpened : SameNames s (s.setHandle src ⟨true, idx, 0, 0⟩) := SameNames.setHandle s src _
  rcases vfsOpen_again src hFound hFile with hSecond | ⟨s₁, dst, hSecond, hCopying, hSame⟩
  · refine hEnd 0 _ hOpened fun fuel _ => ?_
    unfold actionPaste
    rw [hClip, if_neg hPath]
    dsimp only
    rw [hOpen, hOnto]
    dsimp only
    rw [hSecond]
    dsimp only [Option.map_some]
    rw [if_pos hCut]
  · obtain ⟨s₂, hLoop, hKept⟩ := hCopying.loop grants _ (Nat.lt_succ_self _) buf 0
    refine hEnd ((s₁.inodes idx).size - (s₁.openFiles src).pos + 1) _ ((hSame.trans hKept).trans (vfsClose_sameNames s₂ dst))
      fun fuel hFuel => ?_
    unfold actionPaste
    rw [hClip, if_neg hPath]
    dsimp only
    rw [hOpen, hOnto]
    dsimp only
    rw [hSecond]
    dsimp only
    rw [copyLoop_mono hLoop hFuel]
    dsimp only [Option.map_some]
    rw [if_pos hCut]

end Paste

/-- Whatever was done since the icons were listed and since the cut, a paste loses the file if it can open it. -/
theorem cut_paste_keeps_iff (before between : List Call) (d : Desktop) (k : Nat) (icon : Icon) (grants : Nat → Grant)
    (buf : Mem) (hIcon : (desktopRefresh (State.init.after before) d).icons[k]? = some icon) :
    let s := (State.init.after before).after between
    ∃ n d' s', (∀ fuel, n ≤ fuel → actionPaste fuel grants buf
        (actionCut { desktopRefresh (State.init.after before) d with selected := some k }) s = some (d', s')) ∧
      (Kept s s' icon.path (childPath (afterLastSlash icon.path)) ↔ ¬ Readable s icon.path) := by
  intro s
  have hNames : NamesInv (State.init.after before) := namesInv_init.after before
  obtain ⟨hShort, hPath, hOnto⟩ := icon_path hNames (List.mem_of_getElem? hIcon)
  have hCut : actionCut { desktopRefresh (State.init.after before) d with selected := some k } =
      { desktopRefresh (State.init.after before) d with
        selected := some k, clipboardPath := icon.path, clipboardCut := true } := by
    unfold actionCut
    dsimp only [Option.bind_some]
    rw [hIcon]
    dsimp only
    rw [strCpy, List.take_of_length_le (by omega)]
  rw [hCut]
  set clip : Desktop := { desktopRefresh (State.init.after before) d with
    selected := some k, clipboardPath := icon.path, clipboardCut := true } with hClip
  by_cases hRead : Readable s icon.path
  · obtain ⟨n, d', s', hRun, hGone⟩ := @actionPaste_readable s icon.path (hNames.after between)
      ((rootInv_init.after before).after between) hRead clip hPath hShort hOnto rfl rfl grants buf
    refine ⟨n, d', s', hRun, iff_of_false (fun hKept => ?_) (not_not.mpr hRead)⟩
    obtain ⟨-, i, hFound, hFile⟩ := hRead
    have hNode : s.nodeAt icon.path = some (false, (List.range (s.inodes i).size).map fun k =>
        ((s.inodes i).data.elim 0 fun b => s.blocks b k)) := by
      rw [State.nodeAt, hFound, Option.map_some, hFile]
    have hNone : s'.nodeAt icon.path = none := by
      rw [State.nodeAt, hGone, Option.map_none]
    rcases hKept.stored _ hNode with hStored | hStored
    · rw [hNone] at hStored
      cases hStored
    · rw [hOnto, hNone] at hStored
      cases hStored
  · refine ⟨0, clip, s, fun fuel _ => ?_, iff_of_true (Kept.refl s _ _) hRead⟩
    have hOpen : vfsOpen s clip.clipboardPath 0 = (s, none) := vfsOpen_not_readable hRead
    unfold actionPaste
    rw [if_neg hPath]
    dsimp only
    rw [hOpen]

def oneFile : List Call :=
  [.mkdir desktopPath, .create (childPath ['a']), .openFile (childPath ['a']) oWrOnly,
    .write 0 [7] (some (0, fun _ => 0)), .close 0]

theorem cut_paste_keeps_oneFile :
    ∃ n d' s', (∀ fuel, n ≤ fuel → actionPaste fuel (fun _ => none) (fun _ => 0) (actionCut { desktopRefresh
        (State.init.after oneFile) ⟨[], none, [], false⟩ with selected := some 0 }) (State.init.after oneFile) =
        some (d', s')) ∧
      (Kept (State.init.after oneFile) s' (childPath ['a']) (childPath (afterLastSlash (childPath ['a']))) ↔
        ¬ Readable (State.init.after oneFile) (childPath ['a'])) :=
  cut_paste_keeps_iff oneFile [] ⟨[], none, [], false⟩ 0 ⟨['a'], childPath ['a']⟩ (fun _ => none) (fun _ => 0) rfl

theorem pasted_file_lost :
    (State.init.after oneFile).nodeAt (childPath ['a']) = some (false, [7]) ∧
      (actionPaste 2 (fun _ => none) (fun _ => 0) (actionCut { desktopRefresh (State.init.after oneFile)
          ⟨[], none, [], false⟩ with selected := some 0 }) (State.init.after oneFile)).map (fun r =>
        (r.2.nodeAt (childPath ['a']), r.2.nodeAt (childPath (afterLastSlash (childPath ['a']))))) =
        some (none, none) := by
  decide +kernel

end UnixOS.X64Vfs
