import UnixOS.X64.Vfs

/-! # Which file an open handle acts on

A handle has the index of its inode, and `vfs_delete` moves inodes. Files are numbered here in the order in which they
were made, and the number of the file in each slot is kept beside the state.
-/

namespace UnixOS.X64Vfs

/-- The state, the files in the slots, the files that handles were opened on, and how many files were made. -/
structure Numbered where
  state : State
  fileIn : Nat → Nat
  openedOn : Nat → Nat
  made : Nat

/-- The slots after a call that leaves `s`; a new inode goes behind the others. -/
def Numbered.grown (T : Numbered) (s : State) : Numbered :=
  if T.state.inodeCount < s.inodeCount then
    ⟨s, Function.update T.fileIn T.state.inodeCount T.made, T.openedOn, T.made + 1⟩
  else { T with state := s }

def Numbered.next (T : Numbered) : Call → Numbered
  | .openFile path flags =>
    let (s, file) := vfsOpen T.state path flags
    let T := T.grown s
    match file with
    | none => T
    | some fd => { T with openedOn := Function.update T.openedOn fd (T.fileIn (s.openFiles fd).inode) }
  | .delete path =>
    let s := (vfsDelete T.state path).1
    match findInode T.state path with
    | some idx =>
      if s.inodeCount < T.state.inodeCount then
        { T with state := s, fileIn := Function.update T.fileIn idx (T.fileIn (T.state.inodeCount - 1)) }
      else { T with state := s }
    | none => { T with state := s }
  | c => T.grown (c.next T.state)

/-- After `vfs_init`, with the root as file 0. -/
def Numbered.start : Numbered := ⟨State.init, fun _ => 0, fun _ => 0, 1⟩

def Numbered.after (T : Numbered) (calls : List Call) : Numbered := calls.foldl Numbered.next T

/-- Every open handle has the index of the slot of the file that it was opened on. -/
def Numbered.HandlesRight (T : Numbered) : Prop :=
  ∀ h, (T.state.openFiles h).valid = true → (T.state.openFiles h).inode < T.state.inodeCount ∧
    T.fileIn (T.state.openFiles h).inode = T.openedOn h

structure Numbered.Distinct (T : Numbered) : Prop where
  inj : ∀ i j, i < T.state.inodeCount → j < T.state.inodeCount → T.fileIn i = T.fileIn j → i = j
  lt : ∀ i < T.state.inodeCount, T.fileIn i < T.made

/-- A successful `vfs_delete` finds no handle open on the inode that it removes, nor on the last one. -/
def SparesOpen (s : State) : Call → Prop
  | .delete path => ∀ idx, findInode s path = some idx → (vfsDelete s path).2 = 0 → ∀ h, (s.openFiles h).valid = true →
    (s.openFiles h).inode ≠ idx ∧ (s.openFiles h).inode ≠ s.inodeCount - 1
  | _ => True

/-- Every call of a run, in the state in which it is made. -/
def Numbered.Along (P : State → Call → Prop) : Numbered → List Call → Prop
  | _, [] => True
  | T, c :: calls => P T.state c ∧ Along P (T.next c) calls

/-! ### One call -/

/-- What a call leaves of the handles that are open after it. -/
def SameHandles (s s' : State) : Prop :=
  ∀ h, (s'.openFiles h).valid = true → (s.openFiles h).valid = true ∧ (s'.openFiles h).inode = (s.openFiles h).inode

theorem setHandle_openFiles (s : State) (h : Nat) (f : Handle) :
    (s.setHandle h f).openFiles = Function.update s.openFiles h f := rfl

theorem sameHandles_setHandle {s : State} {h : Nat} {f : Handle}
    (hf : f.valid = true → (s.openFiles h).valid = true ∧ f.inode = (s.openFiles h).inode) :
    SameHandles s (s.setHandle h f) := by
  intro k hValid
  by_cases hk : k = h
  · subst hk
    rw [setHandle_openFiles, Function.update_self] at hValid ⊢
    exact hf hValid
  · rw [setHandle_openFiles, Function.update_of_ne hk] at hValid ⊢
    exact ⟨hValid, rfl⟩

theorem SameHandles.refl (s : State) : SameHandles s s := fun _ hValid => ⟨hValid, rfl⟩

theorem vfsRead_sameHandles (s : State) (h : Nat) (buf : ByteMemory.Mem) (count : Nat) :
    SameHandles s (vfsRead s h buf count).1 := by
  unfold vfsRead
  dsimp only
  split
  · exact .refl s
  split
  · exact .refl s
  split
  · exact .refl s
  · exact sameHandles_setHandle fun hValid => ⟨hValid, rfl⟩

theorem vfsSeek_sameHandles (s : State) (h : Nat) (offset whence : Int) :
    SameHandles s (vfsSeek s h offset whence).1 := by
  unfold vfsSeek
  dsimp only
  split
  · exact .refl _
  · split
    · exact .refl _
    · exact sameHandles_setHandle fun hValid => ⟨hValid, rfl⟩

theorem vfsWrite_sameHandles (s : State) (h : Nat) (data : List UInt8) (kmalloc : Grant) :
    SameHandles s (vfsWrite s h data kmalloc).1 := by
  unfold vfsWrite
  dsimp only
  split
  · exact .refl _
  split
  · exact .refl _
  split
  · exact .refl _
  · exact @sameHandles_setHandle s h _ fun hValid => ⟨hValid, rfl⟩

namespace Numbered

variable {T : Numbered}

@[simp] theorem grown_state (T : Numbered) (s : State) : (T.grown s).state = s := by
  rw [grown]
  split
  · rfl
  · rfl

@[simp] theorem grown_openedOn (T : Numbered) (s : State) : (T.grown s).openedOn = T.openedOn := by
  rw [grown]
  split
  · rfl
  · rfl

theorem grown_fileIn (s : State) {i : Nat} (hi : i < T.state.inodeCount) : (T.grown s).fileIn i = T.fileIn i := by
  rw [grown]
  split
  · exact Function.update_of_ne (Nat.ne_of_lt hi) ..
  · rfl

theorem Distinct.grown (h : T.Distinct) {s : State}
    (hCount : s.inodeCount = T.state.inodeCount ∨ s.inodeCount = T.state.inodeCount + 1) : (T.grown s).Distinct := by
  rw [Numbered.grown]
  split
  · rename_i hMore
    have hNew : ∀ i < s.inodeCount, i = T.state.inodeCount ∧
        Function.update T.fileIn T.state.inodeCount T.made i = T.made ∨ i < T.state.inodeCount ∧
        Function.update T.fileIn T.state.inodeCount T.made i = T.fileIn i := by
      intro i hi
      by_cases hLast : i = T.state.inodeCount
      · exact .inl ⟨hLast, by rw [hLast, Function.update_self]⟩
      · exact .inr ⟨by omega, Function.update_of_ne hLast ..⟩
    constructor
    · intro i j hi hj hSame
      dsimp only at hSame
      rcases hNew i hi with ⟨rfl, hi'⟩ | ⟨hOld, hi'⟩ <;> rcases hNew j hj with ⟨hLast, hj'⟩ | ⟨hOld', hj'⟩
      · exact hLast.symm
      · have hLt := h.lt j hOld'
        omega
      · have hLt := h.lt i hOld
        omega
      · exact h.inj i j hOld hOld' (hi' ▸ hj' ▸ hSame)
    · intro i hi
      dsimp only
      rcases hNew i hi with ⟨-, hi'⟩ | ⟨hOld, hi'⟩
      · omega
      · have hLt := h.lt i hOld
        omega
  · have hEq : s.inodeCount = T.state.inodeCount := by omega
    exact ⟨fun i j hi hj => h.inj i j (hEq ▸ hi) (hEq ▸ hj), fun i hi => h.lt i (hEq ▸ hi)⟩

theorem HandlesRight.grown (h : T.HandlesRight) {s : State} (hCount : T.state.inodeCount ≤ s.inodeCount)
    (hHandles : SameHandles T.state s) : (T.grown s).HandlesRight := by
  intro k hValid
  rw [grown_state] at hValid
  obtain ⟨hBefore, hInode⟩ := hHandles k hValid
  obtain ⟨hLt, hFile⟩ := h k hBefore
  rw [grown_state, grown_openedOn, hInode, grown_fileIn s hLt]
  exact ⟨by omega, hFile⟩

def Keeps (T : Numbered) (c : Call) : Prop := (T.next c).Distinct ∧ ((T.next c).HandlesRight ↔ SparesOpen T.state c)

theorem keeps_of_grown (hDistinct : T.Distinct) (hRight : T.HandlesRight) {c : Call} {s : State}
    (hNext : T.next c = T.grown s) (hSpares : SparesOpen T.state c)
    (hCount : s.inodeCount = T.state.inodeCount ∨ s.inodeCount = T.state.inodeCount + 1)
    (hHandles : SameHandles T.state s) : T.Keeps c := by
  rw [Keeps, hNext]
  exact ⟨hDistinct.grown hCount, iff_of_true (hRight.grown (by omega) hHandles) hSpares⟩

theorem createInode_grows (s : State) (path : List Char) (isDir : Bool) :
    ((createInode s path isDir).1.inodeCount = s.inodeCount ∨
      (createInode s path isDir).1.inodeCount = s.inodeCount + 1) ∧ SameHandles s (createInode s path isDir).1 := by
  obtain ⟨hSame, -⟩ | ⟨node, -, -, -, -, hEq⟩ := createInode_cases s path isDir
  · rw [hSame]
    exact ⟨.inl rfl, .refl s⟩
  · rw [hEq]
    exact ⟨.inr rfl, .refl s⟩

theorem keeps_open (hDistinct : T.Distinct) (hRight : T.HandlesRight) (path : List Char) (flags : UInt32) :
    T.Keeps (.openFile path flags) := by
  -- the handle `fd` is opened on slot `idx`, in a state that differs from the one before in its inodes only
  have hOpened : ∀ (s : State) (fd idx : Nat), s.openFiles = T.state.openFiles →
      (s.inodeCount = T.state.inodeCount ∨ s.inodeCount = T.state.inodeCount + 1) → idx < s.inodeCount →
      vfsOpen T.state path flags = (s.opened fd idx flags, some fd) → T.Keeps (.openFile path flags) := by
    intro s fd idx hFiles hCount hIdx hOpen
    have hCount' : (s.opened fd idx flags).inodeCount = s.inodeCount := (opened_sameNames s fd idx flags).count
    have hHandle : (s.opened fd idx flags).openFiles = Function.update T.state.openFiles fd
        ⟨true, idx, flags, if flags &&& oAppend ≠ 0 then ((s.truncated idx flags).inodes idx).size else 0⟩ := by
      have hTruncated : (s.truncated idx flags).openFiles = s.openFiles := by
        rw [State.truncated]
        split
        · rfl
        · rfl
      rw [State.opened, setHandle_openFiles, hTruncated, hFiles]
    have hNext : T.next (.openFile path flags) = { T.grown (s.opened fd idx flags) with
        openedOn := Function.update T.openedOn fd ((T.grown (s.opened fd idx flags)).fileIn idx) } := by
      rw [Numbered.next, hOpen]
      dsimp only
      rw [hHandle, Function.update_self, grown_openedOn]
    have hGrown := @Distinct.grown T hDistinct (s.opened fd idx flags) (by rw [hCount']; exact hCount)
    rw [Keeps, hNext]
    refine ⟨⟨hGrown.inj, hGrown.lt⟩, iff_of_true (fun k hValid => ?_) trivial⟩
    dsimp only at hValid ⊢
    rw [grown_state, hHandle] at hValid ⊢
    by_cases hk : k = fd
    · rw [hk, Function.update_self, Function.update_self, hCount']
      exact ⟨hIdx, rfl⟩
    · rw [Function.update_of_ne hk] at hValid ⊢
      obtain ⟨hLt, hFile⟩ := hRight k hValid
      rw [Function.update_of_ne hk, hCount', grown_fileIn _ hLt]
      exact ⟨by omega, hFile⟩
  obtain ⟨hNone, -⟩ | ⟨fd, idx, -, ⟨hFound, -, hOpen⟩ | ⟨node, -, rfl, -, -, -, -, hOpen⟩⟩ :=
    vfsOpen_cases T.state path flags
  · have hNext : T.next (.openFile path flags) = T.grown T.state := by rw [Numbered.next, hNone]
    exact keeps_of_grown hDistinct hRight hNext trivial (.inl rfl) (.refl _)
  · exact hOpened T.state fd idx rfl (.inl rfl) (findInode_eq_some_iff.mp hFound).1 hOpen
  · exact hOpened (T.state.add node) fd _ rfl (.inr rfl) (Nat.lt_succ_self _) hOpen

theorem next_delete {path : List Char} {idx : Nat} (hFound : findInode T.state path = some idx)
    (hDelete : vfsDelete T.state path = (removeInode T.state idx, 0)) : T.next (.delete path) =
      { T with state := removeInode T.state idx, fileIn := fun i => T.fileIn (slotSource T.state idx i) } := by
  have hIdx := (findInode_eq_some_iff.mp hFound).1
  rw [Numbered.next, hDelete, hFound]
  dsimp only
  rw [if_pos (by rw [removeInode_count]; omega)]
  congr
  funext i
  rw [Function.update_apply, slotSource]
  split
  · rfl
  · rfl

theorem next_delete_failed {path : List Char} (hSame : (vfsDelete T.state path).1 = T.state) : T.next (.delete path) = T := by
  rw [Numbered.next, hSame]
  split
  · rw [if_neg (Nat.lt_irrefl _)]
  · rfl

/-- The inode in each slot after a deletion is the one that was in the slot of the same file, but for its parent. -/
theorem delete_follows (T : Numbered) (path : List Char) {i : Nat} (hi : i < (T.next (.delete path)).state.inodeCount) :
    ∃ j < T.state.inodeCount, (T.next (.delete path)).fileIn i = T.fileIn j ∧
      ∃ parent, (T.next (.delete path)).state.inodes i = { T.state.inodes j with parent } := by
  obtain ⟨hSame, -⟩ | ⟨idx, hFound, -, -, hDelete⟩ := vfsDelete_cases T.state path
  · rw [next_delete_failed hSame] at hi ⊢
    exact ⟨i, hi, rfl, _, rfl⟩
  · rw [next_delete hFound hDelete] at hi ⊢
    have hi' : i < T.state.inodeCount - 1 := removeInode_count T.state idx ▸ hi
    exact ⟨slotSource T.state idx i, slotSource_lt hi', rfl, _, removeInode_inodes hi'⟩

theorem keeps_delete (hDistinct : T.Distinct) (hRight : T.HandlesRight) (path : List Char) : T.Keeps (.delete path) := by
  obtain ⟨hSame, hNeg, -⟩ | ⟨idx, hFound, -, -, hDelete⟩ := vfsDelete_cases T.state path
  · rw [Keeps, next_delete_failed hSame]
    refine ⟨hDistinct, iff_of_true hRight fun idx _ hZero => ?_⟩
    omega
  · have hOpenFiles : (removeInode T.state idx).openFiles = T.state.openFiles := by
      rw [removeInode]
      split
      · rfl
      · rfl
    rw [Keeps, next_delete hFound hDelete]
    refine ⟨⟨?_, ?_⟩, ?_⟩
    · intro i j hi hj hSame
      dsimp only at hi hj hSame
      rw [removeInode_count] at hi hj
      exact slotSource_inj hi hj (hDistinct.inj _ _ (slotSource_lt hi) (slotSource_lt hj) hSame)
    · intro i hi
      dsimp only at hi ⊢
      rw [removeInode_count] at hi
      exact hDistinct.lt _ (slotSource_lt hi)
    · constructor
      · intro hAfter idx' hFound' _ h hValid
        cases Option.some.inj (hFound.symm.trans hFound')
        obtain ⟨hLt, hFile⟩ := hRight h hValid
        obtain ⟨hLt', hFile'⟩ := hAfter h (by dsimp only; rwa [hOpenFiles])
        dsimp only at hLt' hFile'
        rw [hOpenFiles, removeInode_count] at hLt'
        rw [hOpenFiles, ← hFile] at hFile'
        have hStays := hDistinct.inj _ _ (slotSource_lt hLt') hLt hFile'
        refine ⟨fun hHere => ?_, by omega⟩
        exact @slotSource_ne T.state idx _ hLt' (hStays.trans hHere)
      · intro hSpares h hValid
        dsimp only at hValid ⊢
        rw [hOpenFiles] at hValid ⊢
        obtain ⟨hLt, hFile⟩ := hRight h hValid
        obtain ⟨hOther, hNotLast⟩ := hSpares idx hFound (congrArg Prod.snd hDelete) h hValid
        rw [removeInode_count, slotSource, if_neg hOther]
        exact ⟨by omega, hFile⟩

theorem keeps (hDistinct : T.Distinct) (hRight : T.HandlesRight) (c : Call) : T.Keeps c := by
  cases c with
  | create path =>
    have hGrows := createInode_grows T.state path false
    exact keeps_of_grown hDistinct hRight rfl trivial hGrows.1 hGrows.2
  | mkdir path =>
    have hGrows := createInode_grows T.state path true
    exact keeps_of_grown hDistinct hRight rfl trivial hGrows.1 hGrows.2
  | openFile path flags => exact keeps_open hDistinct hRight path flags
  | delete path => exact keeps_delete hDistinct hRight path
  | close h =>
    refine keeps_of_grown hDistinct hRight rfl trivial (.inl (vfsClose_sameNames T.state h).count) ?_
    change SameHandles T.state (vfsClose T.state h)
    rw [vfsClose]
    split
    · exact sameHandles_setHandle fun hValid => absurd hValid Bool.false_ne_true
    · exact .refl _
  | read h buf count =>
    exact keeps_of_grown hDistinct hRight rfl trivial (.inl (vfsRead_sameNames T.state h buf count).count)
      (vfsRead_sameHandles T.state h buf count)
  | write h data kmalloc =>
    exact keeps_of_grown hDistinct hRight rfl trivial (.inl (vfsWrite_sameNames T.state h data kmalloc).count)
      (vfsWrite_sameHandles T.state h data kmalloc)
  | seek h offset whence =>
    exact keeps_of_grown hDistinct hRight rfl trivial (.inl (vfsSeek_sameNames T.state h offset whence).count)
      (vfsSeek_sameHandles T.state h offset whence)
  | rename oldpath newpath =>
    have hRename : (vfsRename T.state oldpath newpath).1.inodeCount = T.state.inodeCount ∧
        SameHandles T.state (vfsRename T.state oldpath newpath).1 := by
      obtain ⟨hSame, -⟩ | ⟨idx, node, -, -, -, -, hEq⟩ := vfsRename_cases T.state oldpath newpath
      · rw [hSame]
        exact ⟨rfl, .refl T.state⟩
      · rw [hEq]
        exact ⟨rfl, .refl T.state⟩
    exact keeps_of_grown hDistinct hRight rfl trivial (.inl hRename.1) hRename.2

theorem start_distinct : Numbered.start.Distinct := by
  have hCount : Numbered.start.state.inodeCount = 1 := by decide +kernel
  refine ⟨fun i j hi hj _ => by omega, fun i _ => Nat.one_pos⟩

theorem start_handlesRight : Numbered.start.HandlesRight := by
  intro h hValid
  have hClosed : (Numbered.start.state.openFiles h).valid = false := rfl
  rw [hClosed] at hValid
  cases hValid

theorem right_along (hDistinct : T.Distinct) (hRight : T.HandlesRight) (calls : List Call) :
    (∀ n, (T.after (calls.take n)).Distinct ∧ (T.after (calls.take n)).HandlesRight) ↔ Along SparesOpen T calls := by
  induction calls generalizing T with
  | nil =>
    refine iff_of_true (fun n => ?_) trivial
    rw [List.take_nil]
    exact ⟨hDistinct, hRight⟩
  | cons c calls ih =>
    obtain ⟨hDistinct', hStep⟩ := keeps hDistinct hRight c
    constructor
    · intro hAll
      have hRight' : (T.next c).HandlesRight := (hAll 1).2
      exact ⟨hStep.mp hRight', (ih hDistinct' hRight').mp fun n => hAll (n + 1)⟩
    · rintro ⟨hSpares, hRest⟩ n
      have hRight' := hStep.mpr hSpares
      cases n with
      | zero => exact ⟨hDistinct, hRight⟩
      | succ n => exact (ih hDistinct' hRight').mpr hRest n

end Numbered

/-- Open handles keep their files in a run exactly if no inode is deleted while a handle is open on it or on the last
inode; the slots have different files all the time. -/
theorem handles_keep_files_iff (calls : List Call) :
    (∀ n, (Numbered.start.after (calls.take n)).Distinct ∧ (Numbered.start.after (calls.take n)).HandlesRight) ↔
      Numbered.Along SparesOpen Numbered.start calls :=
  Numbered.right_along Numbered.start_distinct Numbered.start_handlesRight calls

end UnixOS.X64Vfs
