import UnixOS.Media.Zip

/-! # What unpacking one entry leaves

The parents of an entry's path are made, a file in its place is removed, and a new one is written. On the
path map this is a function of the path and the data, so it makes no difference where the data comes from.
-/

namespace UnixOS.Fs.PathMap

variable (M : PathMap)

def ensureAt (path : List Char) : PathMap :=
  (List.range (min path.length 255)).foldl (fun M i =>
    if 0 < i ∧ path[i]? = some '/' then M.mkdirAt (components (path.take (i + 1))) else M) M

def writeAt (path : List Char) (data : List UInt8) : PathMap × Bool :=
  ((M.ensureAt path).unlinkAt (components path)).storeAt (components path) data

def mkdirPathAt (path : List Char) : PathMap := (M.ensureAt path).mkdirAt (components path)

theorem unlinkAt_ne_file (names : List (List Char)) (c : List UInt8) :
    M.unlinkAt names names ≠ some (.file c) := by
  unfold unlinkAt
  rcases hNames : M names with - | (- | content) <;> simp [hNames]

theorem unlinkAt_self_ne_dir {N : List (List Char)} (h : M N ≠ some .dir) : M.unlinkAt N N ≠ some .dir := by
  unfold unlinkAt
  rcases hNames : M N with - | (- | content)
  · simp [hNames]
  · exact absurd hNames h
  · simp

theorem unlinkAt_ne {names N : List (List Char)} (h : names ≠ N) : M.unlinkAt N names = M names := by
  unfold unlinkAt
  rcases M N with - | (- | content)
  · rfl
  · rfl
  · exact Function.update_of_ne h _ _

end UnixOS.Fs.PathMap

namespace UnixOS.Media

open Fs ByteMemory Ramfs

variable (supply : Supply) {s s' : Ramfs} {path : List Char} {data : List UInt8}

theorem ensureParentDirs_spec (h : s.Good) (path : List Char) :
    ∃ s', mediaEnsureParentDirs supply s path = some s' ∧ s.Shows s' (s.objAt.ensureAt path) ∅ := by
  unfold mediaEnsureParentDirs PathMap.ensureAt
  induction List.range (min path.length 255) generalizing s with
  | nil => exact ⟨s, rfl, h.shows ∅⟩
  | cons i indices ih =>
    rw [List.foldlM_cons, List.foldl_cons]
    split
    case isTrue hSlash =>
      obtain ⟨s₁, ret, hMkdir, hShows⟩ := h.vfsMkdir (supply.fresh s h) (path.take (i + 1)) 0o755
        (by decide)
      obtain ⟨s', hRest, hShows'⟩ := ih hShows.good
      rw [hShows.objAt] at hShows'
      refine ⟨s', ?_, hShows.trans hShows'⟩
      rw [hMkdir]
      exact hRest
    case isFalse hOther => exact ih h

inductive Opened (supply : Supply) (s : Ramfs) (path : List Char) : Prop
  | dir (b : Nat) (size : Int) (hDir : s.objAt (components path) = some .dir)
      (hOpen : s.vfsOpen path createFlags 0o644 (supply.inode s) = some (s, some ⟨true, b, size, 0⟩))
  | file (s' : Ramfs) (a : Nat) (j : RamfsInode)
      (hOpen : s.vfsOpen path createFlags 0o644 (supply.inode s) = some (s', some ⟨false, a, 0, 0⟩))
      (hShows : s.Shows s' (Function.update s.objAt (components path) (some (.file []))) {components path})
      (hAt : s'.At (components path) a j) (hFile : sIsDir j.mode = false) (hBytes : j.bytes = [])
      (hStore : ∀ data, s.objAt.storeAt (components path) data =
        (Function.update s.objAt (components path) (some (.file data)), true))
  | nothing (s' : Ramfs)
      (hOpen : s.vfsOpen path createFlags 0o644 (supply.inode s) = some (s', none))
      (hShows : s.Shows s' s.objAt {components path})
      (hStore : ∀ data, s.objAt.storeAt (components path) data = (s.objAt, false))

theorem opened (h : s.Good) (hPath : path ≠ []) (hFile : ∀ c, s.objAt (components path) ≠ some (.file c)) :
    Opened supply s path := by
  rcases h.vfsOpen_create (supply.fresh s h) hPath hFile with
    ⟨hDir, b, size, hOpen⟩ | ⟨hNotDir, hParent, s', j, hOpen, hShows, hAt, hMode, hBytes⟩ |
      ⟨hNotDir, hParent, s', hOpen, hShows⟩
  · exact .dir b size hDir hOpen
  · refine .file s' _ j hOpen (hShows.mono (Set.empty_subset _)) hAt hMode hBytes fun data => ?_
    rw [PathMap.storeAt, if_neg hNotDir, if_pos hParent]
  · refine .nothing s' hOpen (hShows.mono (Set.empty_subset _)) fun data => ?_
    rw [PathMap.storeAt, if_neg hNotDir, if_neg hParent]

theorem prepared (h : s.Good) (hPath : path ≠ []) : ∃ s₁ s₂ ret, mediaEnsureParentDirs supply s path = some s₁ ∧
    s₁.vfsUnlink path = some (s₂, ret) ∧
    s.Shows s₂ ((s.objAt.ensureAt path).unlinkAt (components path)) {components path} ∧ Opened supply s₂ path := by
  obtain ⟨s₁, hEnsure, hShows₁⟩ := ensureParentDirs_spec supply h path
  obtain ⟨s₂, ret, hUnlink, hShows₂⟩ := hShows₁.good.vfsUnlink path
  rw [hShows₁.objAt] at hShows₂
  refine ⟨s₁, s₂, ret, hEnsure, hUnlink, (hShows₁.mono (Set.empty_subset _)).trans hShows₂, ?_⟩
  refine opened supply hShows₂.good hPath fun c => ?_
  rw [hShows₂.objAt]
  exact PathMap.unlinkAt_ne_file _ _ c

theorem writeFile_spec (h : s.Good) (hPath : path ≠ []) (hLen : data.length < 2 ^ 63) :
    ∃ s' ret, mediaZipWriteFile supply s path data = some (s', ret) ∧
      s.Shows s' (s.objAt.writeAt path data).1 {components path} ∧
      (ret = 0 ↔ (s.objAt.writeAt path data).2 = true) := by
  obtain ⟨s₁, s₂, ret, hEnsure, hUnlink, hShows, hOpened⟩ := prepared supply h hPath
  simp only [mediaZipWriteFile, hEnsure, hUnlink, Option.bind_eq_bind, Option.bind_some, PathMap.writeAt]
  have hMap := hShows.objAt
  rw [← hMap] at hShows ⊢
  cases hOpened with
  | dir b size hDir hOpen =>
    rw [PathMap.storeAt, if_pos hDir]
    by_cases hEmpty : data = []
    · exact ⟨s₂, 0, by simp [hOpen, hEmpty, toSize], hShows, by simp [hEmpty]⟩
    · refine ⟨s₂, -eInval, ?_, hShows, ?_⟩
      · simp [hOpen, hEmpty, OpenFile.vfsWrite, eInval]
      · simp [hEmpty, eInval]
  | file s₃ a j hOpen hShows₃ hAt hFile hBytes hStore =>
    rw [hStore]
    by_cases hEmpty : data = []
    · subst hEmpty
      exact ⟨s₃, 0, by simp [hOpen, toSize], hShows.trans hShows₃, by simp⟩
    · obtain ⟨kids, hTree⟩ := hShows₃.good
      have hSize : j.size = 0 := by rw [← RamfsInode.length_bytes, hBytes, List.length_nil]
      obtain ⟨s₄, size', k, hWrite, hShows₄, -⟩ := hTree.vfsWrite_end hAt hFile data (by omega) 0 supply.block
      rw [hShows₃.objAt, hBytes, List.nil_append, Function.update_idem] at hShows₄
      rw [hSize, Nat.cast_zero] at hWrite
      have hWritten : toSize data.length = data.length := by
        rw [toSize_of_nonneg (by omega) (by omega), Int.toNat_natCast]
      refine ⟨s₄, 0, ?_, (hShows.trans hShows₃).trans hShows₄, by simp⟩
      simp [hOpen, hEmpty, hWrite, hWritten]
  | nothing s₃ hOpen hShows₃ hStore =>
    rw [hStore]
    exact ⟨s₃, -eNoEnt, by simp [hOpen], hShows.trans hShows₃, by simp [eNoEnt]⟩

theorem mkdirPath_spec (h : s.Good) (path : List Char) : ∃ s₁ s₂ ret,
    mediaEnsureParentDirs supply s path = some s₁ ∧ s₁.vfsMkdir path 0o755 (supply.inode s₁) = some (s₂, ret) ∧
      s.Shows s₂ (s.objAt.mkdirPathAt path) ∅ := by
  obtain ⟨s₁, hEnsure, hShows⟩ := ensureParentDirs_spec supply h path
  obtain ⟨s₂, ret, hMkdir, hShows'⟩ := hShows.good.vfsMkdir (supply.fresh s₁ hShows.good) path 0o755 (by decide)
  rw [hShows.objAt] at hShows'
  exact ⟨s₁, s₂, ret, hEnsure, hMkdir, hShows.trans hShows'⟩

theorem pathJoin_eq_some {base name full : List Char} :
    mediaZipPathJoin base name = some full ↔ full ≠ [] ∧ joinBuffer base name = full := by
  rw [mediaZipPathJoin, Option.ite_none_left_eq_some, Option.some_inj]
  constructor
  · rintro ⟨hNe, rfl⟩
    exact ⟨hNe, rfl⟩
  · rintro ⟨hNe, rfl⟩
    exact ⟨hNe, rfl⟩

end UnixOS.Media
