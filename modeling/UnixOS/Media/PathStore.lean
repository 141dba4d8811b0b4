import UnixOS.Media.ZipPack

/-! # Files by their paths

Directories are made, files written, loaded and removed by their paths. In every run the linked inodes of the RAM filesystem
stand for the map that the same calls make of paths.
-/

namespace UnixOS.Media

open Fs ByteMemory Ramfs

inductive PathCall where
  | mkdir (path : List Char) (mode : UInt32)
  | unlink (path : List Char)
  | write (path : List Char) (data : List UInt8)

namespace PathCall

/-- The mode names no type besides the directory's; the path of a file is not empty, and memory can hold its data. -/
def Allowed : PathCall → Prop
  | mkdir _ mode => sIsDir (sIfDir ||| mode)
  | unlink _ => True
  | write path data => path ≠ [] ∧ data.length < 2 ^ 63

/-- There is no next state if the call follows a pointer to nothing. -/
def next (supply : Supply) (s : Ramfs) : PathCall → Option Ramfs
  | mkdir path mode => (s.vfsMkdir path mode (supply.inode s)).map Prod.fst
  | unlink path => (s.vfsUnlink path).map Prod.fst
  | write path data => (mediaZipWriteFile supply s path data).map Prod.fst

def nextAt (M : PathMap) : PathCall → PathMap
  | mkdir path _ => M.mkdirAt (components path)
  | unlink path => M.unlinkAt (components path)
  | write path data => (M.writeAt path data).1

end PathCall

variable (supply : Supply) {s : Ramfs}

theorem PathCall.next_shows (h : s.Good) {call : PathCall} (hAllowed : call.Allowed) :
    ∃ s', call.next supply s = some s' ∧ s'.Good ∧ s'.objAt = call.nextAt s.objAt := by
  cases call with
  | mkdir path mode =>
    obtain ⟨s', ret, hMkdir, hShows⟩ := h.vfsMkdir (supply.fresh s h) path mode hAllowed
    exact ⟨s', by rw [next, hMkdir]; rfl, hShows.good, hShows.objAt⟩
  | unlink path =>
    obtain ⟨s', ret, hUnlink, hShows⟩ := h.vfsUnlink path
    exact ⟨s', by rw [next, hUnlink]; rfl, hShows.good, hShows.objAt⟩
  | write path data =>
    obtain ⟨s', ret, hWrite, hShows, -⟩ := writeFile_spec supply h hAllowed.1 hAllowed.2
    exact ⟨s', by rw [next, hWrite]; rfl, hShows.good, hShows.objAt⟩

theorem run_shows (h : s.Good) {calls : List PathCall} (hAllowed : ∀ call ∈ calls, call.Allowed) :
    ∃ s', calls.foldlM (PathCall.next supply) s = some s' ∧ s'.Good ∧
      s'.objAt = calls.foldl PathCall.nextAt s.objAt := by
  induction calls generalizing s with
  | nil => exact ⟨s, rfl, h, rfl⟩
  | cons call calls ih =>
    obtain ⟨hCall, hRest⟩ := List.forall_mem_cons.mp hAllowed
    obtain ⟨s₁, hNext, hGood, hMap⟩ := PathCall.next_shows supply h hCall
    obtain ⟨s', hRun, hGood', hMap'⟩ := ih hGood hRest
    refine ⟨s', ?_, hGood', ?_⟩
    · rw [List.foldlM_cons, hNext]
      exact hRun
    · rw [hMap', hMap, List.foldl_cons]

theorem load_iff (h : s.Good) {path : List Char} (hPath : path ≠ []) (D : List UInt8) :
    mediaLoadFileFromExactPath supply s path = some (0, D) ↔
      D ≠ [] ∧ s.objAt (components path) = some (.file D) := by
  cases hObj : s.objAt (components path) with
  | none =>
    rcases h.vfsOpen_rdOnly hPath (supply.inode s) with ⟨-, hOpen⟩ | ⟨b, i, size, hAt, -⟩
    · simp [mediaLoadFileFromExactPath, hOpen, eNoEnt]
    · rw [hAt.objAt] at hObj
      cases hObj
  | some o =>
    obtain ⟨b, i, hAt, hi⟩ := objAt_eq_some.mp hObj
    cases o with
    | dir =>
      obtain ⟨ret, hLoad, hRet⟩ := load_dir supply h hAt (obj_eq_dir.mp hi) hPath
      simp [hLoad, hRet]
    | file c =>
      obtain ⟨hFile, hBytes⟩ := obj_eq_file.mp hi
      obtain ⟨kids, hTree⟩ := h
      rw [load_file supply ⟨kids, hTree⟩ ⟨hAt, hFile, hTree.sound hAt.2, hBytes⟩ hPath]
      by_cases hEmpty : c = []
      · simp [hEmpty, eInval, eq_comm]
      · simp only [hEmpty, if_false, Option.some.injEq, Prod.mk.injEq, true_and, Obj.file.injEq]
        exact ⟨fun hSame => ⟨hSame ▸ hEmpty, hSame⟩, fun hSame => hSame.2⟩

/-- No call of a run follows a pointer to nothing, the tree shows the map that the calls make, and a load finds what is stored
there, save that an empty file cannot be loaded. -/
theorem path_calls_refine_map (root : Nat) {calls : List PathCall} (hAllowed : ∀ call ∈ calls, call.Allowed) :
    ∃ s, calls.foldlM (PathCall.next supply) (ramfsMount root) = some s ∧
      s.objAt = calls.foldl PathCall.nextAt (Function.update (fun _ => none) [] (some .dir)) ∧
      ∀ path ≠ [], ∀ D, mediaLoadFileFromExactPath supply s path = some (0, D) ↔
        D ≠ [] ∧ s.objAt (components path) = some (.file D) := by
  obtain ⟨s, hRun, hGood, hMap⟩ := run_shows supply ⟨_, fileTree_ramfsMount root⟩ hAllowed
  rw [objAt_ramfsMount] at hMap
  exact ⟨s, hRun, hMap, fun path hPath => load_iff supply hGood hPath⟩

def sampleCalls : List PathCall :=
  [.mkdir ['/', 'd'] 0o755, .write ['/', 'd', '/', 'f'] [65, 66], .write ['/', 't'] [67], .unlink ['/', 't']]

theorem path_calls_refine_map_file :
    ∃ s, sampleCalls.foldlM (PathCall.next anySupply) (ramfsMount 0) = some s ∧ s.objAt [['t']] = none ∧
      mediaLoadFileFromExactPath anySupply s ['/', 'd', '/', 'f'] = some (0, [65, 66]) := by
  have hAllowed : ∀ call ∈ sampleCalls, call.Allowed := by
    simp only [sampleCalls, List.forall_mem_cons]
    exact ⟨(by decide : sIsDir (sIfDir ||| 0o755) = true), ⟨List.cons_ne_nil _ _, by decide⟩,
      ⟨List.cons_ne_nil _ _, by decide⟩, trivial,
      fun _ hNone => absurd hNone List.not_mem_nil⟩
  obtain ⟨s, hRun, hMap, hLoad⟩ := @path_calls_refine_map anySupply 0 sampleCalls hAllowed
  refine ⟨s, hRun, ?_, (hLoad _ (List.cons_ne_nil _ _) _).mpr ⟨List.cons_ne_nil _ _, ?_⟩⟩
  · rw [hMap]
    decide
  · rw [hMap]
    decide

end UnixOS.Media
