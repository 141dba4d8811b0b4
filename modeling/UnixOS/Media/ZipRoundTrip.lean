import UnixOS.Media.ZipPack
import UnixOS.Media.ZipRecords

/-! # Packing a tree and unpacking it again

Unpacked one after the other into an empty directory, the entries make the files of the tree, and no entry
is in the way of another. A file that the header has no room for does not come back, since no entry is that
long. A file that fits, but in a record of 4 GiB or more, lets the reader step back.
-/

namespace UnixOS.Media

open Fs ByteMemory Ramfs

variable (supply : Supply) {s : Ramfs} {dst : List Char} {E done : List MediaZipEntry} {x : MediaZipEntry}
  {e : Extract}

structure Named (dst : List Char) (r : List (List Char)) (x : MediaZipEntry) : Prop where
  ne_nil : r ≠ []
  plain : ∀ n ∈ r, PlainName n
  name : x.name = joinAll [] r
  relShort : (joinAll [] r).length ≤ 255
  short : (joinAll dst r).length ≤ 255

structure Apart (dst : List Char) (E : List MediaZipEntry) : Prop where
  named : ∀ x ∈ E, ∃ r, Named dst r x
  small : ∀ x ∈ E, 30 + x.name.length + x.data.length < 2 ^ 32
  apart : ∀ x ∈ E, ∀ y ∈ E, components x.name <+: components y.name →
    components x.name = components y.name ∧ x.data = y.data

theorem Named.components {r : List (List Char)} (h : Named dst r x) : components x.name = r := by
  rw [h.name, components_joinAll h.plain]
  rfl

theorem Named.sized {r : List (List Char)} (h : Named dst r x) (hRecord : 30 + x.name.length + x.data.length < 2 ^ 32) :
    Sized x := by
  obtain ⟨hNe, -, -, -, hNul, hByte⟩ := joinAll_nil h.ne_nil h.plain
  have hShort := h.relShort
  rw [← h.name] at hNe hNul hByte hShort
  exact ⟨hNe, hNul, hByte, by omega, hRecord⟩

theorem Named.file {r : List (List Char)} (h : Named dst r x) : endsInSlash x.name = false := by
  obtain ⟨-, -, hLast, -⟩ := joinAll_nil h.ne_nil h.plain
  rw [endsInSlash, h.name, decide_eq_false_iff_not]
  exact hLast

/-! ### One entry after the other -/

/-- The state after the entries `done`: their files are there, and between them and the destination only
directories that lead to a file. -/
structure Unpacked (dst : List Char) (E done : List MediaZipEntry) (e : Extract) : Prop where
  sub : done ⊆ E
  good : e.fs.Good
  copied : e.copiedFiles = done.length
  failed : e.failedFiles = 0
  top : e.fs.objAt (components dst) = some .dir
  files : ∀ r c, e.fs.objAt (components dst ++ r) = some (.file c) ↔ ∃ x ∈ done, components x.name = r ∧ x.data = c
  dirs : ∀ r, r ≠ [] → e.fs.objAt (components dst ++ r) = some .dir →
    ∃ x ∈ E, r <+: components x.name ∧ r ≠ components x.name

theorem Unpacked.free (h : Unpacked dst E done e) (hApart : Apart dst E) (hx : x ∈ E) {q : List (List Char)}
    {n : List Char} (hNames : components x.name = q ++ [n]) (names : List (List Char)) (c : List UInt8)
    (hSub : names <+: components dst ++ q) : e.fs.objAt names ≠ some (.file c) := by
  intro hFile
  rcases List.prefix_or_prefix_of_prefix hSub (List.prefix_append _ q) with ⟨tail, hTail⟩ | ⟨q₁, rfl⟩
  · obtain ⟨kids, hTree⟩ := h.good
    have hTop := h.top
    cases tail with
    | nil =>
      rw [← hTail, List.append_nil, hFile] at hTop
      cases hTop
    | cons m tail =>
      have hAbove := hTree.objAt_above (P := names) (by rw [hTail, hTop]; simp) (by simp : m :: tail ≠ [])
      rw [hFile] at hAbove
      cases hAbove
  · obtain ⟨y, hy, rfl, -⟩ := (h.files q₁ c).mp hFile
    have hq : components y.name <+: q := (List.prefix_append_right_inj _).mp hSub
    have hLong : components y.name <+: components x.name := hNames ▸ hq.trans (List.prefix_append q [n])
    have hEq := (hApart.apart y (h.sub hy) x hx hLong).1
    have hLen := hq.length_le
    rw [hEq, hNames, List.length_append, List.length_singleton] at hLen
    omega

theorem Unpacked.step (h : Unpacked dst E done e) (hApart : Apart dst E) (hDst : dst ≠ []) (hx : x ∈ E) :
    ∃ e', mediaZipExtractCb supply dst e x.name x.data (endsInSlash x.name) = some (e', 0) ∧
      Unpacked dst E (done ++ [x]) e' := by
  obtain ⟨r, hNamed⟩ := hApart.named x hx
  rw [hNamed.file]
  have hComponents := hNamed.components
  obtain ⟨q, n, rfl⟩ := (List.eq_nil_or_concat' r).resolve_left hNamed.ne_nil
  have hn := hNamed.plain n (by simp)
  have hLastJoin : joinAll dst (q ++ [n]) = joinPath (joinAll dst q) n := by
    rw [joinAll, List.foldl_append]
    rfl
  obtain ⟨hPath, hLast⟩ := hn.getLast_joinPath (joinAll dst q)
  rw [← hLastJoin] at hPath hLast
  have hJoin : mediaZipPathJoin dst x.name = some (joinAll dst (q ++ [n])) := by
    rw [pathJoin_eq_some, hNamed.name, joinBuffer_joinAll hNamed.ne_nil hNamed.plain hNamed.short]
    exact ⟨hPath, rfl⟩
  have hNe : x.name ≠ [] := (hNamed.sized (hApart.small x hx)).ne_nil
  have hNames : components (joinAll dst (q ++ [n])) = components dst ++ q ++ [n] := by
    rw [components_joinAll hNamed.plain, List.append_assoc]
  obtain ⟨kids, hTree⟩ := h.good
  obtain ⟨top, hTop, hTopDir⟩ := hTree.at_root
  have hRoot : e.fs.objAt [] = some .dir := by rw [hTop.objAt, hTopDir]
  have hHere : e.fs.objAt (components dst ++ q ++ [n]) ≠ some .dir := by
    intro hDir
    rw [List.append_assoc] at hDir
    obtain ⟨y, hy, hSub, hOther⟩ := h.dirs _ hNamed.ne_nil hDir
    rw [← hComponents] at hSub hOther
    exact hOther (hApart.apart x hx y hy hSub).1
  obtain ⟨hOk, hFile, hDirs, hRest⟩ := writeAt_spec hNames hLast hNamed.short hRoot
    (h.free hApart hx hComponents) hHere x.data
  have hData : x.data.length < 2 ^ 63 := by
    have := hApart.small x hx
    omega
  obtain ⟨s', ret, hWrite, hShows, hRet⟩ := writeFile_spec supply h.good hPath hData
  obtain rfl : ret = 0 := hRet.mpr hOk
  rw [← hShows.objAt] at hFile hDirs hRest
  refine ⟨⟨s', e.copiedFiles + 1, e.failedFiles⟩, by simp [mediaZipExtractCb, hDst, hNe, hJoin, hWrite], ?_⟩
  have hNotAbove : ∀ y ∈ E, ¬ components y.name <+: q := by
    intro y hy hSub
    have hLong : components y.name <+: components x.name := hComponents ▸ hSub.trans (List.prefix_append q [n])
    have hLen := hSub.length_le
    rw [(hApart.apart y hy x hx hLong).1, hComponents, List.length_append, List.length_singleton] at hLen
    omega
  have hDone : done ++ [x] ⊆ E := List.append_subset.mpr ⟨h.sub, by simpa using hx⟩
  constructor
  · exact hDone
  · exact hShows.good
  · rw [List.length_append, List.length_singleton, h.copied]
  · exact h.failed
  · exact hDirs _ (List.prefix_append _ _)
  · intro r c
    by_cases hAbove : r <+: q
    · rw [hDirs _ ((List.prefix_append_right_inj _).mpr hAbove)]
      constructor
      · intro hEq
        cases hEq
      · rintro ⟨y, hy, rfl, -⟩
        exact absurd hAbove (hNotAbove y (hDone hy))
    · by_cases hEq : r = q ++ [n]
      · subst hEq
        rw [← List.append_assoc, hFile, Option.some_inj, Obj.file.injEq]
        constructor
        · rintro rfl
          exact ⟨x, by simp, hComponents, rfl⟩
        · rintro ⟨y, hy, hSame, rfl⟩
          exact (hApart.apart x hx y (hDone hy) (by rw [hComponents, hSame])).2
      · rw [hRest _ (mt (List.prefix_append_right_inj _).mp hAbove) (by simpa using hEq), h.files]
        constructor
        · rintro ⟨y, hy, hr⟩
          exact ⟨y, by simp [hy], hr⟩
        · rintro ⟨y, hy, rfl, rfl⟩
          rcases List.mem_append.mp hy with hy | hy
          · exact ⟨y, hy, rfl, rfl⟩
          · rw [List.mem_singleton.mp hy] at hEq
            exact absurd hComponents hEq
  · intro r hr hDir
    by_cases hAbove : r <+: q
    · refine ⟨x, hx, ?_, fun hEq => hNotAbove x hx (hEq ▸ hAbove)⟩
      rw [hComponents]
      exact hAbove.trans (List.prefix_append _ _)
    · by_cases hEq : r = q ++ [n]
      · subst hEq
        rw [← List.append_assoc, hFile] at hDir
        cases hDir
      · rw [hRest _ (mt (List.prefix_append_right_inj _).mp hAbove) (by simpa using hEq)] at hDir
        exact h.dirs r hr hDir

theorem extract_archiveOf (hGood : s.Good) (hApart : Apart dst E) (hE : E ≠ []) (hDst : dst ≠ [])
    (hTop : s.objAt (components dst) = some .dir)
    (hEmpty : ∀ r, r ≠ [] → s.objAt (components dst ++ r) = none) :
    ∃ e, mediaZipExtractToRoot supply s (archiveOf E) dst = some (e, 0) ∧
      ∀ r c, e.fs.objAt (components dst ++ r) = some (.file c) ↔ ∃ x ∈ E, components x.name = r ∧ x.data = c := by
  have hStart : Unpacked dst E [] ⟨s, 0, 0⟩ := by
    refine ⟨List.nil_subset _, hGood, rfl, rfl, hTop, fun r c => ?_, fun r hr hDir => ?_⟩
    · cases r with
      | nil => simp [hTop]
      | cons n r => simp [hEmpty (n :: r) (by simp)]
    · rw [hEmpty r hr] at hDir
      cases hDir
  have hSized : ∀ x ∈ E, Sized x := by
    intro x hx
    obtain ⟨r, hNamed⟩ := hApart.named x hx
    exact hNamed.sized (hApart.small x hx)
  obtain ⟨e, hCalls, hDone⟩ := callEach_ok (fun done x e hx h => Unpacked.step supply h hApart hDst hx) (fun _ hx => hx) hStart
  rw [List.nil_append] at hDone
  have hResult : e.result = 0 := by
    rw [Extract.result, if_pos]
    exact ⟨by rw [hDone.copied]; exact List.length_pos_of_ne_nil hE, hDone.failed⟩
  have hNe : archiveOf E ≠ [] := by
    rw [archiveOf]
    exact List.append_ne_nil_of_right_ne_nil _ (List.cons_ne_nil _ _)
  refine ⟨e, ?_, hDone.files⟩
  rw [mediaZipExtractToRoot, if_neg (by simp [hNe, hDst]), foreach_archiveOf hE hSized, hCalls]
  simp [hResult]

/-! ### Whatever is unpacked is small -/

section Files

variable {M : PathMap} {names N : List (List Char)} {c data : List UInt8} {path : List Char}

theorem mkdirAt_file (h : M.mkdirAt N names = some (.file c)) : M names = some (.file c) := by
  rw [PathMap.mkdirAt] at h
  split at h
  · by_cases hEq : names = N
    · rw [hEq, Function.update_self] at h
      cases h
    · rwa [Function.update_of_ne hEq] at h
  · exact h

theorem ensureAt_file (h : M.ensureAt path names = some (.file c)) : M names = some (.file c) := by
  revert h
  unfold PathMap.ensureAt
  induction List.range (min path.length 255) generalizing M with
  | nil => exact id
  | cons i indices ih =>
    intro h
    rw [List.foldl_cons] at h
    have hStep := ih h
    split at hStep
    · exact mkdirAt_file hStep
    · exact hStep

theorem writeAt_file (h : (M.writeAt path data).1 names = some (.file c)) : M names = some (.file c) ∨ c = data := by
  have hUnlink : ∀ {c}, (M.ensureAt path).unlinkAt (components path) names = some (.file c) →
      M names = some (.file c) := by
    intro c hFile
    by_cases hEq : names = components path
    · rw [hEq] at hFile
      exact absurd hFile (PathMap.unlinkAt_ne_file _ _ c)
    · rw [PathMap.unlinkAt_ne _ hEq] at hFile
      exact ensureAt_file hFile
  rw [PathMap.writeAt, PathMap.storeAt] at h
  split at h
  · exact .inl (hUnlink h)
  · split at h
    · by_cases hEq : names = components path
      · dsimp only at h
        rw [hEq, Function.update_self, Option.some_inj, Obj.file.injEq] at h
        exact .inr h.symm
      · dsimp only at h
        rw [Function.update_of_ne hEq] at h
        exact .inl (hUnlink h)
    · exact .inl (hUnlink h)

end Files

structure SmallBelow (dst : List Char) (s : Ramfs) : Prop where
  good : s.Good
  small : ∀ r c, s.objAt (components dst ++ r) = some (.file c) → c.length < 2 ^ 32

theorem SmallBelow.step (h : SmallBelow dst e.fs) {content : List UInt8} (hContent : content.length < 2 ^ 32)
    (name : List Char) (isDir : Bool) :
    ∃ e', mediaZipExtractCb supply dst e name content isDir = some (e', 0) ∧ SmallBelow dst e'.fs := by
  unfold mediaZipExtractCb
  split
  · exact ⟨e, rfl, h⟩
  · split
    · exact ⟨e, rfl, h⟩
    · rename_i path hJoin
      split
      · obtain ⟨s₁, s₂, ret, hEnsure, hMkdir, hShows⟩ := mkdirPath_spec supply h.good path
        refine ⟨{ e with fs := s₂ }, by simp [hEnsure, hMkdir], hShows.good, fun r c hFile => ?_⟩
        rw [hShows.objAt] at hFile
        exact h.small r c (ensureAt_file (mkdirAt_file hFile))
      · have hData : content.length < 2 ^ 63 := Nat.lt_trans hContent (by decide)
        obtain ⟨s', ret, hWrite, hShows, -⟩ := writeFile_spec supply h.good (pathJoin_eq_some.mp hJoin).1 hData
        have hSmall : SmallBelow dst s' := by
          refine ⟨hShows.good, fun r c hFile => ?_⟩
          rw [hShows.objAt] at hFile
          rcases writeAt_file hFile with hOld | rfl
          · exact h.small r c hOld
          · exact hContent
        by_cases hRet : ret = 0
        · exact ⟨⟨s', e.copiedFiles + 1, e.failedFiles⟩, by simp [hWrite, hRet], hSmall⟩
        · exact ⟨⟨s', e.copiedFiles, e.failedFiles + 1⟩, by simp [hWrite, hRet], hSmall⟩

theorem SmallBelow.loop {D : List UInt8} {fuel off : Nat} {e' : Extract} {ret : Int} (h : SmallBelow dst e.fs)
    (hLoop : foreachLoop D (mediaZipExtractCb supply dst) fuel off e = some (e', ret)) : SmallBelow dst e'.fs := by
  induction fuel generalizing off e with
  | zero => cases hLoop
  | succ fuel ih =>
    by_cases hOpens : Opens D off
    · have hLen : (contentAt D off).length < 2 ^ 32 := hOpens.contentAt_length ▸ readU32_lt D _
      obtain ⟨e₁, hCb, h₁⟩ := h.step supply hLen (nameAt D off) (isDirAt D off)
      rw [foreachLoop_opens hOpens hCb] at hLoop
      exact ih h₁ hLoop
    · obtain ⟨ret', hStops, -⟩ := foreachLoop_stops hOpens (mediaZipExtractCb supply dst) fuel e
      rw [hStops, Option.some_inj, Prod.mk.injEq] at hLoop
      exact hLoop.1 ▸ h

theorem SmallBelow.extract {D : List UInt8} {ret : Int} (h : SmallBelow dst s)
    (hExtract : mediaZipExtractToRoot supply s D dst = some (e, ret)) : SmallBelow dst e.fs := by
  rw [mediaZipExtractToRoot] at hExtract
  split at hExtract
  · rw [Option.some_inj, Prod.mk.injEq] at hExtract
    exact hExtract.1 ▸ h
  · rw [Option.bind_eq_bind, Option.bind_eq_some_iff] at hExtract
    obtain ⟨⟨e₁, ret₁⟩, hForeach, hEq⟩ := hExtract
    obtain rfl : e₁ = e := (Prod.mk.inj (Option.some.inj hEq)).1
    rw [mediaZipForeach] at hForeach
    split at hForeach
    · rw [Option.some_inj, Prod.mk.injEq] at hForeach
      exact hForeach.1 ▸ h
    · exact SmallBelow.loop supply (e := ⟨s, 0, 0⟩) h hForeach

/-! ### There and back -/

structure ZipTask (s : Ramfs) (src dst : List Char) : Prop where
  good : s.Good
  source : s.objAt (components src) = some .dir
  walking : Walking s src [] (components src)
  srcShort : src.length ≤ 255
  nonempty : ∃ r content, s.objAt (components src ++ r) = some (.file content)
  dst_ne_nil : dst ≠ []
  dest : s.objAt (components dst) = some .dir
  empty : ∀ r, r ≠ [] → s.objAt (components dst ++ r) = none
  dstShort : ∀ r content, s.objAt (components src ++ r) = some (.file content) → (joinAll dst r).length ≤ 255

/-- The tree is packed, and unpacking the archive makes its files, with their paths and contents. -/
def RoundTrips (s : Ramfs) (src dst : List Char) : Prop :=
  ∃ archive e, mediaZipPackTree supply s src = some (0, archive) ∧
    mediaZipExtractToRoot supply s archive dst = some (e, 0) ∧
    ∀ r content, e.fs.objAt (components dst ++ r) = some (.file content) ↔
      s.objAt (components src ++ r) = some (.file content)

/-- What the packer takes and the reader steps over: directories whose mode has nothing above the type, and files that
are not empty, make a record of less than 4 GiB, and have no `.` or `..` on their path. -/
def Packable (s : Ramfs) (S : List (List Char)) : Prop :=
  ∀ r b i, r ≠ [] → s.At (S ++ r) b i →
    (sIsDir i.mode = true → DotFree r → i.mode >>> 12 = 4) ∧
      (sIsDir i.mode = false → DotFree r ∧ 0 < i.size ∧ 30 + (joinAll [] r).length + i.size < 2 ^ 32)

/-- A file whose size fits a header, but not with the header and the name. -/
def StepsBack (s : Ramfs) (S : List (List Char)) : Prop :=
  ∃ r content, s.objAt (S ++ r) = some (.file content) ∧ content.length < 2 ^ 32 ∧
    2 ^ 32 ≤ 30 + (joinAll [] r).length + content.length

variable {src : List Char}

theorem packTree_spec (h : ZipTask s src dst) : ∃ ret archive, mediaZipPackTree supply s src = some (ret, archive) ∧
    (ret = 0 ↔ Packs s (components src)) ∧ (ret = 0 → ∃ E, archive = archiveOf E ∧
      ∀ x, x ∈ E ↔ PackedAt s (components src) [] [] x) := by
  obtain ⟨kids, hTree⟩ := h.good
  obtain ⟨ret, entries, hDir, hRet, hE⟩ := packTreeDir_spec supply hTree h.walking h.source
    (by omega : 256 ≤ src.length + 256) h.srcShort []
  rw [mediaZipPackTree, if_neg h.walking.ne_nil, hDir, Option.bind_eq_bind, Option.bind_some]
  by_cases hZero : ret = 0
  · obtain ⟨E, hEntries, hMem⟩ := hE hZero
    rw [List.nil_append] at hEntries
    subst hEntries
    exact ⟨0, archiveOf entries, by simp [hZero], by rw [← hRet]; simp [hZero], fun _ => ⟨entries, rfl, hMem⟩⟩
  · exact ⟨-eIo, [], by simp [hZero], by rw [← hRet]; simp [hZero, eIo], fun hIo => absurd hIo (by decide)⟩

theorem ZipTask.apart (h : ZipTask s src dst) (hE : ∀ x, x ∈ E → PackedAt s (components src) [] [] x)
    (hSmall : ∀ x ∈ E, 30 + x.name.length + x.data.length < 2 ^ 32) : Apart dst E := by
  obtain ⟨kids, hTree⟩ := h.good
  have hNamed : ∀ r content, s.objAt (components src ++ r) = some (.file content) →
      Named dst r (entryFor [] r content) := by
    intro r content hFile
    have hSome : s.objAt (components src ++ r) ≠ none := by simp [hFile]
    have hr : r ≠ [] := by
      rintro rfl
      rw [List.append_nil, h.source] at hFile
      cases hFile
    exact ⟨hr, h.walking.plain r hSome, rfl, h.walking.relShort r hr hSome, h.dstShort r content hFile⟩
  refine ⟨fun x hx => ?_, hSmall, fun x hx y hy hSub => ?_⟩
  · obtain ⟨r, content, -, hFile, rfl⟩ := hE x hx
    exact ⟨r, hNamed r content hFile⟩
  · obtain ⟨r, content, -, hFile, rfl⟩ := hE x hx
    obtain ⟨r', content', -, hFile', rfl⟩ := hE y hy
    rw [List.nil_append] at hFile hFile' hSub ⊢
    rw [List.nil_append, (hNamed r content hFile).components, (hNamed r' content' hFile').components] at hSub ⊢
    obtain ⟨tail, rfl⟩ := hSub
    cases tail with
    | nil =>
      rw [List.append_nil, hFile, Option.some_inj, Obj.file.injEq] at hFile'
      exact ⟨by simp, hFile'⟩
    | cons m tail =>
      rw [← List.append_assoc] at hFile'
      have hAbove := hTree.objAt_above (P := components src ++ r) (by rw [hFile']; simp) (by simp : m :: tail ≠ [])
      rw [hFile] at hAbove
      cases hAbove

theorem ZipTask.entry_iff (h : ZipTask s src dst) (hE : ∀ x, x ∈ E ↔ PackedAt s (components src) [] [] x)
    (r : List (List Char)) (content : List UInt8) : (∃ x ∈ E, components x.name = r ∧ x.data = content) ↔
      DotFree r ∧ s.objAt (components src ++ r) = some (.file content) := by
  have hNames : ∀ r content, s.objAt (components src ++ r) = some (.file content) →
      components (entryFor [] r content).name = r := by
    intro r content hFile
    rw [entryFor, components_joinAll (h.walking.plain r (by simp [hFile]))]
    rfl
  constructor
  · rintro ⟨x, hx, rfl, rfl⟩
    obtain ⟨r, content, hFree, hFile, rfl⟩ := (hE x).mp hx
    rw [List.nil_append] at hFree hFile ⊢
    rw [hNames r content hFile]
    exact ⟨hFree, hFile⟩
  · rintro ⟨hFree, hFile⟩
    exact ⟨entryFor [] r content, (hE _).mpr ⟨r, content, hFree, hFile, rfl⟩, hNames r content hFile, rfl⟩

theorem ZipTask.packable (h : ZipTask s src dst) (hForward : ¬ StepsBack s (components src)) :
    RoundTrips supply s src dst → Packable s (components src) := by
  obtain ⟨ret, archive, hPack, hRet, hE⟩ := packTree_spec supply h
  rintro ⟨archive', e, hPack', hExtract, hFiles⟩
  rw [hPack', Option.some_inj, Prod.mk.injEq] at hPack
  obtain ⟨rfl, rfl⟩ := hPack
  obtain ⟨E, rfl, hMem⟩ := hE rfl
  have hPacks := hRet.mp rfl
  -- what came back is small, so the records are read as they were written
  have hStart : SmallBelow dst s := by
    refine ⟨h.good, fun r c hFile => ?_⟩
    cases r with
    | nil =>
      rw [List.append_nil, h.dest] at hFile
      cases hFile
    | cons n r =>
      rw [h.empty _ (by simp)] at hFile
      cases hFile
  have hSmall : ∀ r content, s.objAt (components src ++ r) = some (.file content) →
      30 + (joinAll [] r).length + content.length < 2 ^ 32 := fun r content hFile => by
    by_contra hLong
    exact hForward ⟨r, content, hFile, (hStart.extract supply hExtract).small r content ((hFiles r content).mpr hFile),
      Nat.le_of_not_lt hLong⟩
  have hApart : Apart dst E := by
    refine h.apart (fun x hx => (hMem x).mp hx) fun x hx => ?_
    obtain ⟨r, content, -, hFile, rfl⟩ := (hMem x).mp hx
    rw [List.nil_append] at hFile ⊢
    exact hSmall r content hFile
  have hNe : E ≠ [] := by
    rintro rfl
    have hNothing : mediaZipExtractToRoot supply s (archiveOf []) dst = some (⟨s, 0, 0⟩, -eIo) := by
      rw [mediaZipExtractToRoot, if_neg (by simp [h.dst_ne_nil, archiveOf, endRecord, mediaZipWriteU32])]
      rfl
    rw [hNothing] at hExtract
    cases hExtract
  obtain ⟨e', hExtract', hFiles'⟩ := extract_archiveOf supply h.good hApart hNe h.dst_ne_nil h.dest h.empty
  rw [hExtract', Option.some_inj, Prod.mk.injEq] at hExtract
  obtain ⟨rfl, -⟩ := hExtract
  intro r b i hr hAt
  refine ⟨fun hDir hFree => (hPacks r b i hr hFree hAt).1 hDir, fun hFile => ?_⟩
  have hObj : s.objAt (components src ++ r) = some (.file i.bytes) := by
    rw [hAt.objAt, obj_eq_file.mpr ⟨hFile, rfl⟩]
  have hBack := (hFiles r i.bytes).mpr hObj
  have hFree := ((h.entry_iff hMem r i.bytes).mp ((hFiles' r i.bytes).mp hBack)).1
  have hLen := hSmall r i.bytes hObj
  rw [RamfsInode.length_bytes] at hLen
  exact ⟨hFree, (hPacks r b i hr hFree hAt).2 hFile, hLen⟩

theorem ZipTask.roundTrips (h : ZipTask s src dst) : Packable s (components src) → RoundTrips supply s src dst := by
  obtain ⟨ret, archive, hPack, hRet, hE⟩ := packTree_spec supply h
  obtain ⟨r₀, content₀, hFile₀⟩ := h.nonempty
  intro hPackable
  have hFree : ∀ r content, s.objAt (components src ++ r) = some (.file content) →
      DotFree r ∧ 30 + (joinAll [] r).length + content.length < 2 ^ 32 := by
    intro r content hFile
    obtain ⟨b, i, hAt, hObj⟩ := objAt_eq_some.mp hFile
    obtain ⟨hMode, rfl⟩ := obj_eq_file.mp hObj
    have hr : r ≠ [] := by
      rintro rfl
      rw [List.append_nil, h.source] at hFile
      cases hFile
    obtain ⟨hDots, -, hSize⟩ := (hPackable r b i hr hAt).2 hMode
    rw [RamfsInode.length_bytes]
    exact ⟨hDots, hSize⟩
  have hPacks : Packs s (components src) := by
    intro r b i hr hDots hAt
    obtain ⟨hDir, hFile⟩ := hPackable r b i hr hAt
    exact ⟨fun hMode => hDir hMode hDots, fun hMode => (hFile hMode).2.1⟩
  obtain rfl := hRet.mpr hPacks
  obtain ⟨E, rfl, hMem⟩ := hE rfl
  have hApart : Apart dst E := by
    refine h.apart (fun x hx => (hMem x).mp hx) fun x hx => ?_
    obtain ⟨r, content, -, hFile, rfl⟩ := (hMem x).mp hx
    rw [List.nil_append] at hFile ⊢
    exact (hFree r content hFile).2
  have hNe : E ≠ [] := by
    obtain ⟨x, hx, -⟩ := (h.entry_iff hMem r₀ content₀).mpr ⟨(hFree r₀ content₀ hFile₀).1, hFile₀⟩
    exact List.ne_nil_of_mem hx
  obtain ⟨e, hExtract, hFiles⟩ := extract_archiveOf supply h.good hApart hNe h.dst_ne_nil h.dest h.empty
  refine ⟨archiveOf E, e, hPack, hExtract, fun r content => ?_⟩
  rw [hFiles, h.entry_iff hMem]
  exact and_iff_right_of_imp fun hFile => (hFree r content hFile).1

/-- A tree makes the round trip where the packer takes every part of it and the reader steps over it, and another one
only if a record lets the reader step back. -/
theorem zip_round_trip (h : ZipTask s src dst) : (Packable s (components src) → RoundTrips supply s src dst) ∧
    (RoundTrips supply s src dst → Packable s (components src) ∨ StepsBack s (components src)) :=
  ⟨h.roundTrips supply, fun hTrip => or_iff_not_imp_right.mpr fun hForward => h.packable supply hForward hTrip⟩

theorem made_tree (data : List UInt8) (hLen : data.length < 2 ^ 63) : ∃ s₁ ret s,
    (ramfsMount 0).vfsMkdir ['/', 'd'] 0o755 (anySupply.inode (ramfsMount 0)) = some (s₁, ret) ∧
      mediaZipWriteFile anySupply s₁ ['/', 's', '/', 'a'] data = some (s, 0) ∧ s.Good ∧
      ∀ names, s.objAt names = if names = [] ∨ names = [['s']] ∨ names = [['d']] then some .dir
        else if names = [['s'], ['a']] then some (.file data) else none := by
  have hGood : (ramfsMount 0).Good := ⟨_, fileTree_ramfsMount 0⟩
  obtain ⟨s₁, ret, hMkdir, hShows⟩ := hGood.vfsMkdir (anySupply.fresh _ hGood) ['/', 'd'] 0o755 (by decide)
  have hNames : components ['/', 's', '/', 'a'] = [['s']] ++ [['a']] := by decide
  have hMap : s₁.objAt = Function.update (Function.update (fun _ => none) [] (some .dir)) [['d']] (some .dir) := by
    rw [hShows.objAt, show components ['/', 'd'] = [['d']] by decide, objAt_ramfsMount, PathMap.mkdirAt]
    simp
  have hAt : ∀ names, s₁.objAt names = if names = [] ∨ names = [['d']] then some .dir else none := by
    intro names
    rw [hMap]
    by_cases hd : names = [['d']]
    · simp [hd]
    · by_cases hNil : names = [] <;> simp [hd, hNil]
  have hFree : ∀ names c, names <+: [['s']] → s₁.objAt names ≠ some (.file c) := by
    intro names c _ hFile
    rw [hAt] at hFile
    split at hFile <;> cases hFile
  obtain ⟨hOk, hFile, hDirs, hRest⟩ := writeAt_spec hNames (by decide) (by decide) (by simp [hAt]) hFree
    (by simp [hAt]) data
  obtain ⟨s, ret', hWrite, hShows', hRet⟩ := writeFile_spec anySupply hShows.good
    (by decide : ['/', 's', '/', 'a'] ≠ []) hLen
  obtain rfl := hRet.mpr hOk
  rw [← hShows'.objAt] at hFile hDirs hRest
  refine ⟨s₁, ret, s, hMkdir, hWrite, hShows'.good, fun names => ?_⟩
  by_cases hAbove : names <+: [['s']]
  · rw [hDirs names hAbove, if_pos]
    rcases List.prefix_cons_iff.mp hAbove with rfl | ⟨tail, rfl, hTail⟩
    · simp
    · simp [List.prefix_nil.mp hTail]
  · by_cases hHere : names = [['s'], ['a']]
    · subst hHere
      simpa using hFile
    · have hs : names ≠ [['s']] := by
        rintro rfl
        exact hAbove List.prefix_rfl
      rw [hRest names hAbove hHere, hAt]
      simp [hs, hHere]

theorem zipTask_made {data : List UInt8} (hGood : s.Good)
    (hMap : ∀ names, s.objAt names = if names = [] ∨ names = [['s']] ∨ names = [['d']] then some .dir
      else if names = [['s'], ['a']] then some (.file data) else none) : ZipTask s ['/', 's'] ['/', 'd'] := by
  have hSrc : components ['/', 's'] = [['s']] := by decide
  have hDst : components ['/', 'd'] = [['d']] := by decide
  have hBelow : ∀ r, s.objAt ([['s']] ++ r) ≠ none → r = [] ∨ r = [['a']] := by
    intro r hSome
    rw [hMap] at hSome
    by_contra hOther
    rw [not_or] at hOther
    simp [hOther.1, hOther.2] at hSome
  have hPlain : PlainName ['a'] := by
    refine ⟨by simp, by simp, by simp, by simp, fun c hc => ?_, by decide⟩
    rw [List.mem_singleton.mp hc]
    decide
  have hCases : ∀ r, s.objAt ([['s']] ++ r) ≠ none → ∀ n ∈ r, PlainName n := by
    intro r hSome n hn
    rcases hBelow r hSome with rfl | rfl
    · cases hn
    · exact List.mem_singleton.mp hn ▸ hPlain
  have hShort : ∀ base : List Char, base.length ≤ 2 → ∀ r, s.objAt ([['s']] ++ r) ≠ none → (joinAll base r).length ≤ 255 := by
    intro base hBase r hSome
    rcases hBelow r hSome with rfl | rfl
    · exact hBase.trans (by decide)
    · show (joinPath base ['a']).length ≤ 255
      rw [joinPath]
      split <;> simp <;> omega
  constructor
  · exact hGood
  · rw [hSrc, hMap]
    rfl
  · rw [hSrc]
    exact ⟨hSrc, by decide, hCases, fun r _ => hShort _ (by decide) r, fun r _ => hShort _ (by decide) r⟩
  · decide
  · exact ⟨[['a']], data, by rw [hSrc, hMap]; rfl⟩
  · decide
  · rw [hDst, hMap]
    rfl
  · intro r hr
    rw [hDst, hMap]
    simp [hr]
  · intro r content hFile
    rw [hSrc] at hFile
    exact hShort _ (by decide) r (by rw [hFile]; simp)

theorem zip_round_trip_one_file : ∃ s₁ ret s,
    (ramfsMount 0).vfsMkdir ['/', 'd'] 0o755 (anySupply.inode (ramfsMount 0)) = some (s₁, ret) ∧
      mediaZipWriteFile anySupply s₁ ['/', 's', '/', 'a'] [7] = some (s, 0) ∧
      RoundTrips anySupply s ['/', 's'] ['/', 'd'] := by
  obtain ⟨s₁, ret, s, hMkdir, hWrite, hGood, hMap⟩ := made_tree [7] (by decide)
  refine ⟨s₁, ret, s, hMkdir, hWrite, (zip_round_trip anySupply (zipTask_made hGood hMap)).1 ?_⟩
  intro r b i hr hAt
  have hObj := hAt.objAt
  rw [show components ['/', 's'] = [['s']] by decide, hMap] at hObj
  have ha : r = [['a']] := by
    by_contra hOther
    simp [hr, hOther] at hObj
  subst ha
  obtain ⟨hMode, hBytes⟩ := obj_eq_file.mp (Option.some.inj hObj).symm
  have hSize : i.size = 1 := by rw [← RamfsInode.length_bytes, hBytes, List.length_singleton]
  refine ⟨fun hDir => ?_, fun _ => ⟨?_, by omega, by rw [hSize]; decide⟩⟩
  · rw [hMode] at hDir
    cases hDir
  · intro n hn
    rw [List.mem_singleton.mp hn]
    simp [IsDot]

theorem empty_file_lost : ∃ s₁ ret s,
    (ramfsMount 0).vfsMkdir ['/', 'd'] 0o755 (anySupply.inode (ramfsMount 0)) = some (s₁, ret) ∧
      mediaZipWriteFile anySupply s₁ ['/', 's', '/', 'a'] [] = some (s, 0) ∧ ZipTask s ['/', 's'] ['/', 'd'] ∧
      ¬ RoundTrips anySupply s ['/', 's'] ['/', 'd'] := by
  obtain ⟨s₁, ret, s, hMkdir, hWrite, hGood, hMap⟩ := made_tree [] (by decide)
  have hTask := zipTask_made hGood hMap
  refine ⟨s₁, ret, s, hMkdir, hWrite, hTask, fun hTrip => ?_⟩
  have hSrc : components ['/', 's'] = [['s']] := by decide
  have hFile : s.objAt (components ['/', 's'] ++ [['a']]) = some (.file []) := by
    rw [hSrc, hMap]
    rfl
  have hForward : ¬ StepsBack s (components ['/', 's']) := by
    rintro ⟨r, content, hThere, -, hLong⟩
    have hr : r = [['a']] := by
      by_contra hOther
      rw [hSrc, hMap] at hThere
      by_cases hNil : r = []
      · simp [hNil] at hThere
      · simp [hNil, hOther] at hThere
    rw [hr, hFile] at hThere
    obtain rfl := Obj.file.inj (Option.some.inj hThere)
    rw [hr] at hLong
    exact absurd hLong (by decide)
  have hPackable := hTask.packable anySupply hForward hTrip
  obtain ⟨b, i, hAt, hObj⟩ := objAt_eq_some.mp hFile
  obtain ⟨hMode, hBytes⟩ := obj_eq_file.mp hObj
  have hPos := ((hPackable [['a']] b i (by simp) hAt).2 hMode).2.1
  rw [← RamfsInode.length_bytes, hBytes] at hPos
  exact absurd hPos (by decide)

end UnixOS.Media
