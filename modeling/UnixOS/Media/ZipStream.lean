import UnixOS.Media.ZipReaders

/-! # Where the two readers agree

The streaming extraction copies an entry through a small buffer while its archive stays open. As long as it
does not write over the archive, and every local header it comes to is safe, it does what the extraction
from memory does; so do the two searches.
-/

namespace UnixOS.Media

open Fs ByteMemory Ramfs

variable (supply : Supply) {D : List UInt8} {off : Nat} {s s' : Ramfs} {A N : List (List Char)} {a b p n : Nat}
  {i j : RamfsInode} (size : Int) {path : List Char}

/-! ### One entry -/

theorem take_drop_add (D : List UInt8) (p m n : Nat) :
    (D.drop p).take m ++ (D.drop (p + m)).take n = (D.drop p).take (m + n) := by
  rw [List.take_add, List.drop_drop]

theorem copyLoop_spec {fuel remaining : Nat} (outSize : Int) (hGood : s.Good) (hStored : Stored s A a D i)
    (hAt : s.At N b j) (hFile : sIsDir j.mode = false) (hNe : A ≠ N) (hFits : p + remaining ≤ D.length)
    (hRange : j.size + remaining < 2 ^ 63) (hFuel : remaining < fuel) :
    ∃ s', copyLoop supply fuel s ⟨false, a, size, p⟩ ⟨false, b, outSize, j.size⟩ remaining =
        some (s', (⟨false, a, size, (p + remaining : Nat)⟩ : OpenFile), 0) ∧
      s.Shows s' (Function.update s.objAt N (some (.file (j.bytes ++ (D.drop p).take remaining)))) {N} := by
  induction fuel generalizing s p i j remaining outSize with
  | zero => omega
  | succ fuel ih =>
    by_cases hZero : remaining = 0
    · subst hZero
      have hSame : Function.update s.objAt N (some (.file (j.bytes ++ (D.drop p).take 0))) = s.objAt := by
        rw [List.take_zero, List.append_nil, ← obj_eq_file.mpr ⟨hFile, rfl⟩, ← hAt.objAt, Function.update_eq_self]
      refine ⟨s, ?_, ?_⟩
      · rw [copyLoop, if_pos rfl, Nat.add_zero]
      · rw [hSame]
        exact hGood.shows _
    · obtain ⟨chunk, hChunk⟩ : ∃ chunk, chunk = if 512 < remaining then 512 else remaining := ⟨_, rfl⟩
      have hBounds : 0 < chunk ∧ chunk ≤ remaining := by
        rw [hChunk]
        split <;> omega
      have hLen : ((D.drop p).take chunk).length = chunk := by
        rw [List.length_take, List.length_drop]
        omega
      have hRead := hStored.readExact size (by omega : p + chunk ≤ D.length)
      obtain ⟨kids, hTree⟩ := hGood
      obtain ⟨s₁, outSize', k, hWrite, hShows, hAt', hFile', hBytes⟩ :=
        hTree.vfsWrite_end hAt hFile ((D.drop p).take chunk) (by omega) outSize supply.block
      obtain ⟨i', hStored'⟩ := hStored.kept hShows hNe
      have hSize : k.size = j.size + chunk := by
        rw [← RamfsInode.length_bytes, hBytes, List.length_append, hLen, RamfsInode.length_bytes]
      obtain ⟨s', hLoop, hShows'⟩ := ih (p := p + chunk) outSize' hShows.good hStored' hAt' hFile' (by omega)
        (by omega : k.size + (remaining - chunk) < 2 ^ 63) (by omega)
      refine ⟨s', ?_, ?_⟩
      · have hWritten : ¬ ((chunk : Int) < 0 ∨ toSize chunk ≠ chunk) := by
          rw [toSize_of_nonneg (by omega) (by omega), Int.toNat_natCast]
          omega
        rw [hLen] at hWrite
        rw [copyLoop, if_neg hZero]
        simp only [← hChunk, hRead, hWrite, Option.bind_eq_bind, Option.bind_some]
        rw [if_neg hWritten, ← hSize, hLoop]
        congr 4
        omega
      · rw [hShows.objAt, Function.update_idem, hBytes, List.append_assoc, take_drop_add,
          Nat.add_sub_cancel' hBounds.2] at hShows'
        exact hShows.trans hShows'

theorem copyLoop_dir (b : Nat) (outSize : Int) (hStored : Stored s A a D i) (hFits : p + n ≤ D.length) :
    ∃ ret, copyLoop supply (n + 1) s ⟨false, a, size, p⟩ ⟨true, b, outSize, 0⟩ n =
        some (s, (⟨false, a, size, (p + n : Nat)⟩ : OpenFile), ret) ∧ ret ≠ -eIo ∧ (ret = 0 ↔ n = 0) := by
  have hSize := hStored.sound.size_lt
  rw [hStored.size] at hSize
  by_cases hZero : n = 0
  · exact ⟨0, by rw [copyLoop, if_pos hZero, hZero, Nat.add_zero], by decide, by simp [hZero]⟩
  · refine ⟨-eNoSpc, ?_, by decide, by simp [hZero, eNoSpc]⟩
    obtain ⟨chunk, hChunk⟩ : ∃ chunk, chunk = if 512 < n then 512 else n := ⟨_, rfl⟩
    have hLe : chunk ≤ n := by
      rw [hChunk]
      split <;> omega
    have hRead := hStored.readExact size (by omega : p + chunk ≤ D.length)
    rw [copyLoop, if_neg hZero]
    simp only [← hChunk, hRead, OpenFile.vfsWrite, if_true, Option.bind_eq_bind, Option.bind_some]
    rw [if_pos (.inl (by decide))]
    by_cases hLess : chunk < n
    · rw [if_pos hLess, streamSkip_eq (by omega)]
      simp only [Option.pure_def, Nat.add_assoc, Nat.add_sub_cancel' hLe]
    · rw [if_neg hLess, show chunk = n by omega]
      rfl

theorem streamWriteFile_spec (hGood : s.Good) (hStored : Stored s A a D i) (hPath : path ≠ [])
    (hNe : A ≠ components path) (hFits : p + n ≤ D.length) :
    ∃ s' ret, mediaZipStreamWriteFile supply s ⟨false, a, size, p⟩ path n =
        some (s', (⟨false, a, size, (p + n : Nat)⟩ : OpenFile), ret) ∧ ret ≠ -eIo ∧
      s.Shows s' (s.objAt.writeAt path ((D.drop p).take n)).1 {components path} ∧
      (ret = 0 ↔ (s.objAt.writeAt path ((D.drop p).take n)).2 = true) := by
  have hSize := hStored.sound.size_lt
  rw [hStored.size] at hSize
  obtain ⟨s₁, s₂, ret, hEnsure, hUnlink, hShows, hOpened⟩ := prepared supply hGood hPath
  obtain ⟨i₂, hStored₂⟩ := hStored.kept hShows hNe
  simp only [mediaZipStreamWriteFile, hEnsure, hUnlink, Option.bind_eq_bind, Option.bind_some, PathMap.writeAt]
  have hMap := hShows.objAt
  rw [← hMap] at hShows ⊢
  cases hOpened with
  | dir b outSize hDir hOpen =>
    obtain ⟨ret', hCopy, hRet, hZero⟩ := copyLoop_dir supply size b outSize hStored₂ hFits
    rw [PathMap.storeAt, if_pos hDir]
    have hEmpty : ((D.drop p).take n).isEmpty = true ↔ n = 0 := by
      rw [List.isEmpty_iff_length_eq_zero, List.length_take, List.length_drop]
      omega
    refine ⟨s₂, ret', ?_, hRet, hShows, hZero.trans hEmpty.symm⟩
    rw [hOpen]
    exact hCopy
  | file s₃ b j hOpen hShows₃ hAt hFile hBytes hStore =>
    have hSize₃ : j.size = 0 := by rw [← RamfsInode.length_bytes, hBytes, List.length_nil]
    obtain ⟨i₃, hStored₃⟩ := hStored₂.kept hShows₃ hNe
    obtain ⟨s₄, hCopy, hShows₄⟩ := copyLoop_spec supply size 0 hShows₃.good hStored₃ hAt hFile hNe hFits
      (by omega) (Nat.lt_succ_self n)
    rw [hShows₃.objAt, hBytes, List.nil_append, Function.update_idem] at hShows₄
    rw [hSize₃, Nat.cast_zero] at hCopy
    rw [hStore]
    refine ⟨s₄, 0, ?_, by decide, (hShows.trans hShows₃).trans hShows₄, by simp⟩
    rw [hOpen]
    exact hCopy
  | nothing s₃ hOpen hShows₃ hStore =>
    rw [hStore]
    refine ⟨s₃, -eNoEnt, ?_, by decide, hShows.trans hShows₃, by simp [eNoEnt]⟩
    rw [hOpen, Option.bind_some, streamSkip_eq (by omega)]
    rfl

/-! ### All entries -/

/-- What both readers take in the same way: no header in the file is out of the ordinary, and no entry lies on top of the
archive; without a root both refuse to extract anything. -/
structure StreamSafe (D : List UInt8) (A : List (List Char)) (dstRoot : List Char) : Prop where
  long : 30 ≤ D.length
  entries : ∀ off, Reached D off → SafeAt D off
  apart : dstRoot ≠ [] → ∀ off path, Reached D off → Opens D off → isDirAt D off = false →
    mediaZipPathJoin dstRoot (nameAt D off) = some path → components path ≠ A

theorem Opens.range (hStored : Stored s A a D i) (h : Opens D off) :
    dataStart D off + mediaZipReadU32 D (off + 18) < 2 ^ 63 := by
  have hSize := hStored.sound.size_lt
  have hFits := h.fits
  rw [hStored.size] at hSize
  rw [entryEnd] at hFits
  omega

theorem count_simulates (hStored : Stored s A a D i) :
    Simulates D A a size mediaZipCountCb mediaZipStreamCountCb fun count t count' => t = s ∧ count = count' where
  stored := by
    rintro count t count' ⟨rfl, -⟩
    exact ⟨i, hStored⟩
  step := by
    rintro count t count' off ⟨rfl, rfl⟩ - hOpens
    have hSkip := streamSkip_eq (a := a) (hOpens.range hStored) size
    simp only [mediaZipCountCb, mediaZipStreamCountCb, hSkip]
    cases isDirAt D off with
    | true => exact ⟨count, t, count, rfl, rfl, rfl, rfl⟩
    | false =>
      by_cases hInfo : nameAt D off = imageInfo
      · exact ⟨count, t, count, by simp [hInfo], by simp [hInfo, entryEnd], rfl, rfl⟩
      · exact ⟨count + 1, t, count + 1, by simp [hInfo], by simp [hInfo, entryEnd], rfl, rfl⟩

theorem find_simulates (hStored : Stored s A a D i) (hSafe : ∀ off, Reached D off → SafeAt D off)
    (path : List Char) : Simulates D A a size (mediaZipFindCb path) (mediaZipStreamFindCb path)
      fun found t found' => t = s ∧ found = found' where
  stored := by
    rintro found t found' ⟨rfl, -⟩
    exact ⟨i, hStored⟩
  step := by
    rintro found t found' off ⟨rfl, rfl⟩ hOff hOpens
    have hSkip := streamSkip_eq (a := a) (hOpens.range hStored) size
    have hName := ((hSafe off hOff).plain hOpens).2.2
    simp only [mediaZipFindCb, mediaZipStreamFindCb, hSkip]
    cases hDir : isDirAt D off with
    | true => exact ⟨found, t, found, rfl, rfl, rfl, rfl⟩
    | false =>
      have hNonempty : nameAt D off ≠ [] := hName.resolve_right (by simp [hDir])
      by_cases hPath : path.dropWhile (· == '/') = []
      · exact ⟨found, t, found, by simp [hPath], by simp [hPath, hNonempty, entryEnd], rfl, rfl⟩
      · exact ⟨_, t, _, by simp [hPath], rfl, rfl, rfl⟩

structure Alike (D : List UInt8) (A : List (List Char)) (a : Nat) (e : Extract) (s : Ramfs) (counts : Nat × Nat) :
    Prop where
  copied : e.copiedFiles = counts.1
  failed : e.failedFiles = counts.2
  good : e.fs.Good
  good' : s.Good
  objAt : e.fs.objAt = s.objAt
  stored : ∃ i, Stored s A a D i

theorem extract_simulates {dstRoot : List Char} (hSafe : StreamSafe D A dstRoot) :
    Simulates D A a size (mediaZipExtractCb supply dstRoot) (mediaZipStreamExtractCb supply dstRoot)
      (Alike D A a) where
  stored := fun h => h.stored
  step := by
    rintro e s ⟨copied, failed⟩ off hAlike hOff hOpens
    obtain ⟨i, hStored⟩ := hAlike.stored
    have hSkip := streamSkip_eq (a := a) (hOpens.range hStored) size
    have hStay : ∃ e' s' t', some (e, 0) = some (e', (0 : Int)) ∧
        some (s, (copied, failed), (⟨false, a, size, (entryEnd D off : Nat)⟩ : OpenFile), 0) =
          some (s', t', (⟨false, a, size, (entryEnd D off : Nat)⟩ : OpenFile), (0 : Int)) ∧ Alike D A a e' s' t' :=
      ⟨e, s, (copied, failed), rfl, rfl, hAlike⟩
    simp only [mediaZipExtractCb, mediaZipStreamExtractCb, hSkip]
    split
    case isTrue => exact hStay
    case isFalse hNames =>
      cases hJoin : mediaZipPathJoin dstRoot (nameAt D off) with
      | none => exact hStay
      | some full =>
        cases hDir : isDirAt D off with
        | true =>
          obtain ⟨s₁, s₂, ret, hEnsure, hMkdir, hShows⟩ := mkdirPath_spec supply hAlike.good full
          obtain ⟨t₁, t₂, ret', hEnsure', hMkdir', hShows'⟩ := mkdirPath_spec supply hAlike.good' full
          refine ⟨{ e with fs := s₂ }, t₂, (copied, failed), ?_, ?_, ?_⟩
          · simp [hEnsure, hMkdir]
          · simp [hEnsure', hMkdir', entryEnd]
          · refine ⟨hAlike.copied, hAlike.failed, hShows.good, hShows'.good, ?_, hStored.kept hShows' (by simp)⟩
            rw [hShows.objAt, hShows'.objAt, hAlike.objAt]
        | false =>
          have hPath := (pathJoin_eq_some.mp hJoin).1
          have hApart := (hSafe.apart (fun hNil => hNames (Or.inl hNil)) off full hOff hOpens hDir hJoin).symm
          have hLen : (contentAt D off).length < 2 ^ 63 := by
            have hRange := hOpens.range hStored
            rw [hOpens.contentAt_length]
            omega
          obtain ⟨s₁, ret, hWrite, hShows, hRet⟩ := writeFile_spec supply hAlike.good hPath hLen
          obtain ⟨t₁, ret', hWrite', hNotIo, hShows', hRet'⟩ :=
            streamWriteFile_spec supply size hAlike.good' hStored hPath hApart hOpens.fits
          rw [hAlike.objAt] at hShows hRet
          have hSame : ret = 0 ↔ ret' = 0 := hRet.trans hRet'.symm
          have hAlike' : ∀ {c f}, e.copiedFiles + c = copied + c → e.failedFiles + f = failed + f →
              Alike D A a ⟨s₁, e.copiedFiles + c, e.failedFiles + f⟩ t₁ (copied + c, failed + f) := by
            intro c f hc hf
            refine ⟨hc, hf, hShows.good, hShows'.good, ?_, hStored.kept hShows' hApart⟩
            rw [hShows.objAt, hShows'.objAt]
            rfl
          have hCopied : e.copiedFiles = copied := hAlike.copied
          have hFailed : e.failedFiles = failed := hAlike.failed
          by_cases hZero : ret = 0
          · refine ⟨⟨s₁, e.copiedFiles + 1, e.failedFiles + 0⟩, t₁, (copied + 1, failed + 0), ?_, ?_,
              hAlike' (by omega) (by omega)⟩
            · simp [hWrite, hZero]
            · simp [hWrite', hSame.mp hZero, entryEnd, eIo]
          · refine ⟨⟨s₁, e.copiedFiles + 0, e.failedFiles + 1⟩, t₁, (copied + 0, failed + 1), ?_, ?_,
              hAlike' (by omega) (by omega)⟩
            · simp [hWrite, hZero]
            · simp [hWrite', mt hSame.mpr hZero, hNotIo, entryEnd]

/-! ### The archive in a file and in memory -/

variable {archivePath dstRoot : List Char}

theorem fileForeach_eq (hGood : s.Good) (hFile : s.objAt (components archivePath) = some (.file D)) :
    archivePath ≠ [] ∧ ∃ a i, Stored s (components archivePath) a D i ∧ ∀ {τ : Type} (cb : StreamCb τ) (t : τ),
      mediaZipFileForeach supply s archivePath cb t =
        fileForeachLoop cb (D.length + 1) s ⟨false, a, D.length, (0 : Nat)⟩ t := by
  have hPath : archivePath ≠ [] := by
    rintro rfl
    obtain ⟨kids, hTree⟩ := hGood
    obtain ⟨i, hi, hDir⟩ := hTree.at_root
    rw [show components [] = [] from rfl, hi.objAt, hDir] at hFile
    cases hFile
  rcases hGood.vfsOpen_rdOnly hPath (supply.inode s) with ⟨hNone, -⟩ | ⟨a, i, size, hAt, hSize, -, hOpen⟩
  · rw [hNone] at hFile
    cases hFile
  · obtain ⟨kids, hTree⟩ := hGood
    rw [hAt.objAt, Option.some_inj, obj_eq_file] at hFile
    have hStored : Stored s (components archivePath) a D i := ⟨hAt, hFile.1, hTree.sound hAt.2, hFile.2⟩
    obtain rfl : size = D.length := by rw [hSize hFile.1, hStored.size]
    have hFuel : toSize D.length = D.length := by
      have hLt := hStored.sound.size_lt
      rw [hStored.size] at hLt
      rw [toSize_of_nonneg (by omega) (by omega), Int.toNat_natCast]
    refine ⟨hPath, a, i, hStored, fun cb t => ?_⟩
    rw [mediaZipFileForeach, if_neg hPath, hOpen, hFile.1]
    simp only [Option.bind_eq_bind, Option.bind_some, hFuel]
    rfl

/-- The two readers give the same answers about the archive `D`, and leave the same files. -/
structure ReadersAgree (supply : Supply) (s : Ramfs) (archivePath : List Char) (D : List UInt8)
    (dstRoot : List Char) : Prop where
  count : ∃ count, mediaZipCountFiles D = some count ∧ mediaZipCountFileEntries supply s archivePath = some count
  find : ∀ path, ∃ found, mediaZipHasEntry D path = some found ∧
    mediaZipFileHasEntry supply s archivePath path = some found
  extract : ∃ e e' ret, mediaZipExtractToRoot supply s D dstRoot = some (e, ret) ∧
    mediaZipExtractFileToRoot supply s archivePath dstRoot = some (e', ret) ∧ e.fs.objAt = e'.fs.objAt

/-- The readers agree on every archive without the headers on which they differ. -/
theorem zip_readers_agree (hGood : s.Good) (hFile : s.objAt (components archivePath) = some (.file D))
    (hSafe : StreamSafe D (components archivePath) dstRoot) : ReadersAgree supply s archivePath D dstRoot := by
  obtain ⟨hPath, a, i, hStored, hForeach⟩ := fileForeach_eq supply hGood hFile
  have hLong : ¬ D.length < 30 := Nat.not_lt.mpr hSafe.long
  have hNonempty : D ≠ [] := by
    rintro rfl
    exact hLong (by decide)
  have hFuel : D.length < 0 + (D.length + 1) := by omega
  constructor
  · obtain ⟨count, t, count', ret, ret', hLoop, hLoop', hRet, rfl, rfl⟩ :=
      (count_simulates D.length hStored).loop hSafe.entries (show s = s ∧ 0 = 0 from ⟨rfl, rfl⟩) .start hFuel
    refine ⟨if ret ≠ 0 then -1 else count, ?_, ?_⟩
    · simp only [mediaZipCountFiles, mediaZipForeach, if_neg hLong, hLoop, Option.bind_eq_bind, Option.bind_some]
      rfl
    · simp only [mediaZipCountFileEntries, hForeach, hLoop', Option.bind_eq_bind, Option.bind_some, hRet, ne_eq]
      rfl
  · intro path
    by_cases hNil : path = []
    · exact ⟨false, by simp [mediaZipHasEntry, hNil], by simp [mediaZipFileHasEntry, hNil]⟩
    obtain ⟨found, t, found', ret, ret', hLoop, hLoop', hRet, rfl, rfl⟩ :=
      (find_simulates D.length hStored hSafe.entries path).loop hSafe.entries
        (show s = s ∧ false = false from ⟨rfl, rfl⟩) .start hFuel
    refine ⟨if ret ≠ 0 then false else found, ?_, ?_⟩
    · simp only [mediaZipHasEntry, hNonempty, hNil, or_self, if_false, mediaZipForeach, if_neg hLong, hLoop,
        Option.bind_eq_bind, Option.bind_some]
      rfl
    · simp only [mediaZipFileHasEntry, hPath, hNil, or_self, if_false, hForeach, hLoop', Option.bind_eq_bind,
        Option.bind_some, hRet, ne_eq]
      rfl
  · by_cases hNil : dstRoot = []
    · refine ⟨⟨s, 0, 0⟩, ⟨s, 0, 0⟩, -eInval, ?_, ?_, rfl⟩
      · simp [mediaZipExtractToRoot, hNil]
      · simp [mediaZipExtractFileToRoot, hNil]
    have hStart : Alike D (components archivePath) a ⟨s, 0, 0⟩ s (0, 0) :=
      ⟨rfl, rfl, hGood, hGood, rfl, i, hStored⟩
    obtain ⟨e, t, ⟨copied, failed⟩, ret, ret', hLoop, hLoop', hRet, hAlike⟩ :=
      (extract_simulates supply D.length hSafe).loop hSafe.entries hStart .start hFuel
    have hResult : e.result = Extract.result ⟨t, copied, failed⟩ := by
      rw [Extract.result, Extract.result, hAlike.copied, hAlike.failed]
    refine ⟨e, ⟨t, copied, failed⟩, if ret ≠ 0 then -eIo else e.result, ?_, ?_, hAlike.objAt⟩
    · simp only [mediaZipExtractToRoot, hNonempty, hNil, or_self, if_false, mediaZipForeach, if_neg hLong, hLoop,
        Option.bind_eq_bind, Option.bind_some]
      rfl
    · simp only [mediaZipExtractFileToRoot, hPath, hNil, or_self, if_false, hForeach, hLoop', Option.bind_eq_bind,
        Option.bind_some, hRet, hResult, ne_eq]
      rfl

theorem short_readers_differ (hGood : s.Good) (hFile : s.objAt (components archivePath) = some (.file D))
    (hShort : D.length < 30) : mediaZipCountFiles D = some (-1) ∧
      mediaZipCountFileEntries supply s archivePath = some 0 := by
  obtain ⟨-, a, i, hStored, hForeach⟩ := fileForeach_eq supply hGood hFile
  obtain ⟨f, hRead⟩ := hStored.readExact_short D.length (p := 0) (Nat.zero_le _) (by omega : D.length < 0 + 30)
  constructor
  · simp [mediaZipCountFiles, mediaZipForeach, hShort, eInval]
  · simp only [mediaZipCountFileEntries, hForeach, fileForeachLoop, hRead, Option.bind_eq_bind, Option.bind_some]
    rfl

theorem stored_in_mount (D : List UInt8) (hLen : D.length < 2 ^ 63) :
    ∃ s, mediaZipWriteFile supply (ramfsMount 0) ['/', 'z'] D = some (s, 0) ∧ s.Good ∧
      s.objAt (components ['/', 'z']) = some (.file D) := by
  have hGood : (ramfsMount 0).Good := ⟨_, fileTree_ramfsMount 0⟩
  obtain ⟨s, ret, hWrite, hShows, hRet⟩ := writeFile_spec supply hGood (by decide : ['/', 'z'] ≠ []) hLen
  have hNames : components ['/', 'z'] = [['z']] := by decide
  have hEnsure : (ramfsMount 0).objAt.ensureAt ['/', 'z'] = (ramfsMount 0).objAt := rfl
  have hStore : (ramfsMount 0).objAt.writeAt ['/', 'z'] D =
      (Function.update (ramfsMount 0).objAt [['z']] (some (.file D)), true) := by
    rw [PathMap.writeAt, hEnsure, hNames, objAt_ramfsMount, PathMap.unlinkAt]
    simp [PathMap.storeAt]
  rw [hStore] at hShows hRet
  obtain rfl : ret = 0 := hRet.mpr rfl
  refine ⟨s, hWrite, hShows.good, ?_⟩
  rw [hNames, hShows.objAt]
  dsimp only
  rw [Function.update_self]

def oneEntry : List UInt8 :=
  [0x50, 0x4B, 0x03, 0x04, 20, 0, 0, 0, 0, 0, 0, 0, 0, 0, 0, 0, 0, 0, 1, 0, 0, 0, 1, 0, 0, 0, 1, 0, 0, 0, 102, 7]

theorem streamSafe_oneEntry : StreamSafe oneEntry (components ['/', 'z']) ['/', 'd'] := by
  have hReached : ∀ off, Reached oneEntry off → off = 0 ∨ off = 32 := by
    intro off hOff
    induction hOff with
    | start => exact .inl rfl
    | next hOff hOpens ih =>
      rcases ih with rfl | rfl
      · exact .inr (by decide)
      · exact absurd hOpens.begins.1 (by decide)
  have hEnd : ¬ Begins oneEntry 32 := fun hBegins => absurd hBegins.1 (by decide)
  constructor
  · decide
  · intro off hOff hBegins
    rcases hReached off hOff with rfl | rfl
    · exact fun _ _ _ => .inr ⟨by decide, by decide, by decide, .inl (by decide)⟩
    · exact absurd hBegins hEnd
  · intro _ off path hOff hOpens hDir hJoin
    rcases hReached off hOff with rfl | rfl
    · obtain rfl : ['/', 'd', '/', 'f'] = path := Option.some.inj (Eq.trans (by decide) hJoin)
      decide
    · exact absurd hOpens.begins hEnd

theorem zip_readers_agree_one : ∃ s, mediaZipWriteFile anySupply (ramfsMount 0) ['/', 'z'] oneEntry = some (s, 0) ∧
    ReadersAgree anySupply s ['/', 'z'] oneEntry ['/', 'd'] := by
  obtain ⟨s, hWrite, hGood, hFile⟩ := stored_in_mount anySupply oneEntry (by decide)
  exact ⟨s, hWrite, zip_readers_agree anySupply hGood hFile streamSafe_oneEntry⟩

theorem one_byte_readers_differ : ∃ s, mediaZipWriteFile anySupply (ramfsMount 0) ['/', 'z'] [80] = some (s, 0) ∧
    s.Good ∧ s.objAt (components ['/', 'z']) = some (.file [80]) ∧
    ¬ ReadersAgree anySupply s ['/', 'z'] [80] ['/', 'd'] := by
  obtain ⟨s, hWrite, hGood, hFile⟩ := stored_in_mount anySupply [80] (by decide)
  refine ⟨s, hWrite, hGood, hFile, fun hAgree => ?_⟩
  obtain ⟨hMemory, hStream⟩ := short_readers_differ anySupply hGood hFile (by decide)
  obtain ⟨count, hCount, hCount'⟩ := hAgree.count
  rw [hMemory] at hCount
  rw [hStream] at hCount'
  obtain rfl := Option.some.inj hCount
  cases Option.some.inj hCount'

end UnixOS.Media
