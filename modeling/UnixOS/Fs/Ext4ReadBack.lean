import UnixOS.Fs.Ext4WriteFile

/-! # Reading back what was written

When a write and the reads after it give the bytes that one expects, and when the size of the file is right
afterwards. A read stops at a hole, a write does not clear the bytes between the old end of the file and its own
start, and the size grows up to the start of a write even if nothing was written.
-/

namespace UnixOS.Fs.Ext4

open ByteMemory ByteBitmap Fallible

/-! ### Whatever memory and device answer -/

abbrev Located (geo : Geometry) : Volume → Prop := Served False fun fs _ => fs.geometry = geo

section Located

variable {geo : Geometry} {E : Volume → Prop} {ino : Nat} {inode : Mem}

theorem ext4AllocBlock_located (group : Nat) :
    Triple (Located geo) (ext4AllocBlock group) (fun _ => Located geo) (Located geo) := by
  refine Triple.bind (blockBitmap.take_spec geo.groupCount (T := fun _ _ fs _ => fs.geometry = geo) ?_ ?_ group) ?_
  · intro fs disk h
    rw [← h]
    rfl
  · intro g hg fs disk index h _
    exact (geometry_count (Or.inl rfl) ..).trans h
  · rintro ⟨g, index⟩
    refine get_spec fun st _ => ?_
    unfold asInt
    split
    case isTrue hInt => exact Triple.pure fun _ hs => hs.imp And.left
    case isFalse hLarge => exact fail_spec fun _ _ => And.left

theorem ext4FreeBlock_located (n : Nat) :
    Triple (Located geo) (ext4FreeBlock n) (fun _ => Located geo) (Located geo) := by
  unfold ext4FreeBlock
  refine get_spec fun st _ => ?_
  split
  case isTrue hBelow => exact fail_spec fun _ _ => And.left
  case isFalse hAbove =>
    dsimp only
    split
    case isTrue hOut => exact fail_spec fun _ _ => And.left
    case isFalse hIn =>
      refine blockBitmap.release_spec ?_ fun _ _ => And.left
      exact fun fs disk h => (geometry_count (Or.inl rfl) ..).trans h.1

theorem ensureIndirect_located (group : Nat) :
    Triple (Located geo) (ensureIndirect inode group)
      (fun result => Served False fun fs _ => (∀ inode' ∈ result, iSizeLo inode' = iSizeLo inode) ∧ fs.geometry = geo)
      E := by
  unfold ensureIndirect
  split
  case isTrue hHas =>
    refine Triple.pure fun _ hs => hs.imp fun h => ⟨?_, h⟩
    rintro inode' ⟨⟩
    rfl
  case isFalse hNone =>
    refine Triple.attempt_bind (ext4AllocBlock_located group) (fun n => ?_)
      (Triple.pure fun _ hs => hs.imp fun h => ⟨nofun, h⟩)
    have hClear : Triple (Located geo) (do kmallocZeros; ext4WriteBlockRaw n zeroBlock : Ext4M Unit)
        (fun _ => Located geo) (Located geo) := by
      refine Triple.bind (Triple.fails kmallocZeros_served fun _ _ => And.right) fun _ => ?_
      exact Triple.fails (ext4WriteBlockRaw_served fun _ _ h => h) fun _ _ => And.right
    have hPure : Triple (Located geo) (pure (some (setIBlock inode indBlock n)))
        (fun result => Served False fun fs _ => (∀ inode' ∈ result, iSizeLo inode' = iSizeLo inode) ∧ fs.geometry = geo)
        E := by
      refine Triple.pure fun _ hs => hs.imp fun h => ⟨?_, h⟩
      rintro inode' ⟨⟩
      exact load_store_disjoint (by decide)
    exact hClear.attempt_bind (fun _ => hPure) hPure

theorem ext4SetFileBlock_located (b n : Nat) :
    Triple (Located geo) (ext4SetFileBlock inode b n ino)
      (fun result => Served False fun fs _ => iSizeLo result.2 = iSizeLo inode ∧ fs.geometry = geo) E := by
  unfold ext4SetFileBlock
  refine get_spec fun st _ => ?_
  split
  case isTrue hDirect =>
    have hDirect' : b < 12 := hDirect
    exact Triple.pure fun _ hs => hs.imp fun h => ⟨load_store_disjoint (by omega), h.1⟩
  case isFalse hFar =>
    split
    case isFalse hBeyond => exact Triple.pure fun _ hs => hs.imp fun h => ⟨rfl, h.1⟩
    case isTrue hNear =>
      refine Triple.bind (Triple.weaken (ensureIndirect_located _) fun _ _ h => h.1) ?_
      intro result
      refine Triple.and_pre fun hSize => ?_
      cases result with
      | none => exact Triple.pure fun _ hs => hs.imp fun h => ⟨rfl, h⟩
      | some inode' =>
        have hStore : Triple (Located geo)
            (do
              kmalloc
              let indirect ← ext4ReadBlock (iBlock inode' indBlock)
              ext4WriteBlockRaw (iBlock inode' indBlock) (store indirect (4 * (b - ndirBlocks)) 4 n) : Ext4M Unit)
            (fun _ => Located geo) (Located geo) := by
          refine Triple.bind (kmalloc_spec fun _ _ => id) fun _ => Triple.bind (ext4ReadBlock_served _) fun indirect => ?_
          exact Triple.fails (ext4WriteBlockRaw_served fun _ _ h => h.1) fun _ _ h => h.2.1
        exact hStore.attempt_bind (fun _ => Triple.pure fun _ hs => hs.imp fun h => ⟨hSize inode' rfl, h⟩)
          (Triple.pure fun _ hs => hs.imp fun h => ⟨hSize inode' rfl, h⟩)

theorem writeTarget_located (b : Nat) :
    Triple (Located geo) (writeTarget ino inode b)
      (fun result => Served False fun fs _ => iSizeLo result.1 = iSizeLo inode ∧ fs.geometry = geo) E := by
  unfold writeTarget
  refine get_spec fun st _ => ?_
  refine Triple.bind (ext4GetFileBlock_spec inode b) fun diskBlock => ?_
  refine Triple.weaken (Q := fun fs _ => fs.geometry = geo) ?_ fun _ _ h => h.1.1
  split
  case isTrue hHole =>
    refine Triple.attempt_bind (ext4AllocBlock_located _) (fun n => ?_)
      (Triple.pure fun _ hs => hs.imp fun h => ⟨rfl, h⟩)
    dsimp only
    refine Triple.bind (ext4SetFileBlock_located b n) ?_
    rintro ⟨stored, inode'⟩
    refine Triple.and_pre fun hSize => ?_
    cases stored with
    | true => exact Triple.pure fun _ hs => hs.imp fun h => ⟨(load_store_disjoint (by omega)).trans hSize, h⟩
    | false =>
      exact Triple.attempt_bind (ext4FreeBlock_located n) (fun _ => Triple.pure fun _ hs => hs.imp fun h => ⟨hSize, h⟩)
        (Triple.pure fun _ hs => hs.imp fun h => ⟨hSize, h⟩)
  case isFalse hMapped =>
    exact Triple.attempt_bind (ext4ReadBlock_served diskBlock)
      (fun buf => Triple.pure fun _ hs => hs.imp fun h => ⟨rfl, h.1⟩) (Triple.pure fun _ hs => hs.imp fun h => ⟨rfl, h⟩)

structure LoopLeft (inode : Mem) (data : List UInt8) (written : Nat) (result : Mem × Nat) : Prop where
  size : iSizeLo result.1 = iSizeLo inode
  counts : written ≤ result.2
  within : result.2 ≤ max written data.length

theorem writeLoop_located (data : List UInt8) (offset fuel written : Nat) :
    Triple (Located geo) (writeLoop ino data offset fuel inode written)
      (fun result => Served False fun fs _ => LoopLeft inode data written result ∧ fs.geometry = geo) E := by
  have hStop : ∀ inode' (n : Nat), LoopLeft inode data written (inode', n) →
      Triple (Located geo) (pure (inode', n))
        (fun result => Served False fun fs _ => LoopLeft inode data written result ∧ fs.geometry = geo) E :=
    fun inode' n h => Triple.pure fun _ hs => hs.imp fun hGeo => ⟨h, hGeo⟩
  induction fuel generalizing inode written with
  | zero => exact hStop inode written ⟨rfl, Nat.le_refl _, Nat.le_max_left _ _⟩
  | succ fuel ih =>
    unfold writeLoop
    split
    case isFalse hDone => exact hStop inode written ⟨rfl, Nat.le_refl _, Nat.le_max_left _ _⟩
    case isTrue hMore =>
      refine get_spec fun st _ => ?_
      refine Triple.bind (Triple.weaken (writeTarget_located _) fun _ _ h => h.1) ?_
      rintro ⟨inode', target⟩
      refine Triple.and_pre fun hSize => ?_
      cases target with
      | none => exact hStop inode' written ⟨hSize, Nat.le_refl _, Nat.le_max_left _ _⟩
      | some target =>
        dsimp only
        have hWrite : ∀ buf, Triple (Located geo) (ext4WriteBlockRaw target.1 buf) (fun _ => Located geo) (Located geo) :=
          fun buf => Triple.fails (ext4WriteBlockRaw_served fun _ _ h => h) fun _ _ => And.right
        refine (hWrite _).attempt_bind (fun _ => ?_) (hStop inode' written ⟨hSize, Nat.le_refl _, Nat.le_max_left _ _⟩)
        refine (ih (written + _) fun inode'' n h => Triple.pure fun _ hs => hs.imp fun hGeo => ⟨h, hGeo⟩).conseq
          (fun _ => id) ?_ fun _ => id
        rintro result s hs
        refine hs.imp ?_
        rintro ⟨hLeft, hGeo⟩
        refine ⟨⟨hLeft.size.trans hSize, (Nat.le_add_right _ _).trans hLeft.counts, hLeft.within.trans ?_⟩, hGeo⟩
        omega

end Located

/-! ### The size -/

def beginWrite (ino : Nat) : Ext4M Mem := do
  let inode ← ext4ReadInode ino
  kmalloc
  pure inode

def firstRound (ino : Nat) (inode : Mem) (data : List UInt8) (offset : Nat) : Ext4M Unit := do
  let st ← Run.get
  let pos := offset % 2 ^ 64
  match ← writeTarget ino inode (pos / st.fs.blockSize) with
  | (_, none) => Run.fail
  | (_, some (diskBlock, buf)) =>
    ext4WriteBlockRaw diskBlock (fill buf (pos % st.fs.blockSize)
      (min (st.fs.blockSize - pos % st.fs.blockSize) data.length) fun i => data.getD i 0)

def firstBlockWritten (ino : Nat) (data : List UInt8) (offset : Nat) : Ext4M Unit := do
  let inode ← beginWrite ino
  if data.length = 0 then Run.fail else firstRound ino inode data offset

def writeRounds (ino : Nat) (data : List UInt8) (offset : Nat) : Ext4M (Mem × Nat) := do
  let inode ← beginWrite ino
  let (inode, written) ← writeLoop ino data offset data.length inode 0
  let pos := (offset + written) % 2 ^ 64
  pure (setIMtime (if pos > iSizeLo inode then setISizeLo inode pos else inode) 0, written)

section Size

variable {ino : Nat} {data : List UInt8} {offset : Nat} {st : Volume}

theorem ext4WriteFile_eq (ino : Nat) (data : List UInt8) (offset : Nat) :
    ext4WriteFile ino data offset = (do
      let (inode, written) ← writeRounds ino data offset
      let _ ← (ext4WriteInode ino inode).attempt
      pure written : Ext4M Nat) := by
  unfold ext4WriteFile writeRounds beginWrite
  simp only [Run.bind_assoc, Run.pure_bind]

theorem Located.of (st : Volume) : Located st.fs.geometry st := ⟨False.elim, False.elim, rfl⟩

theorem run_of_located {α : Type} {m : Ext4M α} {P : α → Prop}
    (h : Triple (Located st.fs.geometry) m (fun a => Served False fun fs _ => P a ∧ fs.geometry = st.fs.geometry)
      fun _ => False) : ∃ a st', m st = (some a, st') ∧ P a ∧ st'.fs.geometry = st.fs.geometry := by
  have hRun := h st (Located.of st)
  rcases hEq : m st with ⟨result, st'⟩
  rw [hEq] at hRun
  cases result with
  | none => exact hRun.elim
  | some a => exact ⟨a, st', rfl, hRun.holds⟩

theorem writeLoop_pos_iff {inode : Mem} {fuel : Nat} {result : Mem × Nat} {st' : Volume} (hBlock : 0 < st.fs.blockSize)
    (hData : 0 < data.length) (hLoop : writeLoop ino data offset (fuel + 1) inode 0 st = (some result, st')) :
    0 < result.2 ↔ (firstRound ino inode data offset st).1 = some () := by
  rw [writeLoop, if_pos hData, Run.bind_of_some (Run.get_run st)] at hLoop
  rw [firstRound, Run.bind_of_some (Run.get_run st)]
  simp only [Nat.add_zero, Nat.sub_zero, Nat.zero_add] at hLoop ⊢
  obtain ⟨⟨inode', target⟩, s, hTarget, -, hGeo⟩ :=
    run_of_located (@writeTarget_located st.fs.geometry _ ino inode (offset % 2 ^ 64 / st.fs.blockSize))
  rw [Run.bind_of_some hTarget] at hLoop ⊢
  cases target with
  | none =>
    cases hLoop
    exact ⟨fun h => absurd h (Nat.lt_irrefl 0), fun h => absurd h (Option.some_ne_none _).symm⟩
  | some target =>
    dsimp only at hLoop ⊢
    rcases hWrite : ext4WriteBlockRaw target.1 (fill target.2 (offset % 2 ^ 64 % st.fs.blockSize)
      (min (st.fs.blockSize - offset % 2 ^ 64 % st.fs.blockSize) data.length) fun i => data.getD i 0) s with ⟨done, s'⟩
    have hAttempt : (ext4WriteBlockRaw target.1 (fill target.2 (offset % 2 ^ 64 % st.fs.blockSize)
        (min (st.fs.blockSize - offset % 2 ^ 64 % st.fs.blockSize) data.length) fun i => data.getD i 0)).attempt s =
        (some done, s') := by
      rw [Run.attempt, hWrite]
    rw [Run.bind_of_some hAttempt] at hLoop
    cases done with
    | none =>
      cases hLoop
      exact ⟨fun h => absurd h (Nat.lt_irrefl 0), fun h => absurd h (Option.some_ne_none _).symm⟩
    | some _ =>
      refine ⟨fun _ => rfl, fun _ => ?_⟩
      have hRest := @writeLoop_located s'.fs.geometry (fun _ => False) ino inode' data offset fuel (min (st.fs.blockSize - offset % 2 ^ 64 % st.fs.blockSize) data.length)
      obtain ⟨left, s'', hLeft, hCounts, -⟩ := run_of_located hRest
      cases hLeft.symm.trans hLoop
      have hRem := Nat.mod_lt (offset % 2 ^ 64) hBlock
      exact Nat.lt_of_lt_of_le (Nat.lt_min.mpr ⟨by omega, hData⟩) hCounts.counts

theorem beginWrite_run (ino : Nat) (st : Volume) :
    (beginWrite ino st).2.fs = st.fs ∧ (beginWrite ino st).2.disk = st.disk ∧
      ∀ inode, (beginWrite ino st).1 = some inode → inode = st.fs.inodeOn st.disk ino := by
  have hBegin : Triple (Served False fun fs disk => fs = st.fs ∧ disk = st.disk) (beginWrite ino)
      (fun inode => Served False fun fs disk => inode = st.fs.inodeOn st.disk ino ∧ fs = st.fs ∧ disk = st.disk)
      (Served False fun fs disk => fs = st.fs ∧ disk = st.disk) := by
    unfold beginWrite
    refine Triple.bind (ext4ReadInode_served ino) fun inode => ?_
    refine Triple.bind (kmalloc_spec fun _ _ => And.left) fun _ => ?_
    refine Triple.pure fun _ hs => hs.imp ?_
    rintro ⟨⟨hFs, hDisk⟩, -, rfl⟩
    exact ⟨by rw [hFs, hDisk], hFs, hDisk⟩
  have hRun := hBegin st ⟨False.elim, False.elim, rfl, rfl⟩
  rcases hEq : beginWrite ino st with ⟨result, st'⟩
  rw [hEq] at hRun
  cases result with
  | none => exact ⟨hRun.holds.1, hRun.holds.2, nofun⟩
  | some inode =>
    refine ⟨hRun.holds.2.1, hRun.holds.2.2, ?_⟩
    rintro _ ⟨⟩
    exact hRun.holds.1

/-- The size after a call of `ext4_write_file`: up to the end of what was written, and unchanged if nothing was. -/
def SizeRight (ino : Nat) (data : List UInt8) (offset : Nat) (st : Volume) : Prop :=
  (ext4WriteFile ino data offset st).2.image.fileSize ino =
    if 0 < (ext4WriteFile ino data offset st).1.getD 0 then
      max (st.image.fileSize ino) (offset + (ext4WriteFile ino data offset st).1.getD 0)
    else st.image.fileSize ino

/-- The call fails before its first round, or memory and device serve the write-back of the inode. -/
def WritesBack (ino : Nat) (data : List UInt8) (offset : Nat) (st : Volume) : Prop :=
  match writeRounds ino data offset st with
  | (none, _) => True
  | (some (inode, _), st') => (ext4WriteInode ino inode st').1 = some ()

theorem writesBack_iff : WritesBack ino data offset st ↔ ∀ r ∈ (writeRounds ino data offset st).1,
    (ext4WriteInode ino r.1 (writeRounds ino data offset st).2).1 = some () := by
  unfold WritesBack
  rcases writeRounds ino data offset st with ⟨_ | r, st'⟩
  · exact iff_of_true trivial nofun
  · exact ⟨by rintro h _ ⟨⟩; exact h, fun h => h r rfl⟩

instance : Decidable (WritesBack ino data offset st) := decidable_of_iff _ writesBack_iff.symm

theorem writeRounds_run (ino : Nat) (data : List UInt8) (offset : Nat) (hBlock : 0 < st.fs.blockSize) :
    ((beginWrite ino st).1 = none ∧ writeRounds ino data offset st = (none, (beginWrite ino st).2)) ∨
      ∃ inode written st', (beginWrite ino st).1 ≠ none ∧
        writeRounds ino data offset st = (some (setIMtime (if (offset + written) % 2 ^ 64 > iSizeLo inode then
          setISizeLo inode ((offset + written) % 2 ^ 64) else inode) 0, written), st') ∧
        iSizeLo inode = st.image.fileSize ino ∧ written ≤ data.length ∧ st'.fs.geometry = st.fs.geometry ∧
        (0 < written ↔ (firstBlockWritten ino data offset st).1 = some ()) := by
  obtain ⟨hFs, hDisk, hInode⟩ := beginWrite_run ino st
  rcases hBegin : beginWrite ino st with ⟨opened, s⟩
  rw [hBegin] at hFs hDisk hInode
  cases opened with
  | none => exact Or.inl ⟨rfl, Run.bind_of_none hBegin⟩
  | some inode =>
    obtain rfl := hInode inode rfl
    obtain ⟨⟨inode', written⟩, st', hLoop, hLeft, hGeo⟩ :=
      run_of_located (@writeLoop_located s.fs.geometry (fun _ => False) ino (st.fs.inodeOn st.disk ino) data offset
        data.length 0)
    have hRounds : writeRounds ino data offset st = (some (setIMtime (if (offset + written) % 2 ^ 64 > iSizeLo inode' then
        setISizeLo inode' ((offset + written) % 2 ^ 64) else inode') 0, written), st') :=
      (Run.bind_of_some hBegin).trans (Run.bind_of_some hLoop)
    have hGeo' : st'.fs.geometry = st.fs.geometry := by
      rw [hGeo]
      exact congrArg Ext4Fs.geometry hFs
    have hWithin : written ≤ data.length := by simpa using hLeft.within
    refine Or.inr ⟨inode', written, st', nofun, hRounds, hLeft.size, hWithin, hGeo', ?_⟩
    rw [firstBlockWritten, Run.bind_of_some hBegin, Run.ite_run]
    by_cases hEmpty : data.length = 0
    · rw [if_pos hEmpty]
      exact ⟨fun hSome => absurd hSome (by omega), nofun⟩
    · rw [if_neg hEmpty]
      obtain ⟨fuel, hFuel⟩ := Nat.exists_eq_succ_of_ne_zero hEmpty
      rw [hFuel] at hLoop
      exact writeLoop_pos_iff (by rwa [hFs]) (Nat.pos_of_ne_zero hEmpty) hLoop

theorem ext4WriteInode_run {inode : Mem} (h : (ext4WriteInode ino inode st).1 = some ()) {w off : Nat}
    (hField : off + w ≤ inodeBytes) :
    load ((ext4WriteInode ino inode st).2.fs.inodeOn (ext4WriteInode ino inode st).2.disk ino) w off = load inode w off := by
  have hWritten : Triple (Served False fun fs _ => fs = st.fs) (ext4WriteInode ino inode)
      (fun _ => Served False fun fs disk => load (fs.inodeOn disk ino) w off = load inode w off)
      (Served False fun fs _ => fs = st.fs) :=
    ext4WriteInode_served ino inode fun fs disk _ _ => load_inodeOn_write hField
  have hRun := hWritten st ⟨False.elim, False.elim, rfl⟩
  rcases hEq : ext4WriteInode ino inode st with ⟨result, st'⟩
  rw [hEq] at hRun h
  cases result with
  | none => cases h
  | some _ => exact hRun.holds

theorem sizeRight_iff (hBlock : 0 < st.fs.blockSize) (hWidth : offset + data.length < 2 ^ 32)
    (hBack : WritesBack ino data offset st) :
    SizeRight ino data offset st ↔ (beginWrite ino st).1 = none ∨ offset ≤ st.image.fileSize ino ∨
      (firstBlockWritten ino data offset st).1 = some () := by
  obtain ⟨hFs, hDisk, -⟩ := beginWrite_run ino st
  rcases writeRounds_run ino data offset hBlock with ⟨hNone, hRounds⟩ | ⟨inode, written, s, hOpened, hRounds, hSize, hWithin,
    -, hFirst⟩
  · have hRun : ext4WriteFile ino data offset st = (none, (beginWrite ino st).2) := by
      rw [ext4WriteFile_eq]
      exact Run.bind_of_none hRounds
    unfold SizeRight
    rw [hRun]
    refine ⟨fun _ => Or.inl hNone, fun _ => ?_⟩
    show iSizeLo ((beginWrite ino st).2.fs.inodeOn (beginWrite ino st).2.disk ino) = st.image.fileSize ino
    rw [hFs, hDisk]
    rfl
  · rw [WritesBack, hRounds] at hBack
    set inode' := setIMtime (if (offset + written) % 2 ^ 64 > iSizeLo inode then
      setISizeLo inode ((offset + written) % 2 ^ 64) else inode) 0 with hInode'
    have hNewSize : iSizeLo inode' = max (st.image.fileSize ino) (offset + written) := by
      have hOther : ∀ m : Mem, iSizeLo (setIMtime m 0) = iSizeLo m := fun m => load_store_disjoint (by omega)
      rw [hInode', hOther, Nat.mod_eq_of_lt (show offset + written < 2 ^ 64 by omega)]
      split
      · have hSmall : offset + written < 256 ^ 4 := by omega
        rw [iSizeLo, setISizeLo, load_store_same_of_lt hSmall]
        omega
      · omega
    have hAttempt : (ext4WriteInode ino inode').attempt s = (some (some ()), (ext4WriteInode ino inode' s).2) := by
      rw [Run.attempt, hBack]
    have hRun : ext4WriteFile ino data offset st = (some written, (ext4WriteInode ino inode' s).2) := by
      rw [ext4WriteFile_eq]
      exact (Run.bind_of_some hRounds).trans (Run.bind_of_some hAttempt)
    have hOnDisk : (ext4WriteInode ino inode' s).2.image.fileSize ino = max (st.image.fileSize ino) (offset + written) :=
      (ext4WriteInode_run hBack (by decide)).trans hNewSize
    unfold SizeRight
    rw [hRun]
    show (ext4WriteInode ino inode' s).2.image.fileSize ino =
      (if 0 < written then max (st.image.fileSize ino) (offset + written) else st.image.fileSize ino) ↔ _
    rw [hOnDisk, ← hFirst]
    by_cases hSome : 0 < written
    · rw [if_pos hSome]
      exact ⟨fun _ => Or.inr (Or.inr hSome), fun _ => rfl⟩
    · rw [if_neg hSome]
      constructor
      · intro hSame
        exact Or.inr (Or.inl (by omega))
      · rintro (hNone | hInside | hSome')
        · exact absurd hNone hOpened
        · omega
        · exact absurd hSome' hSome

end Size

/-! ### Inside the file -/

/-- The write ends before the end of the file, and the file has the blocks for it, all of them direct. -/
structure Image.Inside (im : Image) (ino : Nat) (data : List UInt8) (offset : Nat) : Prop where
  end_le : offset + data.length ≤ im.fileSize ino
  blocks : ∀ p < offset + data.length, offset ≤ p → p / im.fs.blockSize < ndirBlocks ∧
    iBlock (im.fs.inodeOn im.disk ino) (p / im.fs.blockSize) ≠ 0

section Inside

variable {im : Image} {ino : Nat} {data : List UInt8} {offset : Nat} {Q : Assertion} {E : Volume → Prop}

theorem writeTarget_direct {inode : Mem} {b : Nat} (hDirect : b < ndirBlocks) (hSome : iBlock inode b ≠ 0) :
    Triple (Served False Q) (writeTarget ino inode b)
      (fun result => Served False fun fs disk =>
        (result.1 = inode ∧ ∀ target ∈ result.2, target.1 = iBlock inode b) ∧ Q fs disk) E := by
  unfold writeTarget
  refine get_spec fun st _ => ?_
  refine Triple.bind (ext4GetFileBlock_spec inode b) fun diskBlock => ?_
  split
  case isTrue hHole => exact fun _ hs => absurd ((hs.holds.2.2 hDirect).symm.trans hHole) hSome
  case isFalse hMapped =>
    refine Triple.attempt_bind (ext4ReadBlock_served diskBlock) (fun buf => ?_) ?_
    · refine Triple.pure fun _ hs => hs.imp fun h => ⟨⟨rfl, ?_⟩, h.1.1.1⟩
      rintro _ ⟨⟩
      exact h.1.2.2 hDirect
    · exact Triple.pure fun _ hs => hs.imp fun h => ⟨⟨rfl, nofun⟩, h.1.1⟩

theorem Image.Consistent.direct_ne (hConsistent : im.Consistent) (hIno : im.fs.geometry.HasInode ino) {k : Nat}
    (hk : k < ndirBlocks) (hSome : iBlock (im.fs.inodeOn im.disk ino) k ≠ 0) :
    im.fs.inodeBlock ino ≠ iBlock (im.fs.inodeOn im.disk ino) k := by
  intro hSame
  have hFile : im.Refers (.file ino k []) (im.fs.inodeBlock ino) := by
    refine ⟨⟨hIno, Nat.lt_trans hk (by decide), Nat.zero_le _, fun _ h => absurd h List.not_mem_nil⟩, ?_, hSame ▸ hSome⟩
    exact (load_shift (im.disk (im.fs.inodeBlock ino)) (im.fs.inodeOffset ino) 4 (40 + 4 * k)).symm.trans hSame.symm
  cases hConsistent.exclusive.unique (hConsistent.sound.refers_inodeBlock hIno) hFile

def Image.KeepsInode (im : Image) (ino : Nat) (fs : Ext4Fs) (disk : Nat → Mem) : Prop :=
  fs = im.fs ∧ disk (im.fs.inodeBlock ino) = im.disk (im.fs.inodeBlock ino)

theorem Image.KeepsInode.inodeOn {fs : Ext4Fs} {disk : Nat → Mem} (h : im.KeepsInode ino fs disk) :
    fs.inodeOn disk ino = im.fs.inodeOn im.disk ino := by
  obtain ⟨rfl, hDisk⟩ := h
  unfold Ext4Fs.inodeOn
  rw [hDisk]

variable (hConsistent : im.Consistent) (hIno : im.fs.geometry.HasInode ino) (hWidth : offset + data.length < 2 ^ 32)
  (hInside : im.Inside ino data offset)

include hConsistent hIno hWidth hInside

theorem writeLoop_inside (fuel : Nat) {written : Nat} (hWritten : written ≤ data.length) :
    Triple (Served False (im.KeepsInode ino)) (writeLoop ino data offset fuel (im.fs.inodeOn im.disk ino) written)
      (fun result => Served False fun fs disk => (result.1 = im.fs.inodeOn im.disk ino ∧ result.2 ≤ data.length) ∧
        im.KeepsInode ino fs disk) E := by
  have hStop := fun (n : Nat) (hn : n ≤ data.length) => (Triple.pure fun _ hs => hs.imp fun hQ => ⟨⟨rfl, hn⟩, hQ⟩ :
    Triple (Served False (im.KeepsInode ino)) (pure (im.fs.inodeOn im.disk ino, n)) (fun result => Served False fun fs disk =>
      (result.1 = im.fs.inodeOn im.disk ino ∧ result.2 ≤ data.length) ∧ im.KeepsInode ino fs disk) E)
  induction fuel generalizing written with
  | zero => exact hStop written hWritten
  | succ fuel ih =>
    unfold writeLoop
    split
    case isFalse hDone => exact hStop written hWritten
    case isTrue hMore =>
      refine get_spec fun st hst => ?_
      obtain ⟨hDirect, hSome⟩ := hInside.blocks (offset + written) (by omega) (Nat.le_add_right _ _)
      dsimp only
      rw [Nat.mod_eq_of_lt (by omega : offset + written < 2 ^ 64), hst.1]
      refine Triple.bind (Triple.weaken (writeTarget_direct hDirect hSome) fun _ _ h => h.1) ?_
      rintro ⟨inode, target⟩
      refine Triple.and_pre fun hTarget => ?_
      obtain rfl : inode = _ := hTarget.1
      cases target with
      | none => exact hStop written hWritten
      | some target =>
        have hWrite : ∀ buf, Triple (Served False (im.KeepsInode ino)) (ext4WriteBlockRaw target.1 buf)
            (fun _ => Served False (im.KeepsInode ino)) (Served False (im.KeepsInode ino)) := by
          refine fun buf => Triple.fails (ext4WriteBlockRaw_served fun fs disk h => ⟨h.1, ?_⟩) fun _ _ => And.right
          rw [hTarget.2 target rfl, Function.update_of_ne (hConsistent.direct_ne hIno hDirect hSome), h.2]
        exact (hWrite _).attempt_bind (fun _ => ih (by omega)) (hStop written hWritten)

/-- Whatever memory and device answer, a write inside the file leaves its size. -/
theorem ext4WriteFile_inside :
    Triple (Served False fun fs disk => fs = im.fs ∧ disk = im.disk) (ext4WriteFile ino data offset)
      (fun written => Served False fun fs disk =>
        written ≤ data.length ∧ iSizeLo (fs.inodeOn disk ino) = im.fileSize ino)
      (Served False fun fs disk => iSizeLo (fs.inodeOn disk ino) = im.fileSize ino) := by
  have hStart : ∀ fs disk, fs = im.fs ∧ disk = im.disk → iSizeLo (fs.inodeOn disk ino) = im.fileSize ino := by
    rintro _ _ ⟨rfl, rfl⟩
    rfl
  unfold ext4WriteFile
  refine Triple.bind (Triple.fails (ext4ReadInode_served ino) hStart) fun inode => ?_
  refine Triple.bind (kmalloc_spec fun fs disk h => hStart fs disk h.1) fun _ => ?_
  refine Triple.weaken (Q := fun fs disk => inode = im.fs.inodeOn im.disk ino ∧ im.KeepsInode ino fs disk) ?_ ?_
  · refine Triple.and_pre fun hInode => ?_
    subst hInode
    refine Triple.bind (writeLoop_inside hConsistent hIno hWidth hInside _ (Nat.zero_le _)) ?_
    rintro ⟨inode, written⟩
    refine Triple.and_pre fun hLeft => ?_
    obtain ⟨rfl, hWritten⟩ := hLeft
    dsimp only at hWritten ⊢
    have hKept : ¬ (offset + written) % 2 ^ 64 > iSizeLo (im.fs.inodeOn im.disk ino) := by
      rw [Nat.mod_eq_of_lt (by omega)]
      exact Nat.not_lt.mpr (Nat.le_trans (by omega) hInside.end_le)
    rw [if_neg hKept]
    have hSize : iSizeLo (setIMtime (im.fs.inodeOn im.disk ino) 0) = im.fileSize ino := load_store_disjoint (by omega)
    refine Triple.attempt_bind (Q := fun _ => Served False fun fs disk => iSizeLo (fs.inodeOn disk ino) = im.fileSize ino)
      (ext4WriteInode_served ino _ fun fs disk _ _ => (load_inodeOn_write (by decide)).trans hSize) ?_ ?_
    · exact fun _ => Triple.pure fun _ hs => hs.imp fun h => ⟨hWritten, h⟩
    · exact Triple.pure fun _ hs => hs.imp fun h => ⟨hWritten, congrArg iSizeLo h.inodeOn⟩
  · rintro fs disk ⟨⟨rfl, rfl⟩, -, rfl⟩
    exact ⟨rfl, rfl, rfl⟩

theorem sizeRight_of_inside {mem zeros io : Nat → Bool} : SizeRight ino data offset ⟨im.fs, im.disk, mem, zeros, io⟩ := by
  have hRun := ext4WriteFile_inside hConsistent hIno hWidth hInside ⟨im.fs, im.disk, mem, zeros, io⟩
    ⟨False.elim, False.elim, rfl, rfl⟩
  have hEnd := hInside.end_le
  unfold SizeRight
  rcases hEq : ext4WriteFile ino data offset ⟨im.fs, im.disk, mem, zeros, io⟩ with ⟨result, st⟩
  rw [hEq] at hRun
  cases result with
  | none => exact hRun.holds.trans (if_neg (Nat.lt_irrefl 0)).symm
  | some written =>
    obtain ⟨hWritten, hSize⟩ := hRun.holds
    refine hSize.trans ?_
    show im.fileSize ino = if 0 < written then max (im.fileSize ino) (offset + written) else im.fileSize ino
    split
    · omega
    · rfl

end Inside

/-! ### The bytes -/

section Bytes

variable {im : Image} {ino : Nat} {data : List UInt8} {offset : Nat}

def Image.expectedByte (im : Image) (ino : Nat) (data : List UInt8) (offset p : Nat) : UInt8 :=
  if offset ≤ p ∧ p < offset + data.length then data.getD (p - offset) 0
  else if p < im.fileSize ino then fileByte im.fs.blockSize (im.fileContent ino) p
  else 0

/-- The write takes all bytes, and every read afterwards gives its whole range up to the size of the file. -/
def Image.ReadsBack (im : Image) (ino : Nat) (data : List UInt8) (offset : Nat) : Prop :=
  (ext4WriteFile ino data offset im.served).1 = some data.length ∧
    ∀ a n, a + n < 2 ^ 64 →
      (ext4ReadFile ino a n (ext4WriteFile ino data offset im.served).2.image.served).1 =
        some ((List.range (min n ((ext4WriteFile ino data offset im.served).2.image.fileSize ino - a))).map fun i =>
          im.expectedByte ino data offset (a + i))

/-- Below the new size, every block is mapped or gets bytes of the write. -/
def Image.NoHoles (im : Image) (ino : Nat) (data : List UInt8) (offset : Nat) : Prop :=
  ∀ p < max (im.fileSize ino) (offset + data.length), Mapped im.fs.blockSize (im.fileContent ino) p ∨
    ∃ q, offset ≤ q ∧ q < offset + data.length ∧ q / im.fs.blockSize = p / im.fs.blockSize

/-- Between the old end of the file and the start of the write there is nothing but zeros. -/
def Image.ZeroGap (im : Image) (ino offset : Nat) : Prop :=
  ∀ p, im.fileSize ino ≤ p → p < offset → fileByte im.fs.blockSize (im.fileContent ino) p = 0

theorem Image.readsBack_iff (hConsistent : im.Consistent) (hIno : im.fs.geometry.HasInode ino)
    (hWidth : offset + data.length < 2 ^ 32) (hPlain : im.Plain ino data offset) :
    im.ReadsBack ino data offset ↔ im.NoHoles ino data offset ∧ im.ZeroGap ino offset := by
  have hRun := ext4WriteFile_granted (E := fun _ => False) hConsistent hIno hWidth hPlain im.served
    ⟨fun _ => rfl, fun _ => rfl, fun _ => rfl, rfl, rfl⟩
  unfold ReadsBack
  rcases hEq : ext4WriteFile ino data offset im.served with ⟨result, st⟩
  rw [hEq] at hRun
  cases result with
  | none => exact hRun.elim
  | some n =>
    obtain ⟨rfl, hGeo, hSize, hFile⟩ := hRun.holds
    have hBlockSize : st.fs.blockSize = im.fs.blockSize := congrArg Geometry.blockSize hGeo
    have hBlock : 0 < st.fs.blockSize := hBlockSize ▸ Nat.lt_of_lt_of_le (by decide) hConsistent.sound.blockSize_ge
    have hSmall : st.image.fileSize ino < 2 ^ 32 := load_lt _ 4 _
    have hRead : ∀ a n, a + n < 2 ^ 64 → (ext4ReadFile ino a n st.image.served).1 =
        some (readable st.fs.blockSize (st.image.fileContent ino) a (min n (st.image.fileSize ino - a))) := by
      intro a n hEnd
      have hReads := @ext4ReadFile_granted st.fs st.disk (fun _ => False) ino a n (hGeo ▸ hIno) hBlock hEnd
        st.image.served ⟨fun _ => rfl, fun _ => rfl, fun _ => rfl, rfl, rfl⟩
      rcases hEq' : ext4ReadFile ino a n st.image.served with ⟨bytes, st'⟩
      rw [hEq'] at hReads
      cases bytes with
      | none => exact hReads.elim
      | some bytes => exact congrArg some hReads.holds.2
    -- reads of one byte each are as good as all reads
    have hBytes : (∀ a n, a + n < 2 ^ 64 → (ext4ReadFile ino a n st.image.served).1 =
        some ((List.range (min n (st.image.fileSize ino - a))).map fun i => im.expectedByte ino data offset (a + i))) ↔
        ∀ p < st.image.fileSize ino, Mapped st.fs.blockSize (st.image.fileContent ino) p ∧
          fileByte st.fs.blockSize (st.image.fileContent ino) p = im.expectedByte ino data offset p := by
      constructor
      · intro h p hp
        have hHere := h p 1 (by omega)
        rw [hRead p 1 (by omega), Option.some_inj, readable_eq_map_iff] at hHere
        exact hHere 0 (by omega)
      · intro h a n hEnd
        rw [hRead a n hEnd, Option.some_inj, readable_eq_map_iff]
        exact fun i hi => h (a + i) (by omega)
    have hSize' : st.image.fileSize ino = max (im.fileSize ino) (offset + data.length) := hSize
    have hFile' : FileWritten st.fs.blockSize (im.fileContent ino) (st.image.fileContent ino) offset data.length
      fun i => data.getD i 0 := hBlockSize ▸ hFile
    dsimp only
    rw [hBytes, hSize']
    rw [hBlockSize] at hFile' ⊢
    constructor
    · rintro ⟨-, h⟩
      refine ⟨fun p hp => (hFile'.mapped p).mp (h p hp).1, fun p hLow hHigh => ?_⟩
      have hHere := (h p (by omega)).2
      rw [hFile'.bytes, if_neg (by omega), expectedByte, if_neg (by omega), if_neg (by omega)] at hHere
      exact hHere
    · rintro ⟨hHoles, hGap⟩
      refine ⟨rfl, fun p hp => ⟨(hFile'.mapped p).mpr (hHoles p hp), ?_⟩⟩
      rw [hFile'.bytes, expectedByte]
      split
      · rfl
      · split
        · rfl
        · exact hGap p (by omega) (by omega)

/-- No block below the new size is left unmapped, the gap before the write holds zeros, the inode is written back or
the write stays inside the file, and the write begins inside the file or gets its first block written. -/
structure Image.WriteRight (im : Image) (ino : Nat) (data : List UInt8) (offset : Nat) (st : Volume) : Prop where
  bytes : im.Plain ino data offset → im.NoHoles ino data offset ∧ im.ZeroGap ino offset
  back : WritesBack ino data offset st ∨ im.Inside ino data offset
  start : (beginWrite ino st).1 = none ∨ offset ≤ im.fileSize ino ∨ (firstBlockWritten ino data offset st).1 = some ()

/-- A write and the reads after it are as one expects, and the size is right, under these conditions; and under no others in
the calls that write the inode back or stay inside the file. -/
theorem write_read_back_iff {mem zeros io : Nat → Bool} (hConsistent : im.Consistent) (hIno : im.fs.geometry.HasInode ino)
    (hWidth : offset + data.length < 2 ^ 32) :
    ((im.Plain ino data offset → im.ReadsBack ino data offset) ∧ SizeRight ino data offset ⟨im.fs, im.disk, mem, zeros, io⟩) ∧
        (WritesBack ino data offset ⟨im.fs, im.disk, mem, zeros, io⟩ ∨ im.Inside ino data offset) ↔
      im.WriteRight ino data offset ⟨im.fs, im.disk, mem, zeros, io⟩ := by
  have hBlock : 0 < im.fs.blockSize := Nat.lt_of_lt_of_le (by decide) hConsistent.sound.blockSize_ge
  have hReads : (im.Plain ino data offset → im.ReadsBack ino data offset) ↔
      (im.Plain ino data offset → im.NoHoles ino data offset ∧ im.ZeroGap ino offset) :=
    forall_congr' fun hPlain => Image.readsBack_iff hConsistent hIno hWidth hPlain
  constructor
  · rintro ⟨⟨hBytes, hSize⟩, hBack | hInside⟩
    · exact ⟨hReads.mp hBytes, Or.inl hBack, (sizeRight_iff hBlock hWidth hBack).mp hSize⟩
    · exact ⟨hReads.mp hBytes, Or.inr hInside, Or.inr (Or.inl (Nat.le_trans (Nat.le_add_right _ _) hInside.end_le))⟩
  · rintro ⟨hBytes, hBack | hInside, hStart⟩
    · exact ⟨⟨hReads.mpr hBytes, (sizeRight_iff hBlock hWidth hBack).mpr hStart⟩, Or.inl hBack⟩
    · exact ⟨⟨hReads.mpr hBytes, sizeRight_of_inside hConsistent hIno hWidth hInside⟩, Or.inr hInside⟩

end Bytes

/-! ### A small file -/

theorem smallImage_writesBack : WritesBack 1 [65] 0 smallImage.served := by decide +kernel

theorem smallImage_plain {data : List UInt8} {offset : Nat} (hNeeds : smallImage.writeNeeds 1 data offset = 0)
    (hRange : offset + data.length ≤ 12 * 1024) : smallImage.Plain 1 data offset := by
  refine ⟨hRange.trans (by decide), ?_⟩
  rw [hNeeds]
  exact trivial

theorem write_read_back_smallImage :
    smallImage.Consistent ∧ smallImage.Plain 1 [65] 0 ∧ smallImage.ReadsBack 1 [65] 0 ∧
      SizeRight 1 [65] 0 smallImage.served := by
  have hPlain : smallImage.Plain 1 [65] 0 := smallImage_plain (by decide +kernel) (by decide)
  have hSize : smallImage.fileSize 1 = 1 := by decide +kernel
  have hHoles : smallImage.NoHoles 1 [65] 0 := by
    intro p hp
    rw [hSize] at hp
    exact Or.inr ⟨p, Nat.zero_le _, hp, rfl⟩
  have hGap : smallImage.ZeroGap 1 0 := fun p _ hp => absurd hp (Nat.not_lt_zero p)
  have hBoth := ((write_read_back_iff smallImage_consistent ⟨by decide, by decide⟩ (by decide)).mpr
    ⟨fun _ => ⟨hHoles, hGap⟩, Or.inl smallImage_writesBack, Or.inr (Or.inl (Nat.zero_le _))⟩).1
  exact ⟨smallImage_consistent, hPlain, hBoth.1 hPlain, hBoth.2⟩

/-- A byte written two blocks further leaves a hole at which the next read stops, and an empty write behind the end
of the file moves the size. -/
theorem hole_stops_read :
    smallImage.Consistent ∧ smallImage.Plain 1 [65] 2048 ∧ ¬ smallImage.ReadsBack 1 [65] 2048 ∧
      ¬ SizeRight 1 [] 5 smallImage.served := by
  have hFound : blockBitmap.found smallImage.fs smallImage.disk (smallImage.fs.inodeGroup 1) true = some (0, 6) := by
    decide +kernel
  have hPlain : smallImage.Plain 1 [65] 2048 := by
    refine ⟨by decide, ?_⟩
    rw [show smallImage.writeNeeds 1 [65] 2048 = 1 by decide +kernel]
    exact ⟨0, 6, hFound, by decide +kernel, trivial⟩
  have hRead : (ext4ReadFile 1 0 2049 (ext4WriteFile 1 [65] 2048 smallImage.served).2.image.served).1.map List.length =
      some 1024 := by decide +kernel
  have hGrown : (ext4WriteFile 1 [65] 2048 smallImage.served).2.image.fileSize 1 = 2049 := by decide +kernel
  have hEmpty : (ext4WriteFile 1 [] 5 smallImage.served).1.getD 0 = 0 ∧
      (ext4WriteFile 1 [] 5 smallImage.served).2.image.fileSize 1 = 5 ∧ smallImage.fileSize 1 = 1 := by decide +kernel
  refine ⟨smallImage_consistent, hPlain, fun h => ?_, fun h => ?_⟩
  · rw [h.2 0 2049 (by decide), hGrown] at hRead
    simp at hRead
  · unfold SizeRight at h
    rw [hEmpty.1, hEmpty.2.1, if_neg (Nat.lt_irrefl 0)] at h
    exact absurd (h.trans hEmpty.2.2) (by decide)

end UnixOS.Fs.Ext4
