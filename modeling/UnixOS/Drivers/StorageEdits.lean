import UnixOS.Drivers.StorageMbr

/-! # What a partition edit leaves behind

An edit that fails leaves every table and every sector as it was. An edit that succeeds leaves the boot code
alone as far as it could read it, and marks one entry as active.
-/

namespace UnixOS.Storage

open ByteMemory

section Commit

variable {d : Disk} {parts : List Partition}

abbrev Disk.Readable (d : Disk) : Prop := d.kind ≠ .cdrom ∧ d.readFails d.reads = false

def Disk.readsAfter (d : Disk) : Nat := if d.kind = .cdrom then d.reads else d.reads + 1

theorem storageDiskReadSector_eq (d : Disk) (lba : Nat) :
    storageDiskReadSector d lba =
      (if d.Readable then some (d.sectors lba) else none, { d with reads := d.readsAfter }) := by
  rw [storageDiskReadSector, Disk.readsAfter]
  split
  · rename_i hKind
    rw [if_neg fun hRead => hRead.1 hKind]
  · rename_i hKind
    split
    · rename_i hFails
      rw [if_neg fun hRead => by simp [hRead.2] at hFails]
    · rename_i hWorks
      rw [if_pos ⟨hKind, by simpa using hWorks⟩]

def commitBase (d : Disk) : Mem := if d.Readable then d.sectors 0 else fun _ => 0

def Disk.committed (d : Disk) (parts : List Partition) : Disk :=
  { d with
    parts := storageRecomputePartitionLayout parts
    reads := d.readsAfter
    writes := d.writes + 1
    sectors := Function.update d.sectors 0
      (mbrSector (storageRecomputePartitionLayout parts) (commitBase d)) }

/-- The disk after a commit whose write failed, with the old table put back. -/
def Disk.restored (d : Disk) : Disk := { d with reads := d.readsAfter, writes := d.writes + 1 }

theorem storageCommitMbrPartitions_eq (d : Disk) :
    storageCommitMbrPartitions d =
      if 4 < presentCount d.parts then (d, -1)
      else if d.writeFails d.writes then
        ({ d.restored with parts := storageRecomputePartitionLayout d.parts }, -1)
      else (d.committed d.parts, 0) := by
  rw [storageCommitMbrPartitions]
  refine if_congr Iff.rfl rfl ?_
  dsimp only
  rw [storageDiskReadSector_eq]
  dsimp only [storageDiskWriteSector]
  refine if_congr Iff.rfl rfl ?_
  rw [Disk.committed, commitBase, Disk.readsAfter, Disk.readsAfter]
  by_cases hRead : d.Readable
  · rw [if_pos hRead, if_pos hRead]
    rfl
  · rw [if_neg hRead, if_neg hRead]
    rfl

theorem commitOrRestore_eq (d : Disk) (parts : List Partition) :
    commitOrRestore d parts =
      if 4 < presentCount parts then (d, -1)
      else if d.writeFails d.writes then (d.restored, -1)
      else (d.committed parts, 0) := by
  rw [commitOrRestore, storageCommitMbrPartitions_eq]
  dsimp only
  by_cases hFew : 4 < presentCount parts
  · rw [if_pos hFew, if_pos hFew]
    rfl
  rw [if_neg hFew, if_neg hFew]
  cases hWrite : d.writeFails d.writes with
  | false => rfl
  | true => rfl

theorem commitOrRestore_committed {d : Disk} {parts : List Partition} (h : (commitOrRestore d parts).2 = 0) :
    presentCount parts ≤ 4 ∧ (commitOrRestore d parts).1 = d.committed parts := by
  rw [commitOrRestore_eq] at h ⊢
  split
  · rename_i hFew
    rw [if_pos hFew] at h
    cases h
  · rename_i hFew
    rw [if_neg hFew] at h
    refine ⟨Nat.not_lt.mp hFew, ?_⟩
    split
    · rename_i hWrite
      rw [if_pos hWrite] at h
      cases h
    · rfl

end Commit

section Failure

def Disk.content (d : Disk) : List Partition × (Nat → Mem) := (d.parts, d.sectors)

theorem commitOrRestore_failed {d : Disk} {parts : List Partition} (h : (commitOrRestore d parts).2 ≠ 0) :
    (commitOrRestore d parts).1.content = d.content := by
  rw [commitOrRestore_eq] at h ⊢
  split
  · rfl
  · rename_i hFew
    rw [if_neg hFew] at h
    split
    · rfl
    · rename_i hWrite
      rw [if_neg hWrite] at h
      exact absurd rfl h

theorem Edit.apply_cases (e : Edit) (d : Disk) :
    e.apply d = (d, -1) ∨ ∃ parts, e.apply d = commitOrRestore d parts := by
  cases e with
  | create kind sizeMib =>
    simp only [Edit.apply, storageCreatePartition]
    split
    · exact .inl rfl
    split
    · exact .inl rfl
    cases storageFindFreePartitionSlot d.parts with
    | none => exact .inl rfl
    | some slot => exact .inr ⟨_, rfl⟩
  | update partitionIndex kind sizeMib =>
    simp only [Edit.apply, storageUpdatePartition]
    split
    · exact .inl rfl
    cases visibleSlot d.parts partitionIndex with
    | none => exact .inl rfl
    | some slot =>
      dsimp only
      split
      · exact .inl rfl
      · exact .inr ⟨_, rfl⟩
  | delete partitionIndex =>
    simp only [Edit.apply, storageDeletePartition]
    cases visibleSlot d.parts partitionIndex with
    | none => exact .inl rfl
    | some slot => exact .inr ⟨_, rfl⟩

theorem Edit.apply_failed {e : Edit} {d : Disk} (h : (e.apply d).2 ≠ 0) :
    (e.apply d).1.content = d.content := by
  obtain hRefused | ⟨parts, hCommit⟩ := e.apply_cases d
  · rw [hRefused]
  · rw [hCommit] at h ⊢
    exact commitOrRestore_failed h

def Edit.applyAt (e : Edit) (disks : List Disk) (diskIndex : Int) : List Disk × Int :=
  if diskIndex < 0 ∨ disks.length ≤ diskIndex then (disks, -1)
  else
    match disks[diskIndex.toNat]? with
    | none => (disks, -1)
    | some d => (disks.set diskIndex.toNat (e.apply d).1, (e.apply d).2)

/-- A failed edit leaves the tables and the sectors of every disk as they were. -/
theorem failed_edit_keeps_disks (disks : List Disk) (diskIndex : Int) (e : Edit)
    (hFailed : (e.applyAt disks diskIndex).2 = -1) :
    (e.applyAt disks diskIndex).1.map Disk.content = disks.map Disk.content := by
  rw [Edit.applyAt] at hFailed ⊢
  split
  · rfl
  rename_i hIndex
  rw [if_neg hIndex] at hFailed
  cases hDisk : disks[diskIndex.toNat]? with
  | none => rfl
  | some d =>
    simp only [hDisk] at hFailed ⊢
    have hSame : (e.apply d).1.content = d.content := Edit.apply_failed (by rw [hFailed]; decide)
    have hHeld : (disks.map Disk.content)[diskIndex.toNat]? = some d.content := by
      rw [List.getElem?_map, hDisk]
      rfl
    obtain ⟨hLt, hHeld⟩ := List.getElem?_eq_some_iff.mp hHeld
    -- the slot is overwritten with what it held
    rw [List.map_set, hSame, ← hHeld, List.set_getElem_self]

/-- Two partitions, on a device that fails the third write. -/
def filledDisk : Disk :=
  ((Edit.create .data 16).apply ((Edit.create .efi 8).apply { blankDisk 64 with writeFails := fun n => n = 2 }).1).1

/-- The second partition has moved down in the table when the write fails. -/
theorem failed_edit_keeps_disks_write_error :
    ((Edit.delete 0).applyAt [filledDisk] 0).2 = -1 ∧ presentCount filledDisk.parts = 2 ∧
      storageRecomputePartitionLayout (filledDisk.parts.set 0 emptyPartition) ≠ filledDisk.parts ∧
      ((Edit.delete 0).applyAt [filledDisk] 0).1.map Disk.content = [filledDisk].map Disk.content := by
  have hFailed : ((Edit.delete 0).applyAt [filledDisk] 0).2 = -1 := by decide +kernel
  exact ⟨hFailed, by decide +kernel, by decide +kernel, failed_edit_keeps_disks [filledDisk] 0 (.delete 0) hFailed⟩

end Failure

section BootCode

variable {active : Option Nat} {parts : List Partition} {s : Mem}

def slotOfKind (kind : PartitionKind) (parts : List Partition) : Option Nat :=
  parts.findIdx? fun p => p.present && p.kind = kind

def bootSlot (parts : List Partition) : Option Nat := (slotOfKind .system parts).or (slotOfKind .efi parts)

/-- What a successful edit does to sector 0: `old` before, `new` after, with the new table `parts`. -/
structure BootKept (old new : Mem) (parts : List Partition) : Prop where
  code_eq : ∀ x < storageMbrPartitionOffset, new x = old x
  signature_eq : new storageMbrSignatureOffset = 0x55 ∧ new (storageMbrSignatureOffset + 1) = 0xAA
  active_iff : ∀ entry < 4, new (entryOffset entry) = 0x80 ↔
    ∃ slot, bootSlot parts = some slot ∧ presentCount (parts.take slot) = entry
  inactive : ∀ entry < 4, new (entryOffset entry) ≠ 0x80 → new (entryOffset entry) = 0

theorem entryOfKind_eq (kind : PartitionKind) (parts : List Partition) :
    entryOfKind kind parts = (slotOfKind kind parts).map fun slot => presentCount (parts.take slot) := by
  induction parts with
  | nil => rfl
  | cons p ps ih =>
    rw [entryOfKind] at ih ⊢
    rw [slotOfKind] at ih ⊢
    cases hPresent : p.present with
    | false =>
      rw [List.filter_cons_of_neg (by simp [hPresent]), ih, List.findIdx?_cons]
      simp [hPresent, Option.map_map, Function.comp_def, presentCount]
    | true =>
      rw [List.filter_cons_of_pos hPresent, List.findIdx?_cons, List.findIdx?_cons, ih]
      by_cases hKind : p.kind = kind
      · simp [hPresent, hKind, presentCount]
      · simp [hPresent, hKind, Option.map_map, Function.comp_def, presentCount]

theorem activeSlot_eq (parts : List Partition) :
    activeSlot parts = (bootSlot parts).map fun slot => presentCount (parts.take slot) := by
  rw [activeSlot, bootSlot, entryOfKind_eq, entryOfKind_eq]
  cases slotOfKind .system parts with
  | none => rfl
  | some slot => rfl

theorem activeSlot_lt {entry : Nat} (h : activeSlot parts = some entry) : entry < presentCount parts := by
  have hFound : ∀ kind, entryOfKind kind parts = some entry → entry < presentCount parts := by
    intro kind hKind
    rw [presentCount_eq_length]
    exact (List.findIdx?_eq_some_iff_getElem.mp hKind).1
  rw [activeSlot, Option.or_eq_some_iff] at h
  obtain hSystem | ⟨-, hEfi⟩ := h
  · exact hFound .system hSystem
  · exact hFound .efi hEfi

theorem writeEntry_status (active : Option Nat) (entry : Nat) (p : Partition) (s : Mem) :
    writeEntry active entry p s (entryOffset entry) = if active = some entry then 0x80 else 0 := by
  simp only [writeEntry, storageWriteLe32]
  iterate 9 rw [store_outside (by omega)]
  split
  · exact store_byte s _ 0x80
  · exact store_byte s _ 0

theorem writeEntries_status {ps : List Partition} (hAll : ∀ q ∈ ps, q.present = true) {first i : Nat}
    (hi : i < ps.length) : writeEntries active first ps s (entryOffset (first + i)) =
      if active = some (first + i) then 0x80 else 0 := by
  induction ps generalizing first i s with
  | nil => cases hi
  | cons q ps ih =>
    rw [writeEntries, if_pos (hAll q List.mem_cons_self)]
    cases i with
    | zero =>
      have hNext := entryOffset_succ first
      simp only [Nat.add_zero]
      rw [writeEntries_outside (.inl (by omega)), writeEntry_status]
    | succ i =>
      rw [show first + (i + 1) = first + 1 + i by omega]
      exact ih (fun r hr => hAll r (List.mem_cons_of_mem q hr)) (by simpa using hi)

theorem mbrSector_status {entry : Nat} (hEntry : entry < 4) :
    mbrSector parts s (entryOffset entry) = if activeSlot parts = some entry then 0x80 else 0 := by
  have hOffset : entryOffset entry = 446 + entry * 16 := rfl
  simp only [mbrSector, storageMbrSignatureOffset]
  rw [store_outside (by omega), store_outside (by omega), writeEntries_filter]
  by_cases hUsed : entry < presentCount parts
  · have hStatus : writeEntries (activeSlot parts) 0 (parts.filter Partition.present)
        (fill s storageMbrPartitionOffset 64 fun _ => 0) (entryOffset (0 + entry)) =
          if activeSlot parts = some (0 + entry) then 0x80 else 0 :=
      writeEntries_status (fun q hq => (List.mem_filter.mp hq).2)
        (hUsed.trans_eq (presentCount_eq_length parts))
    rwa [Nat.zero_add] at hStatus
  · have hMono := entryOffset_mono (Nat.not_lt.mp hUsed)
    rw [writeEntries_outside (by rw [Nat.zero_add, ← presentCount_eq_length]; exact .inr hMono),
      if_neg fun h => hUsed (activeSlot_lt h), fill, if_pos]
    simp only [storageMbrPartitionOffset]
    omega

theorem mbrSector_code {x : Nat} (hx : x < storageMbrPartitionOffset) :
    mbrSector parts s x = s x := by
  rw [storageMbrPartitionOffset] at hx
  have hFirst : entryOffset 0 = 446 := rfl
  simp only [mbrSector, storageMbrSignatureOffset]
  rw [store_outside (by omega), store_outside (by omega), writeEntries_outside (.inl (by omega)), fill_outside]
  exact .inl hx

theorem mbrSector_bootKept_iff (old : Mem) :
    BootKept old (mbrSector parts s) parts ↔ ∀ x < storageMbrPartitionOffset, s x = old x := by
  constructor
  · intro h x hx
    rw [← h.code_eq x hx, mbrSector_code hx]
  · intro h
    refine ⟨?_, mbrSector_signature parts s, ?_, ?_⟩
    · intro x hx
      rw [mbrSector_code hx, h x hx]
    · intro entry hEntry
      rw [mbrSector_status hEntry, ← Option.map_eq_some_iff, ← activeSlot_eq]
      split
      · rename_i hActive
        exact iff_of_true rfl hActive
      · rename_i hOther
        exact iff_of_false (by decide) hOther
    · intro entry hEntry hNot
      rw [mbrSector_status hEntry] at hNot ⊢
      split
      · rename_i hActive
        exact absurd (if_pos hActive) hNot
      · rfl

theorem Edit.apply_committed {e : Edit} {d : Disk} (h : (e.apply d).2 = 0) :
    ∃ parts, (e.apply d).1 = d.committed parts := by
  obtain hRefused | ⟨parts, hCommit⟩ := e.apply_cases d
  · rw [hRefused] at h
    cases h
  · rw [hCommit] at h ⊢
    exact ⟨parts, (commitOrRestore_committed h).2⟩

/-- A successful edit keeps the boot code exactly if the commit could read it, or there is none. -/
theorem boot_kept_iff (d : Disk) (e : Edit) (hOk : (e.apply d).2 = 0) :
    BootKept (d.sectors 0) ((e.apply d).1.sectors 0) (e.apply d).1.parts ↔
      d.Readable ∨ ∀ x < storageMbrPartitionOffset, d.sectors 0 x = 0 := by
  obtain ⟨parts, hDone⟩ := Edit.apply_committed hOk
  have hSector : (d.committed parts).sectors 0 = mbrSector (d.committed parts).parts (commitBase d) := by
    simp [Disk.committed]
  rw [hDone, hSector, mbrSector_bootKept_iff, commitBase]
  by_cases hRead : d.Readable
  · rw [if_pos hRead]
    exact iff_of_true (fun x hx => rfl) (.inl hRead)
  · rw [if_neg hRead, or_iff_right hRead]
    exact forall₂_congr fun x hx => eq_comm

def bootDisk : Disk := { blankDisk 4 with sectors := fun _ _ => 0xFA }

theorem boot_kept_iff_readable : BootKept (bootDisk.sectors 0)
    (((Edit.create .system 4).apply bootDisk).1.sectors 0) ((Edit.create .system 4).apply bootDisk).1.parts :=
  (boot_kept_iff bootDisk (.create .system 4) (by decide)).mpr (.inl (by decide))

def unreadableDisk : Disk := { bootDisk with readFails := fun _ => true }

theorem boot_code_erased : ((Edit.create .system 4).apply unreadableDisk).2 = 0 ∧
    ¬ BootKept (unreadableDisk.sectors 0) (((Edit.create .system 4).apply unreadableDisk).1.sectors 0)
      ((Edit.create .system 4).apply unreadableDisk).1.parts := by
  refine ⟨by decide, ?_⟩
  intro h
  have hSame := h.code_eq 0 (by decide)
  revert hSame
  decide

end BootCode

end UnixOS.Storage
