import Mathlib.Algebra.GroupWithZero.Nat
import UnixOS.Drivers.StorageEdits

/-! # Writing a disk image

`storage_write_disk_image` and its streaming twin `storage_write_disk_image_file`, with the fixup of the
partition table that both end in. The file layer is a parameter; the buffer on the stack starts with any content.
-/

namespace UnixOS.Storage

open ByteMemory

def storageSectorSize : Nat := 512

def diskSectors (d : Disk) : UInt64 := d.capacityMib.toUInt64 * 2048

def imageSectors (size : UInt64) : UInt64 := (size + 511) / 512

structure BootScan where
  firstPresent : Option Nat
  firstStartLba : UInt32
  activeEntry : Option Nat
  presentCount : Nat

abbrev EntryPresent (s : Mem) (entry : Nat) : Prop :=
  ¬ (s (entryOffset entry + 4) = 0 ∨ storageReadLe32 s (entryOffset entry + 12) = 0)

def scanEntry (s : Mem) (scan : BootScan) (entry : Nat) : BootScan :=
  if EntryPresent s entry then
    { firstPresent := scan.firstPresent.or (some entry)
      firstStartLba :=
        if scan.firstPresent.isNone then storageReadLe32 s (entryOffset entry + 8) else scan.firstStartLba
      activeEntry := if s (entryOffset entry) = 0x80 then some entry else scan.activeEntry
      presentCount := scan.presentCount + 1 }
  else scan

def scanEntries (s : Mem) : BootScan := (List.range 4).foldl (scanEntry s) ⟨none, 0, none, 0⟩

def growSole (disk : UInt64) (scan : BootScan) (firstPresent : Nat) (s : Mem) : Mem :=
  if scan.presentCount = 1 ∧ 0 < scan.firstStartLba ∧ scan.firstStartLba.toUInt64 < disk then
    let sectorCount := storageReadLe32 s (entryOffset firstPresent + 12)
    let maxPartitionSectors := disk - scan.firstStartLba.toUInt64
    let maxPartitionSectors := if 0xFFFFFFFF < maxPartitionSectors then 0xFFFFFFFF else maxPartitionSectors
    if sectorCount.toUInt64 < maxPartitionSectors then
      storageWriteLe32 s (entryOffset firstPresent + 12) maxPartitionSectors.toUInt32
    else s
  else s

def markEntry (activeEntry : Nat) (s : Mem) (entry : Nat) : Mem :=
  if EntryPresent s entry then store s (entryOffset entry) 1 (if entry = activeEntry then 0x80 else 0x00)
  else store s (entryOffset entry) 1 0x00

def markActive (activeEntry : Nat) (s : Mem) : Mem := (List.range 4).foldl (markEntry activeEntry) s

def storageFixupBiosBootDisk (d : Disk) : Disk × Int :=
  match storageDiskReadSector d 0 with
  | (none, d) => (d, -1)
  | (some sector, d) =>
    if sector storageMbrSignatureOffset ≠ 0x55 ∨ sector (storageMbrSignatureOffset + 1) ≠ 0xAA then (d, 0)
    else
      let scan := scanEntries sector
      match scan.firstPresent with
      | none => (d, 0)
      | some firstPresent =>
        let sector := growSole (diskSectors d) scan firstPresent sector
        let sector := markActive (scan.activeEntry.getD firstPresent) sector
        match storageDiskWriteSector d 0 sector with
        | (d, 0) => (storageLoadMbrPartitions d, 0)
        | (d, _) => (d, -1)

/-- The sector loop of `storage_write_disk_image`: `n` sectors from `sectorIndex` on. -/
def writeImageFrom (data : Mem) (size : Nat) : Nat → Nat → Mem → Disk → Disk × Int
  | 0, _, _, d => (d, 0)
  | n + 1, sectorIndex, sector, d =>
    let srcOffset := sectorIndex * storageSectorSize
    let remaining := size - srcOffset
    let chunk := if storageSectorSize < remaining then storageSectorSize else remaining
    let sector := fill sector 0 storageSectorSize fun _ => 0
    let sector := fill sector 0 chunk fun i => data (srcOffset + i)
    match storageDiskWriteSector d (UInt32.ofNat sectorIndex).toNat sector with
    | (d, 0) => writeImageFrom data size n (sectorIndex + 1) sector d
    | (d, _) => (d, -1)

/-- `sector` is what the buffer of the function holds before its first use. -/
def storageWriteDiskImage (d : Disk) (data : Mem) (size : UInt64) (sector : Mem) : Disk × Int :=
  if size = 0 then (d, -1)
  else if d.kind = .cdrom then (d, -1)
  else if diskSectors d < imageSectors size then (d, -1)
  else
    match writeImageFrom data size.toNat (imageSectors size).toNat 0 sector d with
    | (d, 0) =>
      match storageFixupBiosBootDisk d with
      | (d, 0) => (d, 0)
      | (d, _) => (d, -1)
    | (d, _) => (d, -1)

inductive Whence where
  | set | end_
deriving DecidableEq, Repr

/-- The file calls of `storage_write_disk_image_file`. A read gives the buffer back with the count. -/
structure FileApi (File : Type) where
  vfsOpen : String → Option File
  vfsLseek : File → Int → Whence → File × Int
  vfsRead : File → Mem → Nat → File × Mem × Int

section File

variable {File : Type} (vfs : FileApi File)

/-- The sector loop of `storage_write_disk_image_file`. -/
def writeFileFrom : Nat → Nat → File → Mem → Disk → Disk × Int
  | 0, _, _, _, d => (d, 0)
  | n + 1, sectorIndex, file, sector, d =>
    match vfs.vfsRead file sector storageSectorSize with
    | (file, sector, bytesRead) =>
      if bytesRead < 0 then (d, -1)
      else if bytesRead = 0 then (d, -1)
      else
        let sector := fill sector bytesRead.toNat (storageSectorSize - bytesRead.toNat) fun _ => 0
        match storageDiskWriteSector d (UInt32.ofNat sectorIndex).toNat sector with
        | (d, 0) => writeFileFrom n (sectorIndex + 1) file sector d
        | (d, _) => (d, -1)

def storageWriteDiskImageFile (d : Disk) (path : String) (sector : Mem) : Disk × Int :=
  if path = "" then (d, -1)
  else if d.kind = .cdrom then (d, -1)
  else
    match vfs.vfsOpen path with
    | none => (d, -1)
    | some file =>
      match vfs.vfsLseek file 0 .end_ with
      | (file, fileSize) =>
        if fileSize ≤ 0 then (d, -1)
        else
          match vfs.vfsLseek file 0 .set with
          | (file, offset) =>
            if offset < 0 then (d, -1)
            else if diskSectors d < imageSectors (UInt64.ofNat fileSize.toNat) then (d, -1)
            else
              match writeFileFrom vfs (imageSectors (UInt64.ofNat fileSize.toNat)).toNat 0 file sector d with
              | (d, 0) =>
                match storageFixupBiosBootDisk d with
                | (d, 0) => (d, 0)
                | (d, _) => (d, -1)
              | (d, _) => (d, -1)

end File

section Statement

def imageByte (data : Mem) (size i : Nat) : UInt8 := if i < size then data i else 0

def imageSector (data : Mem) (size : Nat) (sector : Mem) (lba : Nat) : Mem := fun x =>
  if x < storageSectorSize then imageByte data size (lba * storageSectorSize + x) else sector x

def Signed (s : Mem) : Prop :=
  s storageMbrSignatureOffset = 0x55 ∧ s (storageMbrSignatureOffset + 1) = 0xAA

def HasTable (s : Mem) : Prop := Signed s ∧ ∃ entry < 4, EntryPresent s entry

structure SolePresent (s : Mem) (entry : Nat) : Prop where
  lt : entry < 4
  present : EntryPresent s entry
  alone : ∀ other < 4, EntryPresent s other → other = entry

structure SectorFixed (disk : UInt64) (s new : Mem) : Prop where
  outside : ∀ x, x < storageMbrPartitionOffset ∨ storageMbrSignatureOffset ≤ x → new x = s x
  fields : ∀ entry < 4, ∀ k, 1 ≤ k → k < 12 → new (entryOffset entry + k) = s (entryOffset entry + k)
  counts : ∀ entry < 4, ¬ SolePresent s entry →
    ∀ k, 12 ≤ k → k < 16 → new (entryOffset entry + k) = s (entryOffset entry + k)
  no_shrink : ∀ entry, SolePresent s entry →
    storageReadLe32 s (entryOffset entry + 12) ≤ storageReadLe32 new (entryOffset entry + 12)
  grows_in_disk : ∀ entry, SolePresent s entry →
    storageReadLe32 new (entryOffset entry + 12) ≠ storageReadLe32 s (entryOffset entry + 12) →
    (storageReadLe32 s (entryOffset entry + 8)).toNat + (storageReadLe32 new (entryOffset entry + 12)).toNat
      ≤ disk.toNat
  one_active : HasTable s → ∀ entry < 4, ∀ other < 4,
    new (entryOffset entry) = 0x80 → new (entryOffset other) = 0x80 → entry = other
  untouched : ¬ HasTable s → new = s

def sectorsOf (size : Nat) : Nat := (size + (storageSectorSize - 1)) / storageSectorSize

structure ImageWritten (d d' : Disk) (data : Mem) (size : Nat) (sector : Mem) : Prop where
  body : ∀ lba, 1 ≤ lba → lba < sectorsOf size → ∀ x < storageSectorSize,
    d'.sectors lba x = imageByte data size (lba * storageSectorSize + x)
  rest : ∀ lba, sectorsOf size ≤ lba → d'.sectors lba = d.sectors lba
  first : SectorFixed (diskSectors d) (imageSector data size sector 0) (d'.sectors 0)

/-- The file layer serves a file with `size` bytes of `data`: `At file pos` says where an open file is, and a
read there delivers a full sector, or what is left before the end. -/
structure Serves {File : Type} (vfs : FileApi File) (path : String) (data : Mem) (size : Nat)
    (At : File → Nat → Prop) : Prop where
  path_ne : path ≠ ""
  opens : ∃ file, vfs.vfsOpen path = some file ∧ (vfs.vfsLseek file 0 .end_).2 = size ∧
    0 ≤ (vfs.vfsLseek (vfs.vfsLseek file 0 .end_).1 0 .set).2 ∧
    At (vfs.vfsLseek (vfs.vfsLseek file 0 .end_).1 0 .set).1 0
  reads : ∀ file pos buffer, At file pos → pos < size → ∃ file',
    vfs.vfsRead file buffer storageSectorSize =
      (file', fill buffer 0 (min storageSectorSize (size - pos)) (fun i => data (pos + i)),
        ((min storageSectorSize (size - pos) : Nat) : Int)) ∧
    At file' (pos + min storageSectorSize (size - pos))

end Statement

section Fixup

variable {s s' : Mem} {disk : UInt64}

structure Scanned (s : Mem) (entries : List Nat) (scan : BootScan) : Prop where
  first_eq : scan.firstPresent = entries.find? fun entry => decide (EntryPresent s entry)
  start_eq : ∀ entry, scan.firstPresent = some entry →
    scan.firstStartLba = storageReadLe32 s (entryOffset entry + 8)
  count_eq : scan.presentCount = entries.countP fun entry => decide (EntryPresent s entry)

theorem Scanned.step {entries : List Nat} {scan : BootScan} (h : Scanned s entries scan) (entry : Nat) :
    Scanned s (entries ++ [entry]) (scanEntry s scan entry) := by
  rw [scanEntry]
  split
  · rename_i hPresent
    refine ⟨?_, ?_, ?_⟩
    · rw [List.find?_append, ← h.first_eq, List.find?_cons_of_pos (by simpa using hPresent)]
    · intro first hFirst
      dsimp only at hFirst ⊢
      cases hOld : scan.firstPresent with
      | none =>
        obtain rfl : entry = first := by simpa [hOld] using hFirst
        rfl
      | some old =>
        obtain rfl : old = first := by simpa [hOld] using hFirst
        exact h.start_eq old hOld
    · dsimp only
      rw [List.countP_append, ← h.count_eq, List.countP_singleton, if_pos (by simpa using hPresent)]
  · rename_i hAbsent
    refine ⟨?_, h.start_eq, ?_⟩
    · rw [List.find?_append, ← h.first_eq, List.find?_cons_of_neg (by simpa using hAbsent)]
      simp
    · rw [List.countP_append, ← h.count_eq, List.countP_singleton, if_neg (by simpa using hAbsent)]
      rfl

theorem scanEntries_scanned (s : Mem) : Scanned s (List.range 4) (scanEntries s) := by
  have hEmpty : Scanned s [] ⟨none, 0, none, 0⟩ := by
    refine ⟨rfl, ?_, rfl⟩
    intro entry hEntry
    cases hEntry
  exact (((hEmpty.step 0).step 1).step 2).step 3

theorem scanEntries_none : (scanEntries s).firstPresent = none ↔ ¬ ∃ entry < 4, EntryPresent s entry := by
  rw [(scanEntries_scanned s).first_eq, List.find?_eq_none]
  simp only [List.mem_range, decide_eq_true_iff]
  constructor
  · rintro hNone ⟨entry, hLt, hPresent⟩
    exact hNone entry hLt hPresent
  · intro hNone entry hLt hPresent
    exact hNone ⟨entry, hLt, hPresent⟩

theorem scanEntries_sole {entry : Nat} (hFirst : (scanEntries s).firstPresent = some entry)
    (hCount : (scanEntries s).presentCount = 1) : SolePresent s entry := by
  have hScanned := scanEntries_scanned s
  rw [hScanned.first_eq] at hFirst
  rw [hScanned.count_eq, List.countP_eq_length_filter, List.length_eq_one_iff] at hCount
  obtain ⟨sole, hSole⟩ := hCount
  have hMem : ∀ e, e < 4 → EntryPresent s e → e = sole := by
    intro e hLt hPresent
    rw [← List.mem_singleton, ← hSole, List.mem_filter]
    exact ⟨List.mem_range.mpr hLt, by simpa using hPresent⟩
  have hPresent : EntryPresent s entry := by simpa using List.find?_some hFirst
  have hLt : entry < 4 := List.mem_range.mp (List.mem_of_find?_eq_some hFirst)
  refine ⟨hLt, hPresent, ?_⟩
  intro other hOther hOtherPresent
  rw [hMem other hOther hOtherPresent, hMem entry hLt hPresent]

theorem entryOffset_injective {entry other : Nat} (h : entryOffset entry = entryOffset other) : entry = other := by
  simp only [entryOffset] at h
  omega

theorem EntryPresent.congr {entry : Nat} (hType : s' (entryOffset entry + 4) = s (entryOffset entry + 4))
    (hCount : storageReadLe32 s' (entryOffset entry + 12) = storageReadLe32 s (entryOffset entry + 12)) :
    EntryPresent s' entry ↔ EntryPresent s entry := by
  rw [EntryPresent, EntryPresent, hType, hCount]

variable {activeEntry x : Nat}

theorem markEntry_outside {entry : Nat} (h : x ≠ entryOffset entry) : markEntry activeEntry s entry x = s x := by
  rw [markEntry]
  split
  · exact store_outside (by omega)
  · exact store_outside (by omega)

theorem markEntry_status (activeEntry : Nat) (s : Mem) (entry : Nat) : markEntry activeEntry s entry
    (entryOffset entry) = if EntryPresent s entry ∧ entry = activeEntry then 0x80 else 0 := by
  rw [markEntry]
  by_cases hPresent : EntryPresent s entry
  · rw [if_pos hPresent]
    by_cases hActive : entry = activeEntry
    · rw [if_pos hActive, if_pos ⟨hPresent, hActive⟩]
      exact store_byte s _ 0x80
    · rw [if_neg hActive, if_neg fun h => hActive h.2]
      exact store_byte s _ 0
  · rw [if_neg hPresent, if_neg fun h => hPresent h.1]
    exact store_byte s _ 0

theorem markEntry_present (entry other : Nat) :
    EntryPresent (markEntry activeEntry s entry) other ↔ EntryPresent s other := by
  have hOffset : ∀ e, entryOffset e = 446 + e * 16 := fun _ => rfl
  apply EntryPresent.congr
  · rw [markEntry_outside]
    rw [hOffset, hOffset]
    omega
  · rw [storageReadLe32, storageReadLe32, load_congr]
    intro y hLow hHigh
    rw [hOffset] at hLow hHigh
    rw [markEntry_outside]
    rw [hOffset]
    omega

theorem markEntries_outside {entries : List Nat} (h : ∀ entry ∈ entries, x ≠ entryOffset entry) :
    entries.foldl (markEntry activeEntry) s x = s x := by
  induction entries generalizing s with
  | nil => rfl
  | cons entry entries ih =>
    rw [List.foldl_cons, ih fun e he => h e (List.mem_cons_of_mem entry he)]
    exact markEntry_outside (h entry List.mem_cons_self)

theorem markEntries_status {entries : List Nat} {entry : Nat} (h : entry ∈ entries) :
    entries.foldl (markEntry activeEntry) s (entryOffset entry) =
      if EntryPresent s entry ∧ entry = activeEntry then 0x80 else 0 := by
  induction entries generalizing s with
  | nil => cases h
  | cons first entries ih =>
    rw [List.foldl_cons]
    by_cases hLater : entry ∈ entries
    · rw [ih hLater]
      exact if_congr (and_congr_left' (markEntry_present first entry)) rfl rfl
    · obtain rfl : entry = first := by simpa [hLater] using h
      rw [markEntries_outside, markEntry_status]
      intro e he hSame
      rw [entryOffset_injective hSame] at hLater
      exact hLater he

theorem maxPartitionSectors_le {start : UInt32} (h : start.toUInt64 < disk) {most : UInt64}
    (hMost : most = if 0xFFFFFFFF < disk - start.toUInt64 then 0xFFFFFFFF else disk - start.toUInt64) :
    start.toNat + most.toNat ≤ disk.toNat ∧ most.toNat < 2 ^ 32 := by
  have hBound : (0xFFFFFFFF : UInt64).toNat = 0xFFFFFFFF := rfl
  rw [UInt64.lt_iff_toNat_lt, UInt32.toNat_toUInt64] at h
  have hRoom : (disk - start.toUInt64).toNat = disk.toNat - start.toNat :=
    UInt64.toNat_sub_of_le _ _ (by rw [UInt64.le_iff_toNat_le, UInt32.toNat_toUInt64]; omega)
  rw [hMost]
  split
  · rename_i hLarge
    rw [UInt64.lt_iff_toNat_lt] at hLarge
    omega
  · rename_i hSmall
    rw [UInt64.lt_iff_toNat_lt] at hSmall
    omega

theorem growSole_cases (disk : UInt64) {entry : Nat} (hFirst : (scanEntries s).firstPresent = some entry) :
    growSole disk (scanEntries s) entry s = s ∨
      ∃ sectorCount, growSole disk (scanEntries s) entry s =
          storageWriteLe32 s (entryOffset entry + 12) sectorCount ∧ SolePresent s entry ∧
        storageReadLe32 s (entryOffset entry + 12) < sectorCount ∧
        (storageReadLe32 s (entryOffset entry + 8)).toNat + sectorCount.toNat ≤ disk.toNat := by
  rw [growSole]
  split
  · rename_i hSole
    obtain ⟨hCount, -, hInside⟩ := hSole
    rw [(scanEntries_scanned s).start_eq entry hFirst] at hInside ⊢
    dsimp only
    generalize hMost : (if 0xFFFFFFFF < disk - (storageReadLe32 s (entryOffset entry + 8)).toUInt64 then 0xFFFFFFFF
      else disk - (storageReadLe32 s (entryOffset entry + 8)).toUInt64) = most
    obtain ⟨hFits, hWord⟩ := maxPartitionSectors_le hInside hMost.symm
    split
    · rename_i hLess
      have hSame : most.toUInt32.toNat = most.toNat := by
        rw [UInt64.toNat_toUInt32]
        exact Nat.mod_eq_of_lt hWord
      rw [UInt64.lt_iff_toNat_lt, UInt32.toNat_toUInt64] at hLess
      refine .inr ⟨most.toUInt32, rfl, scanEntries_sole hFirst hCount, ?_, ?_⟩
      · rwa [UInt32.lt_iff_toNat_lt, hSame]
      · rwa [hSame]
    · exact .inl rfl
  · exact .inl rfl

theorem sectorFixed_refl (h : ¬ HasTable s) : SectorFixed disk s s where
  outside _ _ := rfl
  fields _ _ _ _ _ := rfl
  counts _ _ _ _ _ _ := rfl
  no_shrink _ _ := UInt32.le_refl _
  grows_in_disk _ _ hGrown := absurd rfl hGrown
  one_active hTable := absurd hTable h
  untouched _ := rfl

theorem sectorFixed_mark {first : Nat} (hTable : HasTable s) (hFirst : (scanEntries s).firstPresent = some first)
    (activeEntry : Nat) :
    SectorFixed disk s (markActive activeEntry (growSole disk (scanEntries s) first s)) := by
  have hOffset : ∀ e, entryOffset e = 446 + e * 16 := fun _ => rfl
  have hCases := growSole_cases disk hFirst
  generalize growSole disk (scanEntries s) first s = grown at hCases ⊢
  have hMark : ∀ x, (∀ e < 4, x ≠ entryOffset e) → markActive activeEntry grown x = grown x := by
    intro x hx
    exact markEntries_outside fun e he => hx e (List.mem_range.mp he)
  have hCountAt : ∀ e, storageReadLe32 (markActive activeEntry grown) (entryOffset e + 12) =
      storageReadLe32 grown (entryOffset e + 12) := by
    intro e
    rw [storageReadLe32, storageReadLe32, load_congr]
    intro y hLow hHigh
    apply hMark
    intro e' _
    rw [hOffset] at hLow hHigh ⊢
    omega
  have hGrown : ∀ x, ¬ (SolePresent s first ∧ entryOffset first + 12 ≤ x ∧ x < entryOffset first + 16) →
      grown x = s x := by
    intro x hx
    obtain rfl | ⟨count, rfl, hSole, -⟩ := hCases
    · rfl
    · exact store_outside (by by_contra hInside; exact hx ⟨hSole, by omega, by omega⟩)
  constructor
  · intro x hx
    rw [storageMbrPartitionOffset, storageMbrSignatureOffset] at hx
    rw [hMark, hGrown]
    · rintro ⟨hSole, hLow, hHigh⟩
      have hLt := hSole.lt
      rw [hOffset] at hLow hHigh
      omega
    · intro e he
      rw [hOffset]
      omega
  · intro entry _ k hLow hHigh
    rw [hMark, hGrown]
    · rintro ⟨-, hLow', hHigh'⟩
      rw [hOffset, hOffset] at hLow' hHigh'
      omega
    · intro e _
      rw [hOffset, hOffset]
      omega
  · intro entry _ hOther k hLow hHigh
    rw [hMark, hGrown]
    · rintro ⟨hSole, hLow', hHigh'⟩
      rw [hOffset, hOffset] at hLow' hHigh'
      obtain rfl : entry = first := by omega
      exact hOther hSole
    · intro e _
      rw [hOffset, hOffset]
      omega
  · intro entry hSole
    rw [hCountAt]
    obtain rfl | ⟨count, rfl, hFirstSole, hLess, -⟩ := hCases
    · exact UInt32.le_refl _
    · obtain rfl : first = entry := hSole.alone first hFirstSole.lt hFirstSole.present
      rw [storageReadLe32_writeLe32]
      exact UInt32.le_of_lt hLess
  · intro entry hSole
    rw [hCountAt]
    obtain rfl | ⟨count, rfl, hFirstSole, -, hFits⟩ := hCases
    · exact fun hGrew => absurd rfl hGrew
    · obtain rfl : first = entry := hSole.alone first hFirstSole.lt hFirstSole.present
      rw [storageReadLe32_writeLe32]
      exact fun _ => hFits
  · intro _ entry hEntry other hOther hActive hOtherActive
    have hStatus : ∀ e < 4, markActive activeEntry grown (entryOffset e) = 0x80 → e = activeEntry := by
      intro e he h
      rw [markActive, markEntries_status (List.mem_range.mpr he)] at h
      by_contra hNot
      rw [if_neg fun hBoth => hNot hBoth.2] at h
      exact absurd h (by decide)
    rw [hStatus entry hEntry hActive, hStatus other hOther hOtherActive]
  · intro hNone
    exact absurd hTable hNone

theorem storageLoadMbrPartitions_sectors (d : Disk) : (storageLoadMbrPartitions d).sectors = d.sectors := by
  rw [storageLoadMbrPartitions, storageDiskReadSector_eq]
  by_cases hRead : d.Readable
  · rw [if_pos hRead]
    dsimp only
    split
    · rfl
    · rfl
  · rw [if_neg hRead]

theorem storageFixupBiosBootDisk_spec {d : Disk} (hOk : (storageFixupBiosBootDisk d).2 = 0) :
    ∃ new, (storageFixupBiosBootDisk d).1.sectors = Function.update d.sectors 0 new ∧
      SectorFixed (diskSectors d) (d.sectors 0) new := by
  rw [storageFixupBiosBootDisk, storageDiskReadSector_eq] at hOk ⊢
  by_cases hRead : d.Readable
  · rw [if_pos hRead] at hOk ⊢
    dsimp only at hOk ⊢
    split
    · rename_i hUnsigned
      refine ⟨d.sectors 0, by simp, sectorFixed_refl ?_⟩
      rintro ⟨hSigned, -⟩
      simp [hSigned.1, hSigned.2] at hUnsigned
    rename_i hSigned
    rw [if_neg hSigned] at hOk
    cases hFirst : (scanEntries (d.sectors 0)).firstPresent with
    | none => exact ⟨d.sectors 0, by simp, sectorFixed_refl fun hTable => scanEntries_none.mp hFirst hTable.2⟩
    | some first =>
      have hTable : HasTable (d.sectors 0) := by
        refine ⟨by simpa [Signed] using hSigned, ?_⟩
        by_contra hNone
        rw [scanEntries_none.mpr hNone] at hFirst
        cases hFirst
      rw [hFirst] at hOk
      dsimp only [storageDiskWriteSector] at hOk ⊢
      cases hWrite : d.writeFails d.writes with
      | true =>
        rw [hWrite, if_pos rfl] at hOk
        cases hOk
      | false =>
        rw [if_neg Bool.false_ne_true]
        refine ⟨_, storageLoadMbrPartitions_sectors _, ?_⟩
        exact sectorFixed_mark hTable hFirst _
  · rw [if_neg hRead] at hOk
    cases hOk

end Fixup

section Loops

variable {data : Mem} {size : Nat} {d : Disk} {sector : Mem}

def Disk.filled (d : Disk) (data : Mem) (size n first : Nat) (sector : Mem) : Disk :=
  { d with
    writes := d.writes + n
    sectors := fun lba =>
      if first ≤ lba ∧ lba < first + n then imageSector data size sector lba else d.sectors lba }

theorem imageSector_eq_fill {lba chunk : Nat} (hChunk : chunk = if storageSectorSize < size - lba *
      storageSectorSize then storageSectorSize else size - lba * storageSectorSize) :
    fill (fill sector 0 storageSectorSize fun _ => 0) 0 chunk (fun i => data (lba * storageSectorSize + i)) =
      imageSector data size sector lba := by
  funext x
  have hSize : storageSectorSize = 512 := rfl
  simp only [fill, imageSector, imageByte, Nat.sub_zero, Nat.zero_add, Nat.zero_le, true_and]
  split at hChunk
  · split
    · rw [if_pos (by omega), if_pos (by omega)]
    · rw [if_neg (by omega), if_neg (by omega)]
  · split
    · rw [if_pos (by omega), if_pos (by omega)]
    · split
      · rw [if_neg (by omega)]
      · rfl

theorem imageSector_imageSector (data : Mem) (size : Nat) (sector : Mem) (lba lba' : Nat) :
    imageSector data size (imageSector data size sector lba') lba = imageSector data size sector lba := by
  funext x
  simp only [imageSector]
  split
  · rfl
  · rfl

theorem Disk.filled_zero (d : Disk) (first : Nat) : d.filled data size 0 first sector = d := by
  have hSectors : (fun lba => if first ≤ lba ∧ lba < first + 0 then imageSector data size sector lba
      else d.sectors lba) = d.sectors := by
    funext lba
    rw [if_neg (by omega)]
  rw [Disk.filled, hSectors]
  rfl

theorem Disk.filled_succ (d : Disk) (n first : Nat) :
    ({ d with
        writes := d.writes + 1
        sectors := Function.update d.sectors first (imageSector data size sector first) } : Disk).filled
          data size n (first + 1) (imageSector data size sector first) =
      d.filled data size (n + 1) first sector := by
  have hSectors : (fun lba => if first + 1 ≤ lba ∧ lba < first + 1 + n then
        imageSector data size (imageSector data size sector first) lba
      else Function.update d.sectors first (imageSector data size sector first) lba) =
      fun lba => if first ≤ lba ∧ lba < first + (n + 1) then imageSector data size sector lba else d.sectors lba := by
    funext lba
    by_cases hHere : lba = first
    · subst hHere
      rw [if_neg (by omega), if_pos (by omega), Function.update_self]
    · rw [Function.update_of_ne hHere, imageSector_imageSector]
      exact if_congr (by omega) rfl rfl
  rw [Disk.filled, Disk.filled, hSectors, Nat.add_assoc, Nat.add_comm 1 n]

theorem writeImageFrom_spec {n first : Nat} (hCover : first + n ≤ 2 ^ 32)
    (hOk : (writeImageFrom data size n first sector d).2 = 0) :
    (writeImageFrom data size n first sector d).1 = d.filled data size n first sector := by
  induction n generalizing first sector d with
  | zero =>
    rw [writeImageFrom, Disk.filled_zero]
  | succ n ih =>
    have hLba : (UInt32.ofNat first).toNat = first := UInt32.toNat_ofNat_of_lt' (by rw [UInt32.size]; omega)
    simp only [writeImageFrom] at hOk ⊢
    rw [imageSector_eq_fill rfl, hLba, storageDiskWriteSector] at hOk ⊢
    cases hWrite : d.writeFails d.writes with
    | true =>
      rw [hWrite, if_pos rfl] at hOk
      cases hOk
    | false =>
      rw [hWrite, if_neg Bool.false_ne_true] at hOk
      rw [if_neg Bool.false_ne_true, ← Disk.filled_succ]
      exact ih (by omega) hOk

theorem imageSectors_toNat {size : UInt64} (h : size.toNat ≤ 2 ^ 32 * storageSectorSize) :
    (imageSectors size).toNat = sectorsOf size.toNat ∧ sectorsOf size.toNat ≤ 2 ^ 32 := by
  have hSize : storageSectorSize = 512 := rfl
  have hPad : (511 : UInt64).toNat = 511 := rfl
  have hDiv : (512 : UInt64).toNat = 512 := rfl
  rw [hSize] at h
  rw [imageSectors, UInt64.toNat_div, UInt64.toNat_add, hPad, hDiv, sectorsOf, hSize,
    Nat.mod_eq_of_lt (by omega)]
  omega

theorem imageSector_eq_read {lba : Nat} {buffer : Mem} (hArray : ∀ x ≥ storageSectorSize, buffer x = sector x) :
    fill (fill buffer 0 (min storageSectorSize (size - lba * storageSectorSize))
        (fun i => data (lba * storageSectorSize + i)))
      (min storageSectorSize (size - lba * storageSectorSize))
      (storageSectorSize - min storageSectorSize (size - lba * storageSectorSize)) (fun _ => 0) =
      imageSector data size sector lba := by
  funext x
  have hSize : storageSectorSize = 512 := rfl
  simp only [fill, imageSector, imageByte, Nat.sub_zero, Nat.zero_add, Nat.zero_le, true_and]
  by_cases hInside : x < storageSectorSize
  · by_cases hData : lba * storageSectorSize + x < size
    · rw [if_neg (by omega), if_pos (by omega), if_pos hInside, if_pos hData]
    · rw [if_pos (by omega), if_pos hInside, if_neg hData]
  · rw [if_neg (by omega), if_neg (by omega), if_neg hInside, hArray x (by omega)]

variable {File : Type} {vfs : FileApi File} {path : String} {At : File → Nat → Prop}

theorem writeFileFrom_eq (hServes : Serves vfs path data size At) {n first : Nat} {file : File} {buffer : Mem}
    (hLast : first + n = sectorsOf size) (hAt : n ≠ 0 → At file (first * storageSectorSize))
    (hArray : ∀ x ≥ storageSectorSize, buffer x = sector x) :
    writeFileFrom vfs n first file buffer d = writeImageFrom data size n first sector d := by
  have hSize : storageSectorSize = 512 := rfl
  rw [sectorsOf] at hLast
  induction n generalizing first file buffer sector d with
  | zero => rfl
  | succ n ih =>
    have hHere : first * storageSectorSize < size := by
      rw [hSize] at hLast ⊢
      omega
    obtain ⟨file', hRead, hAt'⟩ := hServes.reads file (first * storageSectorSize) buffer
      (hAt (Nat.succ_ne_zero n)) hHere
    rw [writeFileFrom, hRead, writeImageFrom]
    dsimp only
    rw [if_neg (by omega), if_neg (by omega), Int.toNat_natCast, imageSector_eq_read hArray,
      imageSector_eq_fill rfl, storageDiskWriteSector]
    cases hWrite : d.writeFails d.writes with
    | true => rfl
    | false =>
      rw [if_neg Bool.false_ne_true]
      refine ih (by omega) ?_ fun _ _ => rfl
      intro hMore
      have hFull : first * storageSectorSize + min storageSectorSize (size - first * storageSectorSize) =
          (first + 1) * storageSectorSize := by
        rw [hSize] at hLast ⊢
        omega
      rwa [hFull] at hAt'

end Loops

section Image

variable {File : Type} {d : Disk} {data : Mem} {size : UInt64} {sector : Mem}

theorem storageWriteDiskImage_spec (hCover : size.toNat ≤ 2 ^ 32 * storageSectorSize)
    (hOk : (storageWriteDiskImage d data size sector).2 = 0) :
    ImageWritten d (storageWriteDiskImage d data size sector).1 data size.toNat sector := by
  obtain ⟨hCount, hLba⟩ := imageSectors_toNat hCover
  rw [storageWriteDiskImage] at hOk ⊢
  split
  · rename_i hSize
    rw [if_pos hSize] at hOk
    cases hOk
  rename_i hSize
  rw [if_neg hSize] at hOk
  split
  · rename_i hKind
    rw [if_pos hKind] at hOk
    cases hOk
  rename_i hKind
  rw [if_neg hKind] at hOk
  split
  · rename_i hRoom
    rw [if_pos hRoom] at hOk
    cases hOk
  rename_i hRoom
  rw [if_neg hRoom] at hOk
  have hLoop : (writeImageFrom data size.toNat (imageSectors size).toNat 0 sector d).2 = 0 →
      (writeImageFrom data size.toNat (imageSectors size).toNat 0 sector d).1 =
        d.filled data size.toNat (imageSectors size).toNat 0 sector := writeImageFrom_spec (by omega)
  split at hOk
  · rename_i d₁ hWritten
    rw [hWritten] at hLoop
    have hFilled := hLoop rfl
    dsimp only at hFilled
    split at hOk
    · rename_i d₂ hFixed
      obtain ⟨new, hSectors, hNew⟩ := storageFixupBiosBootDisk_spec (d := d₁) (by rw [hFixed])
      rw [hFixed] at hSectors
      dsimp only at hSectors ⊢
      have hPos : 0 < sectorsOf size.toNat := by
        have hNonzero : size.toNat ≠ 0 := fun h => hSize (UInt64.toNat_inj.mp h)
        have hSector : storageSectorSize = 512 := rfl
        rw [sectorsOf, hSector]
        omega
      have hAt : ∀ lba, d₁.sectors lba =
          if lba < sectorsOf size.toNat then imageSector data size.toNat sector lba else d.sectors lba := by
        intro lba
        rw [hFilled, Disk.filled, hCount]
        exact if_congr (by omega) rfl rfl
      refine ⟨?_, ?_, ?_⟩
      · intro lba hFrom hTo x hx
        rw [hSectors, Function.update_of_ne (by omega), hAt, if_pos hTo, imageSector, if_pos hx]
      · intro lba hFrom
        rw [hSectors, Function.update_of_ne (by omega), hAt, if_neg (by omega)]
      · rw [hSectors, Function.update_self]
        rw [hAt, if_pos hPos, hFilled] at hNew
        exact hNew
    · cases hOk
  · cases hOk

theorem storageWriteDiskImageFile_eq {vfs : FileApi File} {path : String} {At : File → Nat → Prop}
    {buffer : Mem} (hCover : size.toNat ≤ 2 ^ 32 * storageSectorSize) (hServes : Serves vfs path data size.toNat At)
    (hArray : ∀ x ≥ storageSectorSize, buffer x = sector x) :
    storageWriteDiskImageFile vfs d path buffer = storageWriteDiskImage d data size sector := by
  obtain ⟨file, hOpen, hEnd, hStart, hAt⟩ := hServes.opens
  obtain ⟨hCount, -⟩ := imageSectors_toNat hCover
  have hWord : UInt64.ofNat ((size.toNat : Int).toNat) = size := by rw [Int.toNat_natCast, UInt64.ofNat_toNat]
  rw [storageWriteDiskImageFile, if_neg hServes.path_ne, storageWriteDiskImage, hOpen]
  dsimp only
  rw [hEnd, hWord, if_neg (Int.not_lt.mpr hStart)]
  by_cases hKind : d.kind = .cdrom
  · rw [if_pos hKind, if_pos hKind, ite_self]
  rw [if_neg hKind, if_neg hKind]
  by_cases hSize : size = 0
  · subst hSize
    rw [if_pos rfl]
    exact if_pos (by decide)
  have hPos : ¬ (size.toNat : Int) ≤ 0 := by
    have hNonzero : size.toNat ≠ 0 := fun h => hSize (UInt64.toNat_inj.mp h)
    omega
  rw [if_neg hPos, if_neg hSize]
  refine if_congr Iff.rfl rfl ?_
  have hLoop : writeFileFrom vfs (imageSectors size).toNat 0
      (vfs.vfsLseek (vfs.vfsLseek file 0 .end_).1 0 .set).1 buffer d =
        writeImageFrom data size.toNat (imageSectors size).toNat 0 sector d := by
    apply writeFileFrom_eq hServes
    · rw [hCount, Nat.zero_add]
    · intro _
      rwa [Nat.zero_mul]
    · exact hArray
  rw [hLoop]

/-- A disk image that was written is on the disk, with a fixed first sector, and a file of the same bytes leads to
the same disk. -/
theorem disk_image_written (d : Disk) (data : Mem) (size : UInt64) (sector : Mem)
    (hCover : size.toNat ≤ 2 ^ 32 * storageSectorSize) :
    ((storageWriteDiskImage d data size sector).2 = 0 →
      ImageWritten d (storageWriteDiskImage d data size sector).1 data size.toNat sector) ∧
    ∀ (File : Type) (vfs : FileApi File) (path : String) (At : File → Nat → Prop) (buffer : Mem),
      Serves vfs path data size.toNat At → (∀ x ≥ storageSectorSize, buffer x = sector x) →
      storageWriteDiskImageFile vfs d path buffer = storageWriteDiskImage d data size sector :=
  ⟨storageWriteDiskImage_spec hCover, fun _ _ _ _ _ => storageWriteDiskImageFile_eq hCover⟩

def oneFile (path : String) (data : Mem) (size : Nat) : FileApi Nat where
  vfsOpen p := if p = path then some 0 else none
  vfsLseek _ offset whence :=
    match whence with
    | .set => (offset.toNat, offset)
    | .end_ => (size, size)
  vfsRead pos buffer n :=
    (pos + min n (size - pos), fill buffer 0 (min n (size - pos)) fun i => data (pos + i),
      ((min n (size - pos) : Nat) : Int))

theorem oneFile_serves {path : String} (hPath : path ≠ "") (data : Mem) (size : Nat) :
    Serves (oneFile path data size) path data size (fun file pos => file = pos) where
  path_ne := hPath
  opens := ⟨0, if_pos rfl, rfl, Int.le_refl 0, rfl⟩
  reads := by
    rintro file pos buffer rfl _
    exact ⟨_, rfl, rfl⟩

def bootImage : Mem := fun i =>
  if i = 450 then 0x83 else if i = 454 ∨ i = 458 then 1 else if i = 510 then 0x55 else if i = 511 then 0xAA else 0

theorem disk_image_written_boot_image :
    ImageWritten (blankDisk 1) (storageWriteDiskImage (blankDisk 1) bootImage 600 fun _ => 0).1 bootImage 600
      (fun _ => 0) ∧
    storageWriteDiskImageFile (oneFile "disk.img" bootImage 600) (blankDisk 1) "disk.img" (fun _ => 0) =
      storageWriteDiskImage (blankDisk 1) bootImage 600 fun _ => 0 := by
  have hBoth := disk_image_written (blankDisk 1) bootImage 600 (fun _ => 0) (by decide)
  refine ⟨hBoth.1 (by decide), ?_⟩
  exact hBoth.2 Nat (oneFile "disk.img" bootImage 600) "disk.img" _ _ (oneFile_serves (by decide) _ _) fun _ _ => rfl

def flagsImage : Mem := fun i => if i = 446 ∨ i = 462 then 0x80 else 0

def overlongImage : Mem := fun i =>
  if i = 450 then 0x83 else if i = 454 then 1 else if 458 ≤ i ∧ i < 462 then 0xFF
  else if i = 510 then 0x55 else if i = 511 then 0xAA else 0

theorem image_flaws_are_kept :
    ((storageWriteDiskImage (blankDisk 1) flagsImage 512 fun _ => 0).2 = 0 ∧
      (storageWriteDiskImage (blankDisk 1) flagsImage 512 fun _ => 0).1.sectors 0 (entryOffset 0) = 0x80 ∧
      (storageWriteDiskImage (blankDisk 1) flagsImage 512 fun _ => 0).1.sectors 0 (entryOffset 1) = 0x80) ∧
    ((storageWriteDiskImage (blankDisk 1) overlongImage 512 fun _ => 0).2 = 0 ∧
      diskSectors (blankDisk 1) < (storageReadLe32 ((storageWriteDiskImage (blankDisk 1) overlongImage 512
        fun _ => 0).1.sectors 0) (entryOffset 0 + 12)).toUInt64) := by
  refine ⟨⟨?_, ?_, ?_⟩, ?_, ?_⟩
  · decide
  · decide
  · decide
  · decide
  · decide

end Image

end UnixOS.Storage
