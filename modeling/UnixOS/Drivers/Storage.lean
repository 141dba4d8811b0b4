import UnixOS.Lib.Memory

/-! # Partition tables of the storage driver

A translation of the partition half of `kernel/drivers/storage.c`. The row of
`storage_partitions` that belongs to a disk is kept with the disk, in slot order, and an operation
takes the disk that its index names. A backend is its
sectors together with the outcome of each transfer to come, so that every failure pattern is a value
of the model; a failed write leaves the sector as it was.
-/

namespace UnixOS.Storage

open ByteMemory

def storageMaxPartitions : Nat := 8
def storageMbrPartitionOffset : Nat := 446
def storageMbrSignatureOffset : Nat := 510

inductive StorageKind where
  | unknown | ide | ahci | sata | raid | nvme | cdrom | usbMassStorage | appleAns
deriving DecidableEq, Repr

inductive PartitionKind where
  | unknown | efi | system | data | swap
deriving DecidableEq, Repr

structure Partition where
  present : Bool
  kind : PartitionKind
  sizeMib : UInt32
  startLba : UInt32
  sectorCount : UInt32
  label : String
deriving DecidableEq, Repr

def emptyPartition : Partition := ⟨false, .unknown, 0, 0, 0, ""⟩

structure Disk where
  kind : StorageKind
  capacityMib : UInt32
  parts : List Partition
  sectors : Nat → Mem
  readFails : Nat → Bool
  writeFails : Nat → Bool
  reads : Nat
  writes : Nat

def storageDiskReadSector (d : Disk) (lba : Nat) : Option Mem × Disk :=
  -- optical media deliver 2048-byte blocks and are never read here
  if d.kind = .cdrom then (none, d)
  else if d.readFails d.reads then (none, { d with reads := d.reads + 1 })
  else (some (d.sectors lba), { d with reads := d.reads + 1 })

def storageDiskWriteSector (d : Disk) (lba : Nat) (buffer : Mem) : Disk × Int :=
  if d.writeFails d.writes then ({ d with writes := d.writes + 1 }, -1)
  else ({ d with writes := d.writes + 1, sectors := Function.update d.sectors lba buffer }, 0)

def storagePartitionUsedMib (parts : List Partition) : UInt32 :=
  parts.foldl (fun total p => if p.present then total + p.sizeMib else total) 0

def storageFindFreePartitionSlot (parts : List Partition) : Option Nat :=
  parts.findIdx? fun p => !p.present

def storageDefaultPartitionLabel (kind : PartitionKind) (index : Int) : String :=
  let name := match kind with
    | .efi => "EFI"
    | .system => "Update"
    | .data => "Data"
    | .swap => "Swap"
    | .unknown => "Partition"
  if 0 < index then name ++ " " ++ toString (index + 1) else name

def storageMibToSectors (sizeMib : UInt32) : UInt32 := sizeMib * 2048

def storagePartitionMbrType : PartitionKind → UInt8
  | .efi => 0xEF
  | .system => 0x83
  | .data => 0x83
  | .swap => 0x82
  | .unknown => 0x83

def storageWriteLe32 (s : Mem) (dst : Nat) (value : UInt32) : Mem := store s dst 4 value.toNat

def storageReadLe32 (s : Mem) (src : Nat) : UInt32 := UInt32.ofNat (load s 4 src)

/-- The slot loop of `storage_recompute_partition_layout`, with its running `next_lba`. -/
def layoutFrom : UInt32 → List Partition → List Partition
  | _, [] => []
  | nextLba, p :: ps =>
    if p.present then
      let sectorCount := storageMibToSectors p.sizeMib
      { p with startLba := nextLba, sectorCount } :: layoutFrom (nextLba + sectorCount) ps
    else { p with startLba := 0, sectorCount := 0 } :: layoutFrom nextLba ps

def storageRecomputePartitionLayout (parts : List Partition) : List Partition := layoutFrom 2048 parts

def presentCount (parts : List Partition) : Nat := parts.countP Partition.present

def entryOfKind (kind : PartitionKind) (parts : List Partition) : Option Nat :=
  (parts.filter Partition.present).findIdx? fun p => p.kind = kind

def activeSlot (parts : List Partition) : Option Nat :=
  (entryOfKind .system parts).or (entryOfKind .efi parts)

def entryOffset (entry : Nat) : Nat := storageMbrPartitionOffset + entry * 16

def writeEntry (active : Option Nat) (entry : Nat) (p : Partition) (s : Mem) : Mem :=
  let e := entryOffset entry
  let s := store s e 1 (if active = some entry then 0x80 else 0x00)
  let s := store s (e + 1) 1 0xFE
  let s := store s (e + 2) 1 0xFF
  let s := store s (e + 3) 1 0xFF
  let s := store s (e + 4) 1 (storagePartitionMbrType p.kind).toNat
  let s := store s (e + 5) 1 0xFE
  let s := store s (e + 6) 1 0xFF
  let s := store s (e + 7) 1 0xFF
  let s := storageWriteLe32 s (e + 8) p.startLba
  storageWriteLe32 s (e + 12) p.sectorCount

def writeEntries (active : Option Nat) : Nat → List Partition → Mem → Mem
  | _, [], s => s
  | entry, p :: ps, s =>
    if p.present then writeEntries active (entry + 1) ps (writeEntry active entry p s)
    else writeEntries active entry ps s

def mbrSector (parts : List Partition) (s : Mem) : Mem :=
  let s := fill s storageMbrPartitionOffset 64 (fun _ => 0)
  let s := writeEntries (activeSlot parts) 0 parts s
  let s := store s storageMbrSignatureOffset 1 0x55
  store s (storageMbrSignatureOffset + 1) 1 0xAA

def storageCommitMbrPartitions (d : Disk) : Disk × Int :=
  if 4 < presentCount d.parts then (d, -1)
  else
    let d := { d with parts := storageRecomputePartitionLayout d.parts }
    let (sector, d) := storageDiskReadSector d 0
    storageDiskWriteSector d 0 (mbrSector d.parts (sector.getD fun _ => 0))

def kindOfMbrType (type : UInt8) (partSlot : Nat) (startLba : UInt32) : PartitionKind :=
  if type = 0xEF then .efi
  else if type = 0x0B ∨ type = 0x0C ∨ type = 0x0E then .system
  else if type = 0x82 then .swap
  else if type = 0x83 then (if partSlot = 0 ∧ startLba ≤ 4096 then .system else .data)
  else .data

/-- The entry loop of `storage_load_mbr_partitions`: `n` entries from `entry` on. -/
def loadEntries (s : Mem) : Nat → Nat → Nat → List Partition
  | 0, _, _ => []
  | n + 1, entry, partSlot =>
    let e := entryOffset entry
    let type := s (e + 4)
    let startLba := storageReadLe32 s (e + 8)
    let sectorCount := storageReadLe32 s (e + 12)
    if type = 0 ∨ sectorCount = 0 then loadEntries s n (entry + 1) partSlot
    else
      let kind := kindOfMbrType type partSlot startLba
      let sizeMib := if sectorCount / 2048 = 0 then 1 else sectorCount / 2048
      ⟨true, kind, sizeMib, startLba, sectorCount, storageDefaultPartitionLabel kind partSlot⟩ ::
        loadEntries s n (entry + 1) (partSlot + 1)

def tableOf (loaded : List Partition) : List Partition :=
  loaded ++ List.replicate (storageMaxPartitions - loaded.length) emptyPartition

def storageLoadMbrPartitions (d : Disk) : Disk :=
  match storageDiskReadSector d 0 with
  | (none, d) => d
  | (some s, d) =>
    if s storageMbrSignatureOffset ≠ 0x55 ∨ s (storageMbrSignatureOffset + 1) ≠ 0xAA then d
    else { d with parts := tableOf (loadEntries s 4 0 0) }

def commitOrRestore (d : Disk) (parts : List Partition) : Disk × Int :=
  match storageCommitMbrPartitions { d with parts } with
  | (d', 0) => (d', 0)
  | (d', _) => ({ d' with parts := d.parts }, -1)

def storageCreatePartition (d : Disk) (kind : PartitionKind) (sizeMib : UInt32) : Disk × Int :=
  if sizeMib = 0 then (d, -1)
  else if d.capacityMib < storagePartitionUsedMib d.parts + sizeMib then (d, -1)
  else
    match storageFindFreePartitionSlot d.parts with
    | none => (d, -1)
    | some slot =>
      let ordinal := d.parts.countP fun p => p.present && p.kind = kind
      let label := storageDefaultPartitionLabel kind ordinal
      commitOrRestore d (d.parts.modify slot fun p => { p with present := true, kind, sizeMib, label })

def visibleSlot : List Partition → Int → Option Nat
  | [], _ => none
  | p :: ps, index =>
    if p.present then
      if index = 0 then some 0 else (visibleSlot ps (index - 1)).map (· + 1)
    else (visibleSlot ps index).map (· + 1)

def storageUpdatePartition (d : Disk) (partitionIndex : Int) (kind : PartitionKind)
    (sizeMib : UInt32) : Disk × Int :=
  if sizeMib = 0 then (d, -1)
  else
    match visibleSlot d.parts partitionIndex with
    | none => (d, -1)
    | some slot =>
      let usedWithoutPart := storagePartitionUsedMib d.parts - (d.parts.getD slot emptyPartition).sizeMib
      if d.capacityMib < usedWithoutPart + sizeMib then (d, -1)
      else
        let label := storageDefaultPartitionLabel kind partitionIndex
        commitOrRestore d (d.parts.modify slot fun p => { p with kind, sizeMib, label })

def storageDeletePartition (d : Disk) (partitionIndex : Int) : Disk × Int :=
  match visibleSlot d.parts partitionIndex with
  | none => (d, -1)
  | some slot => commitOrRestore d (d.parts.set slot emptyPartition)

def hasKind (kind : PartitionKind) (parts : List Partition) : Bool :=
  parts.any fun p => p.present && p.kind = kind

def ensurePart (wanted : Bool) (kind : PartitionKind) (sizeMib : UInt32) (r : Disk × Int) : Disk × Int :=
  if wanted then
    match storageCreatePartition r.1 kind sizeMib with
    | (d, 0) => (d, r.2 + 1)
    | (d, _) => (d, r.2)
  else r

def atMost65536 (sizeMib : UInt32) : UInt32 := if 65536 < sizeMib then 65536 else sizeMib

def installSystemSize (capacityMib : UInt32) : UInt32 :=
  atMost65536 (if capacityMib / 2 < 8192 then 8192 else capacityMib / 2)

def freeMib (d : Disk) : UInt32 :=
  if storagePartitionUsedMib d.parts < d.capacityMib then
    d.capacityMib - storagePartitionUsedMib d.parts
  else 0

def storageEnsureInstallPartitions (d : Disk) : Disk × Int :=
  let hasSystem := hasKind .system d.parts
  let hasData := hasKind .data d.parts
  let r := ensurePart (!hasKind .efi d.parts) .efi 256 (d, 0)
  let r := ensurePart (!hasSystem) .system (installSystemSize r.1.capacityMib) r
  let free := freeMib r.1
  ensurePart (!hasData && decide (4096 ≤ free)) .data (atMost65536 free) r

inductive Edit where
  | create (kind : PartitionKind) (sizeMib : UInt32)
  | update (partitionIndex : Int) (kind : PartitionKind) (sizeMib : UInt32)
  | delete (partitionIndex : Int)
deriving DecidableEq, Repr

/-- The slot an edit is about: the free one it will take, or the visible one it names. -/
def Edit.slot : Edit → List Partition → Option Nat
  | .create _ _, parts => storageFindFreePartitionSlot parts
  | .update partitionIndex _ _, parts => visibleSlot parts partitionIndex
  | .delete partitionIndex, parts => visibleSlot parts partitionIndex

def Edit.apply : Edit → Disk → Disk × Int
  | .create kind sizeMib, d => storageCreatePartition d kind sizeMib
  | .update partitionIndex kind sizeMib, d => storageUpdatePartition d partitionIndex kind sizeMib
  | .delete partitionIndex, d => storageDeletePartition d partitionIndex

end UnixOS.Storage
