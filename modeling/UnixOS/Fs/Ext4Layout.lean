import UnixOS.Fs.Ext4Spec
import UnixOS.Lib.Ownership

/-! # Places that refer to disk blocks

Bitmaps and inode tables lie where the group descriptors say. A file refers to blocks from the
slots of its inode and, through up to three levels of indirect blocks, from the entries of these.
A volume is consistent when no block is referred to from two places and every block referred to is
marked in the block bitmap.
-/

namespace UnixOS.Fs.Ext4

open ByteMemory ByteBitmap Ownership

/-- What the superblock and the descriptors say about where things are; the free counts are not
part of it. -/
structure Geometry where
  firstDataBlock : Nat
  blockSize : Nat
  blocksPerGroup : Nat
  inodesPerGroup : Nat
  inodeSize : Nat
  groupCount : Nat
  blockBitmap : Nat → Nat
  inodeBitmap : Nat → Nat
  inodeTable : Nat → Nat

def Ext4Fs.geometry (fs : Ext4Fs) : Geometry :=
  { firstDataBlock := fs.firstDataBlock, blockSize := fs.blockSize
    blocksPerGroup := fs.blocksPerGroup, inodesPerGroup := fs.inodesPerGroup
    inodeSize := fs.inodeSize, groupCount := fs.groupCount
    blockBitmap := ext4GetBlockBitmap fs, inodeBitmap := ext4GetInodeBitmap fs
    inodeTable := fs.inodeTable }

namespace Geometry

variable (geo : Geometry)

def ptrsPerBlock : Nat := geo.blockSize / 4

def inodeGroup (ino : Nat) : Nat := (ino - 1) / geo.inodesPerGroup

def inodeByte (ino : Nat) : Nat := (ino - 1) % geo.inodesPerGroup * geo.inodeSize % 2 ^ 32

def inodeBlock (ino : Nat) : Nat :=
  geo.inodeTable (geo.inodeGroup ino) + geo.inodeByte ino / geo.blockSize

def inodeOffset (ino : Nat) : Nat := geo.inodeByte ino % geo.blockSize

def HasInode (ino : Nat) : Prop := ino ≠ 0 ∧ geo.inodeGroup ino < geo.groupCount

def tableBlocks : Nat :=
  (geo.inodesPerGroup * geo.inodeSize + geo.blockSize - 1) / geo.blockSize

end Geometry

/-- The sizes of a volume the driver can address: bitmaps of one block, inodes that do not cross a
block boundary, and block numbers of 32 bits. -/
structure Geometry.Sound (geo : Geometry) : Prop where
  blockSize_ge : 1024 ≤ geo.blockSize
  blockSize_le : geo.blockSize ≤ 65536
  group_pos : 0 < geo.blocksPerGroup
  group_le : geo.blocksPerGroup ≤ 8 * geo.blockSize
  inodes_pos : 0 < geo.inodesPerGroup
  inode_ge : inodeBytes ≤ geo.inodeSize
  inode_dvd : geo.inodeSize ∣ geo.blockSize
  table_le : geo.inodesPerGroup * geo.inodeSize ≤ 2 ^ 32
  blocks_le : geo.firstDataBlock + geo.groupCount * geo.blocksPerGroup ≤ 2 ^ 32

inductive Place where
  | blockBitmap (group : Nat)
  | inodeBitmap (group : Nat)
  | inodeTable (group index : Nat)
  | file (ino slot : Nat) (path : List Nat)
deriving DecidableEq

def slotDepth (k : Nat) : Nat := k + 1 - ndirBlocks

structure Geometry.HasSlot (geo : Geometry) (ino k : Nat) (path : List Nat) : Prop where
  inode : geo.HasInode ino
  slot : k < 15
  depth : path.length ≤ slotDepth k
  entries : ∀ j ∈ path, j < geo.ptrsPerBlock

def Geometry.inodeSlots (geo : Geometry) (disk : Nat → Mem) (ino k : Nat) : Nat :=
  load (disk (geo.inodeBlock ino)) 4 (geo.inodeOffset ino + (40 + 4 * k))

/-- Place by place, the block referred to; the inodes' slots are given by `slots`. -/
def Geometry.Refers (geo : Geometry) (disk : Nat → Mem) (slots : Nat → Nat → Nat) :
    Place → Nat → Prop
  | .blockBitmap g, b => g < geo.groupCount ∧ geo.blockBitmap g = b
  | .inodeBitmap g, b => g < geo.groupCount ∧ geo.inodeBitmap g = b
  | .inodeTable g t, b => g < geo.groupCount ∧ t < geo.tableBlocks ∧ geo.inodeTable g + t = b
  | .file ino k path, b => geo.HasSlot ino k path ∧ follow disk (slots ino k) path = b ∧ b ≠ 0

structure Geometry.Used (geo : Geometry) (disk : Nat → Mem) (b : Nat) : Prop where
  first : geo.firstDataBlock ≤ b
  group : (b - geo.firstDataBlock) / geo.blocksPerGroup < geo.groupCount
  bit : BitIsSet (disk (geo.blockBitmap ((b - geo.firstDataBlock) / geo.blocksPerGroup)))
    ((b - geo.firstDataBlock) % geo.blocksPerGroup)

structure Geometry.World (geo : Geometry) (disk : Nat → Mem) (slots : Nat → Nat → Nat) :
    Prop where
  sound : geo.Sound
  own : Exclusive (geo.Refers disk slots) (geo.Used disk)
  boot : geo.firstDataBlock = 0 → geo.Used disk 0

/-! ### Changing one block -/

section Frame

variable {geo : Geometry} {disk : Nat → Mem} {slots : Nat → Nat → Nat} {b : Nat} {buf : Mem}

theorem follow_zero (disk : Nat → Mem) (path : List Nat) : follow disk 0 path = 0 := by
  cases path <;> rfl

theorem follow_update {x : Nat} {path : List Nat}
    (h : ∀ p j q, path = p ++ j :: q → follow disk x p = b → b = 0) :
    follow (Function.update disk b buf) x path = follow disk x path := by
  induction path generalizing x with
  | nil => rfl
  | cons j rest ih =>
    unfold follow
    split
    case isTrue hZero => rfl
    case isFalse hSome =>
      have hOther : x ≠ b := by
        rintro rfl
        exact hSome (h [] j rest rfl rfl)
      have hPtr : pointer (Function.update disk b buf) x j = pointer disk x j := by
        rw [pointer, Function.update_of_ne hOther, pointer]
      rw [hPtr]
      apply ih
      intro p i q hRest hb
      refine h (j :: p) i q (by rw [hRest]; rfl) ?_
      rw [follow, if_neg hSome]
      exact hb

/-- No file reads pointers from block `b`. -/
def Geometry.Inert (geo : Geometry) (disk : Nat → Mem) (slots : Nat → Nat → Nat) (b : Nat) :
    Prop :=
  ∀ ino k path j, geo.HasSlot ino k (path ++ [j]) → follow disk (slots ino k) path = b → b = 0

theorem Geometry.HasSlot.init {ino k j : Nat} {p q : List Nat}
    (h : geo.HasSlot ino k (p ++ j :: q)) : geo.HasSlot ino k (p ++ [j]) := by
  refine ⟨h.inode, h.slot, ?_, ?_⟩
  · have hDepth := h.depth
    simp only [List.length_append, List.length_cons, List.length_nil] at hDepth ⊢
    omega
  · intro i hi
    apply h.entries i
    simp only [List.mem_append, List.mem_cons, List.not_mem_nil, or_false] at hi ⊢
    tauto

theorem Geometry.Inert.follow {ino k : Nat} {path : List Nat} (h : geo.Inert disk slots b)
    (hSlot : geo.HasSlot ino k path) :
    Ext4.follow (Function.update disk b buf) (slots ino k) path =
      Ext4.follow disk (slots ino k) path := by
  apply follow_update
  rintro p j q rfl hb
  exact h ino k p j hSlot.init hb

theorem Geometry.Inert.refers (h : geo.Inert disk slots b) (p : Place) (c : Nat) :
    geo.Refers (Function.update disk b buf) slots p c ↔ geo.Refers disk slots p c := by
  cases p with
  | blockBitmap g => exact Iff.rfl
  | inodeBitmap g => exact Iff.rfl
  | inodeTable g t => exact Iff.rfl
  | file ino k path =>
    refine and_congr_right fun hSlot => ?_
    rw [h.follow hSlot]

theorem used_update (h : ∀ g < geo.groupCount, geo.blockBitmap g ≠ b) (c : Nat) :
    geo.Used (Function.update disk b buf) c ↔ geo.Used disk c := by
  constructor
  · rintro ⟨hFirst, hGroup, hBit⟩
    rw [Function.update_of_ne (h _ hGroup)] at hBit
    exact ⟨hFirst, hGroup, hBit⟩
  · rintro ⟨hFirst, hGroup, hBit⟩
    refine ⟨hFirst, hGroup, ?_⟩
    rw [Function.update_of_ne (h _ hGroup)]
    exact hBit

theorem Geometry.Refers.congr {slots' : Nat → Nat → Nat}
    (h : ∀ ino k, geo.HasInode ino → k < 15 → slots' ino k = slots ino k) (p : Place) (c : Nat) :
    geo.Refers disk slots' p c ↔ geo.Refers disk slots p c := by
  cases p with
  | blockBitmap g => exact Iff.rfl
  | inodeBitmap g => exact Iff.rfl
  | inodeTable g t => exact Iff.rfl
  | file ino k path =>
    refine and_congr_right fun hSlot => ?_
    rw [h ino k hSlot.inode hSlot.slot]

theorem Geometry.World.congr {slots' : Nat → Nat → Nat} (hWorld : geo.World disk slots)
    (h : ∀ ino k, geo.HasInode ino → k < 15 → slots' ino k = slots ino k) :
    geo.World disk slots' :=
  ⟨hWorld.sound, hWorld.own.mono (fun p c => (Refers.congr h p c).mp) fun _ => id, hWorld.boot⟩

end Frame

end UnixOS.Fs.Ext4
