import UnixOS.Fs.Ext4CountRuns

/-! # Mounting and unmounting

`ext4_mount` reads the superblock from block 1 and the group descriptors from the blocks behind it.
`ext4_unmount` writes the superblock back, to block 1 or into block 0, and the descriptors nowhere.
What a mount finds after an unmount is therefore what was in memory only if the free counts are again
as they were when the volume was mounted.
-/

namespace UnixOS.Fs.Ext4

open ByteMemory ByteBitmap Fallible

def ext4SuperMagic : Nat := 0xEF53
def superblockBytes : Nat := 384
def groupDescBytes : Nat := 64

/-! ### Reading the metadata -/

def has64Bit (sb : Mem) : Prop := load sb 4 96 &&& 0x80 ≠ 0

instance (sb : Mem) : Decidable (has64Bit sb) := inferInstanceAs (Decidable (_ ≠ _))

def totalBlocks (sb : Mem) : Nat :=
  if has64Bit sb then load sb 4 4 ||| (load sb 4 336 <<< 32) else load sb 4 4

/-- The parameters that `ext4_mount` computes from the superblock; the descriptors come later. -/
def mountParams (sb : Mem) : Ext4Fs :=
  { sb := sb
    blockSize := 1024 * 2 ^ load sb 4 24 % 2 ^ 32
    blocksPerGroup := load sb 4 32
    inodesPerGroup := load sb 4 40
    inodeSize := if load sb 4 76 ≥ 1 then load sb 2 88 else 128
    groupCount := (totalBlocks sb + load sb 4 32 - 1) % 2 ^ 64 / load sb 4 32 % 2 ^ 32
    descSize := if has64Bit sb then load sb 2 254 else 32
    groupDescs := zeroBlock }

namespace Ext4Fs

variable (fs : Ext4Fs)

def gdBlock : Nat := if fs.blockSize = 1024 then 2 else 1

def gdPerBlock : Nat := fs.blockSize / fs.descSize

def gdBlocksNeeded : Nat := (fs.groupCount + fs.gdPerBlock - 1) % 2 ^ 32 / fs.gdPerBlock

def gdInBlock (b : Nat) : Nat :=
  if b = fs.gdBlocksNeeded - 1 then fs.groupCount - b * fs.gdPerBlock else fs.gdPerBlock

def gdBytes : Nat := min fs.descSize groupDescBytes

def copyDescs (buf : Mem) (b : Nat) (descs : Mem) : Mem :=
  (List.range (fs.gdInBlock b)).foldl (fun descs g =>
    fill descs (groupDescBytes * (b * fs.gdPerBlock + g)) fs.gdBytes fun i =>
      buf (g * fs.descSize + i)) descs

end Ext4Fs

def readGroupDescs (fs : Ext4Fs) : List Nat → Mem → Ext4M Mem
  | [], descs => pure descs
  | b :: rest, descs => do
    let buf ← ext4ReadBlock (fs.gdBlock + b)
    readGroupDescs fs rest (fs.copyDescs buf b descs)

/-- The part of `ext4_mount` behind the superblock; `heap` is what the memory for the descriptors holds
before. Where the source divides by zero there is no mounted file system either. -/
def mountGroups (heap : Mem) (fs : Ext4Fs) : Ext4M Ext4Fs :=
  if load fs.sb 2 56 ≠ ext4SuperMagic ∨ fs.blocksPerGroup = 0 ∨ fs.gdPerBlock = 0 then Run.fail
  else do
    kmalloc
    kmalloc
    let descs ← readGroupDescs fs (List.range fs.gdBlocksNeeded) heap
    pure { fs with groupDescs := descs }

def ext4Mount (heap : Mem) : Ext4M Ext4Fs := do
  kmalloc
  let sbBuf ← ext4ReadBlock 1
  mountGroups heap (mountParams (fill zeroBlock 0 superblockBytes sbBuf))

def ext4SyncSuperblock : Ext4M Unit := do
  let st ← Run.get
  kmalloc
  let sbBlock := if st.fs.blockSize = 1024 then 1 else 0
  let buf ← ext4ReadBlock sbBlock
  let sbOffset := if st.fs.blockSize = 1024 then 0 else 1024
  ext4WriteBlockRaw sbBlock (fill buf sbOffset superblockBytes st.fs.sb)

/-- Whether the superblock could be written is not looked at. -/
def ext4Unmount : Ext4M Unit := do
  let _ ← ext4SyncSuperblock.attempt
  pure ()

/-! ### What is read back -/

/-- The device after `ext4_unmount`; `mem` says whether there is memory for its buffer. -/
def Image.unmounted (im : Image) (mem : Bool) : Nat → Mem := (ext4Unmount (im.volume mem)).2.disk

def mountOn (heap : Mem) (disk : Nat → Mem) : Option Ext4Fs :=
  (ext4Mount heap ⟨mountParams zeroBlock, disk, fun _ => true, fun _ => true, fun _ => true⟩).1

structure SameMetadata (fs fs' : Ext4Fs) : Prop where
  superblock : ∀ i < superblockBytes, fs'.sb i = fs.sb i
  groupCount : fs'.groupCount = fs.groupCount
  descSize : fs'.descSize = fs.descSize
  descriptors : ∀ g < fs.groupCount, ∀ i < fs.gdBytes,
    fs'.groupDescs (groupDescBytes * g + i) = fs.groupDescs (groupDescBytes * g + i)

/-- After an unmount, a mount reads back what was in memory. -/
def Image.Lossless (im : Image) (mem : Bool) (heap : Mem) : Prop :=
  ∃ fs', mountOn heap (im.unmounted mem) = some fs' ∧ SameMetadata im.fs fs'

/-- The file system in memory is what `ext4_mount` reads from the device. -/
def Image.Mounted (im : Image) : Prop := ∃ heap, mountOn heap im.disk = some im.fs

def Ext4Fs.MetadataBlock (fs : Ext4Fs) (b : Nat) : Prop :=
  b = 1 ∨ fs.gdBlock ≤ b ∧ b < fs.gdBlock + fs.gdBlocksNeeded

/-- The sizes of a valid volume: descriptors hold at least the fields of 32 bits, and the number of
their blocks is not cut off. -/
structure Ext4Fs.Valid (fs : Ext4Fs) : Prop where
  descSize_ge : 32 ≤ fs.descSize
  groups_le : fs.groupCount + fs.gdPerBlock ≤ 2 ^ 32

def SameGroupCounts (fs fs' : Ext4Fs) (g : Nat) : Prop :=
  blockAccount.groupLo fs' g = blockAccount.groupLo fs g ∧
    inodeAccount.groupLo fs' g = inodeAccount.groupLo fs g

def SameSuperCounts (fs fs' : Ext4Fs) : Prop :=
  blockAccount.superLo fs' = blockAccount.superLo fs ∧
    inodeAccount.superLo fs' = inodeAccount.superLo fs

/-! ### Descriptors -/

section Descriptors

variable (fs : Ext4Fs)

theorem Ext4Fs.copyDescs_apply (buf : Mem) (b : Nat) (descs : Mem) (g : Nat) {i : Nat}
    (hi : i < fs.gdBytes) :
    fs.copyDescs buf b descs (groupDescBytes * g + i) =
      if b * fs.gdPerBlock ≤ g ∧ g < b * fs.gdPerBlock + fs.gdInBlock b then
        buf ((g - b * fs.gdPerBlock) * fs.descSize + i)
      else descs (groupDescBytes * g + i) := by
  have hBytes : fs.gdBytes ≤ 64 := Nat.min_le_right _ _
  unfold Ext4Fs.copyDescs
  induction fs.gdInBlock b with
  | zero => rw [if_neg (by omega), List.range_zero, List.foldl_nil]
  | succ n ih =>
    rw [List.range_succ, List.foldl_append, List.foldl_cons, List.foldl_nil]
    by_cases hHere : g = b * fs.gdPerBlock + n
    · subst hHere
      rw [fill_inside hi, if_pos (by omega), Nat.add_sub_cancel_left]
    · have hApart : groupDescBytes * g + i < groupDescBytes * (b * fs.gdPerBlock + n) ∨
          groupDescBytes * (b * fs.gdPerBlock + n) + fs.gdBytes ≤ groupDescBytes * g + i := by
        unfold groupDescBytes
        omega
      rw [fill_outside hApart, ih]
      by_cases hOld : b * fs.gdPerBlock ≤ g ∧ g < b * fs.gdPerBlock + n
      · rw [if_pos hOld, if_pos (by omega)]
      · rw [if_neg hOld, if_neg (by omega)]

def Ext4Fs.placeDescs (disk : Nat → Mem) (blocks : List Nat) (descs : Mem) : Mem :=
  blocks.foldl (fun descs b => fs.copyDescs (disk (fs.gdBlock + b)) b descs) descs

def Ext4Fs.descOn (disk : Nat → Mem) (g i : Nat) : UInt8 :=
  disk (fs.gdBlock + g / fs.gdPerBlock) (g % fs.gdPerBlock * fs.descSize + i)

variable {fs}

theorem Ext4Fs.groupCount_le (hPer : fs.gdPerBlock ≠ 0) (hValid : fs.Valid) :
    fs.groupCount ≤ fs.gdBlocksNeeded * fs.gdPerBlock := by
  have hSum := hValid.groups_le
  have hMod : (fs.groupCount + fs.gdPerBlock - 1) % 2 ^ 32 = fs.groupCount + fs.gdPerBlock - 1 :=
    Nat.mod_eq_of_lt (by omega)
  have hSplit := Nat.div_add_mod (fs.groupCount + fs.gdPerBlock - 1) fs.gdPerBlock
  have hRem := Nat.mod_lt (fs.groupCount + fs.gdPerBlock - 1) (Nat.pos_of_ne_zero hPer)
  rw [Ext4Fs.gdBlocksNeeded, hMod]
  rw [Nat.mul_comm] at hSplit
  omega

theorem Ext4Fs.placeDescs_apply (disk : Nat → Mem)
    (heap : Mem) {g i : Nat} (hg : g < fs.groupCount) (hi : i < fs.gdBytes) (n : Nat)
    (hn : n ≤ fs.gdBlocksNeeded) (hIn : g < n * fs.gdPerBlock) :
    fs.placeDescs disk (List.range n) heap (groupDescBytes * g + i) = fs.descOn disk g i := by
  induction n with
  | zero => omega
  | succ n ih =>
    rw [placeDescs, List.range_succ, List.foldl_append, List.foldl_cons, List.foldl_nil,
      fs.copyDescs_apply _ _ _ _ hi]
    by_cases hBefore : g < n * fs.gdPerBlock
    · rw [if_neg (by omega)]
      exact ih (by omega) hBefore
    · have hCount : g < n * fs.gdPerBlock + fs.gdInBlock n := by
        rw [Nat.succ_mul] at hIn
        unfold Ext4Fs.gdInBlock
        split
        · omega
        · omega
      have hDiv : g / fs.gdPerBlock = n := by
        apply Nat.div_eq_of_lt_le
        · omega
        · exact hIn
      have hMod : g - n * fs.gdPerBlock = g % fs.gdPerBlock := by
        have hSplit := Nat.div_add_mod g fs.gdPerBlock
        rw [hDiv, Nat.mul_comm] at hSplit
        omega
      rw [if_pos ⟨by omega, hCount⟩, hMod, descOn, hDiv]

theorem readGroupDescs_eq (fs : Ext4Fs) (blocks : List Nat) (descs : Mem) {st : Volume}
    (hIo : ∀ n, st.io n = true) :
    (readGroupDescs fs blocks descs st).1 = some (fs.placeDescs st.disk blocks descs) := by
  induction blocks generalizing descs st with
  | nil => rfl
  | cons b rest ih =>
    rw [readGroupDescs, Run.bind_of_some (ext4ReadBlock_eq hIo _)]
    exact ih _ fun n => hIo (n + 1)

end Descriptors

/-- The superblock as `ext4_mount` reads it. -/
def superblockOn (disk : Nat → Mem) : Mem := fill zeroBlock 0 superblockBytes (disk 1)

theorem mountGroups_eq (heap : Mem) (fs : Ext4Fs) {st : Volume} (hMem : ∀ n, st.mem n = true)
    (hIo : ∀ n, st.io n = true) :
    (mountGroups heap fs st).1 =
      if load fs.sb 2 56 ≠ ext4SuperMagic ∨ fs.blocksPerGroup = 0 ∨ fs.gdPerBlock = 0 then none
      else some { fs with
        groupDescs := fs.placeDescs st.disk (List.range fs.gdBlocksNeeded) heap } := by
  unfold mountGroups
  rw [Run.ite_run]
  split
  · rfl
  · have hAsked : st.asked.mem 0 = true := hMem 1
    rw [kmalloc_bind, if_pos (hMem 0), kmalloc_bind, if_pos hAsked]
    have hServes : ∀ n, st.asked.asked.io n = true := hIo
    have hRead := readGroupDescs_eq fs (List.range fs.gdBlocksNeeded) heap hServes
    rcases hRun : readGroupDescs fs (List.range fs.gdBlocksNeeded) heap st.asked.asked with
      ⟨result, st'⟩
    rw [hRun] at hRead
    obtain rfl : result = _ := hRead
    rw [Run.bind_of_some hRun]
    rfl

def Mountable (sb : Mem) : Prop :=
  load sb 2 56 = ext4SuperMagic ∧ (mountParams sb).blocksPerGroup ≠ 0 ∧
    (mountParams sb).gdPerBlock ≠ 0

theorem mountOn_eq_some (heap : Mem) (disk : Nat → Mem) (fs : Ext4Fs) :
    mountOn heap disk = some fs ↔ Mountable (superblockOn disk) ∧
      fs = { mountParams (superblockOn disk) with
        groupDescs := (mountParams (superblockOn disk)).placeDescs disk
          (List.range (mountParams (superblockOn disk)).gdBlocksNeeded) heap } := by
  have hServes : ∀ n : Nat, (fun _ : Nat => true) n = true := fun _ => rfl
  have hMount : mountOn heap disk = (mountGroups heap (mountParams (superblockOn disk))
      ⟨mountParams zeroBlock, disk, fun _ => true, fun _ => true, fun _ => true⟩).1 := by
    unfold mountOn ext4Mount
    rw [kmalloc_bind, if_pos rfl, Run.bind_of_some (ext4ReadBlock_eq hServes 1)]
    rfl
  rw [hMount, mountGroups_eq heap _ hServes hServes]
  split
  · next hRefused =>
    refine iff_of_false nofun ?_
    rintro ⟨⟨hMagic, hBlocks, hPer⟩, _⟩
    rcases hRefused with hNot | hZero | hZero
    · exact hNot hMagic
    · exact hBlocks hZero
    · exact hPer hZero
  · next hAccepted =>
    push Not at hAccepted
    have hMountable : Mountable (superblockOn disk) := hAccepted
    rw [Option.some.injEq]
    exact ⟨fun hEq => ⟨hMountable, hEq.symm⟩, fun hBoth => hBoth.2.symm⟩

/-! ### What a run changes in memory -/

structure OnlyCounts (fs fs' : Ext4Fs) : Prop where
  blockSize : fs'.blockSize = fs.blockSize
  groupCount : fs'.groupCount = fs.groupCount
  descSize : fs'.descSize = fs.descSize
  superblock : ∀ i, i < 12 ∨ 20 ≤ i → fs'.sb i = fs.sb i
  descriptors : ∀ g i, i < groupDescBytes → i < 12 ∨ 16 ≤ i →
    fs'.groupDescs (groupDescBytes * g + i) = fs.groupDescs (groupDescBytes * g + i)

theorem OnlyCounts.refl (fs : Ext4Fs) : OnlyCounts fs fs :=
  ⟨rfl, rfl, rfl, fun _ _ => rfl, fun _ _ _ _ => rfl⟩

theorem OnlyCounts.trans {fs fs' fs'' : Ext4Fs} (h : OnlyCounts fs fs') (h' : OnlyCounts fs' fs'') :
    OnlyCounts fs fs'' where
  blockSize := h'.blockSize.trans h.blockSize
  groupCount := h'.groupCount.trans h.groupCount
  descSize := h'.descSize.trans h.descSize
  superblock := fun i hi => (h'.superblock i hi).trans (h.superblock i hi)
  descriptors := fun g i hLt hi => (h'.descriptors g i hLt hi).trans (h.descriptors g i hLt hi)

theorem onlyCounts_count {b : Bitmap} (hb : b = blockBitmap ∨ b = inodeBitmap) (fs : Ext4Fs)
    (g m n : Nat) : OnlyCounts fs (b.count fs g m n) := by
  have hSuper : b.superCount = 12 ∨ b.superCount = 16 := by
    rcases hb with rfl | rfl
    · exact Or.inl rfl
    · exact Or.inr rfl
  have hGroup : b.groupLo = 12 ∨ b.groupLo = 14 := by
    rcases hb with rfl | rfl
    · exact Or.inl rfl
    · exact Or.inr rfl
  refine ⟨rfl, rfl, rfl, ?_, ?_⟩
  · intro i hi
    simp only [Bitmap.count, store_eq_fill]
    exact fill_outside (by omega)
  · intro g' i hLt hi
    simp only [Bitmap.count, store_eq_fill, groupDescBytes] at hLt ⊢
    exact fill_outside (by omega)

section Runs

variable {im : Image}

theorem onlyCounts_searched {b : Bitmap} (hb : b = blockBitmap ∨ b = inodeBitmap) (fs : Ext4Fs)
    (disk : Nat → Mem) (found : Option (Nat × Nat)) :
    OnlyCounts fs (b.searched fs disk found).1 := by
  cases found with
  | none => exact .refl fs
  | some x => exact onlyCounts_count hb fs ..

theorem Event.onlyCounts (im : Image) (e : Event) : OnlyCounts im.fs (e.next im).fs := by
  have hIo : ∀ mem n, (im.volume mem).io n = true := fun _ _ => rfl
  cases e with
  | allocBlock p mem =>
    obtain ⟨st', hRun, hLeads⟩ := ext4AllocBlock_eq (hIo mem) p
    rw [Event.next, hRun, Volume.image, hLeads.fs]
    exact onlyCounts_searched (Or.inl rfl) ..
  | allocInode p mem =>
    obtain ⟨st', hRun, hLeads⟩ := ext4AllocInode_eq (hIo mem) p
    rw [Event.next, hRun, Volume.image, hLeads.fs]
    exact onlyCounts_searched (Or.inr rfl) ..
  | freeBlock block mem =>
    rw [Event.next, (ext4FreeBlock_image (hIo mem) block).2, freedBlock]
    split
    · exact onlyCounts_count (Or.inl rfl) ..
    · exact .refl _
  | freeInode ino mem =>
    rw [Event.next, (ext4FreeInode_image (hIo mem) ino).2, freedInode]
    split
    · exact onlyCounts_count (Or.inr rfl) ..
    · exact .refl _
  | write block buf => exact .refl _

theorem Image.through_onlyCounts (im : Image) (events : List Event) :
    OnlyCounts im.fs (im.through events).fs := by
  induction events generalizing im with
  | nil => exact .refl _
  | cons e events ih => exact (Event.onlyCounts im e).trans (ih (e.next im))

theorem Image.after_onlyCounts (im : Image) (steps : List Step) :
    OnlyCounts im.fs (im.after steps).fs := by
  obtain ⟨events, hTrace⟩ := im.after_eq_through steps
  rw [hTrace]
  exact im.through_onlyCounts events

end Runs

/-! ### Counts and bytes -/

section Counts

variable {fs fs' : Ext4Fs} (h : OnlyCounts fs fs')
include h

theorem OnlyCounts.superblock_iff :
    (∀ i < superblockBytes, fs'.sb i = fs.sb i) ↔ SameSuperCounts fs fs' := by
  have hFields : SameSuperCounts fs fs' ↔
      (∀ i < 4, fs'.sb (12 + i) = fs.sb (12 + i)) ∧ ∀ i < 4, fs'.sb (16 + i) = fs.sb (16 + i) :=
    and_congr load_eq_iff load_eq_iff
  rw [hFields]
  constructor
  · intro hAll
    exact ⟨fun i hi => hAll _ (by unfold superblockBytes; omega),
      fun i hi => hAll _ (by unfold superblockBytes; omega)⟩
  · rintro ⟨hBlocks, hInodes⟩ i _
    by_cases hLow : i < 12 ∨ 20 ≤ i
    · exact h.superblock i hLow
    · by_cases hFirst : i < 16
      · have hByte := hBlocks (i - 12) (by omega)
        rwa [show 12 + (i - 12) = i by omega] at hByte
      · have hByte := hInodes (i - 16) (by omega)
        rwa [show 16 + (i - 16) = i by omega] at hByte

theorem OnlyCounts.descriptor_iff (hValid : fs.Valid) (g : Nat) :
    (∀ i < fs.gdBytes, fs'.groupDescs (groupDescBytes * g + i) =
      fs.groupDescs (groupDescBytes * g + i)) ↔ SameGroupCounts fs fs' g := by
  have hBytes : 32 ≤ fs.gdBytes ∧ fs.gdBytes ≤ 64 := by
    have hSize := hValid.descSize_ge
    unfold Ext4Fs.gdBytes groupDescBytes
    omega
  have hFields : SameGroupCounts fs fs' g ↔
      (∀ i < 2, fs'.groupDescs (64 * g + 12 + i) = fs.groupDescs (64 * g + 12 + i)) ∧
        ∀ i < 2, fs'.groupDescs (64 * g + 14 + i) = fs.groupDescs (64 * g + 14 + i) :=
    and_congr load_eq_iff load_eq_iff
  rw [hFields]
  unfold groupDescBytes
  constructor
  · intro hAll
    constructor
    · intro i hi
      rw [Nat.add_assoc]
      exact hAll _ (by omega)
    · intro i hi
      rw [Nat.add_assoc]
      exact hAll _ (by omega)
  · rintro ⟨hBlocks, hInodes⟩ i hi
    by_cases hOther : i < 12 ∨ 16 ≤ i
    · exact h.descriptors g i (by unfold groupDescBytes; omega) hOther
    · by_cases hFirst : i < 14
      · have hByte := hBlocks (i - 12) (by omega)
        rwa [show 64 * g + 12 + (i - 12) = 64 * g + i by omega] at hByte
      · have hByte := hInodes (i - 14) (by omega)
        rwa [show 64 * g + 14 + (i - 14) = 64 * g + i by omega] at hByte

end Counts

/-! ### Unmounting and mounting again -/

theorem Image.unmounted_eq (im : Image) (mem : Bool) :
    im.unmounted mem =
      if mem then
        if im.fs.blockSize = 1024 then
          Function.update im.disk 1 (fill (im.disk 1) 0 superblockBytes im.fs.sb)
        else Function.update im.disk 0 (fill (im.disk 0) 1024 superblockBytes im.fs.sb)
      else im.disk := by
  have hIo : ∀ n, (im.volume mem).asked.io n = true := fun _ => rfl
  have hUnmount : im.unmounted mem = (ext4SyncSuperblock (im.volume mem)).2.disk := rfl
  rw [hUnmount, ext4SyncSuperblock, Run.bind_of_some (Run.get_run _), kmalloc_bind]
  cases mem with
  | false => rfl
  | true =>
    have hMem : (im.volume true).mem 0 = true := rfl
    rw [if_pos hMem, if_pos rfl]
    dsimp only
    rw [Run.bind_of_some (ext4ReadBlock_eq hIo _), ext4WriteBlockRaw_eq fun n => hIo (n + 1)]
    by_cases hSize : im.fs.blockSize = 1024
    · have hSize' : (im.volume true).fs.blockSize = 1024 := hSize
      simp only [hSize', hSize, if_true]
      rfl
    · have hSize' : ¬ (im.volume true).fs.blockSize = 1024 := hSize
      simp only [hSize', hSize, if_false]
      rfl

structure SameSizes (fs fs' : Ext4Fs) : Prop where
  blockSize : fs'.blockSize = fs.blockSize
  blocksPerGroup : fs'.blocksPerGroup = fs.blocksPerGroup
  groupCount : fs'.groupCount = fs.groupCount
  descSize : fs'.descSize = fs.descSize

section Sizes

variable {fs fs' : Ext4Fs} (h : SameSizes fs fs')
include h

theorem SameSizes.gdBlock : fs'.gdBlock = fs.gdBlock := by
  rw [Ext4Fs.gdBlock, h.blockSize, Ext4Fs.gdBlock]

theorem SameSizes.gdPerBlock : fs'.gdPerBlock = fs.gdPerBlock := by
  rw [Ext4Fs.gdPerBlock, h.blockSize, h.descSize, Ext4Fs.gdPerBlock]

theorem SameSizes.gdBlocksNeeded : fs'.gdBlocksNeeded = fs.gdBlocksNeeded := by
  rw [Ext4Fs.gdBlocksNeeded, h.groupCount, h.gdPerBlock, Ext4Fs.gdBlocksNeeded]

theorem SameSizes.gdBytes : fs'.gdBytes = fs.gdBytes := by
  rw [Ext4Fs.gdBytes, h.descSize, Ext4Fs.gdBytes]

theorem SameSizes.valid (hValid : fs.Valid) : fs'.Valid := by
  refine ⟨?_, ?_⟩
  · rw [h.descSize]
    exact hValid.descSize_ge
  · rw [h.groupCount, h.gdPerBlock]
    exact hValid.groups_le

end Sizes

theorem mountParams_congr {sb sb' : Mem} (h : ∀ i, i < 12 ∨ 20 ≤ i → sb' i = sb i) :
    SameSizes (mountParams sb) (mountParams sb') ∧ (Mountable sb → Mountable sb') := by
  have hLoad : ∀ w a, a + w ≤ 12 ∨ 20 ≤ a → load sb' w a = load sb w a := by
    intro w a hApart
    apply load_congr
    intro x hLow hHigh
    exact h x (by omega)
  have hWide : has64Bit sb' ↔ has64Bit sb := by
    unfold has64Bit
    rw [hLoad 4 96 (by omega)]
  have hBlocks : totalBlocks sb' = totalBlocks sb := by
    unfold totalBlocks
    simp only [hWide, hLoad 4 4 (by omega), hLoad 4 336 (by omega)]
  have hSizes : SameSizes (mountParams sb) (mountParams sb') := by
    constructor
    · simp only [mountParams, hLoad 4 24 (by omega)]
    · simp only [mountParams, hLoad 4 32 (by omega)]
    · simp only [mountParams, hBlocks, hLoad 4 32 (by omega)]
    · simp only [mountParams, hWide, hLoad 2 254 (by omega)]
  refine ⟨hSizes, ?_⟩
  rintro ⟨hMagic, hGroup, hPer⟩
  refine ⟨?_, ?_, ?_⟩
  · rw [hLoad 2 56 (by omega)]
    exact hMagic
  · rw [hSizes.blocksPerGroup]
    exact hGroup
  · rw [hSizes.gdPerBlock]
    exact hPer

section Remount

variable {im : Image}

theorem Image.Mounted.read (hMounted : im.Mounted) :
    Mountable im.fs.sb ∧ im.fs.sb = superblockOn im.disk ∧ SameSizes (mountParams im.fs.sb) im.fs ∧
      (im.fs.Valid → ∀ g < im.fs.groupCount, ∀ i < im.fs.gdBytes,
        im.fs.groupDescs (groupDescBytes * g + i) = im.fs.descOn im.disk g i) := by
  obtain ⟨heap, hMount⟩ := hMounted
  obtain ⟨hMountable, hFs⟩ := (mountOn_eq_some heap im.disk im.fs).mp hMount
  have hSb : im.fs.sb = superblockOn im.disk := by
    rw [hFs]
    rfl
  have hSizes : SameSizes (mountParams im.fs.sb) im.fs := by
    rw [hSb]
    constructor <;> rw [hFs]
  refine ⟨hSb ▸ hMountable, hSb, hSizes, ?_⟩
  intro hValid g hg i hi
  have hPer : im.fs.gdPerBlock ≠ 0 := by
    rw [hSizes.gdPerBlock, hSb]
    exact hMountable.2.2
  have hDescs : im.fs.groupDescs =
      im.fs.placeDescs im.disk (List.range im.fs.gdBlocksNeeded) heap := by
    rw [hFs]
    rfl
  rw [hDescs]
  exact Ext4Fs.placeDescs_apply im.disk heap hg hi _ (Nat.le_refl _)
    (Nat.lt_of_lt_of_le hg (Ext4Fs.groupCount_le hPer hValid))

theorem Image.Mounted.remount (hMounted : im.Mounted) (hValid : im.fs.Valid) {disk : Nat → Mem}
    (hSuper : ∀ i, i < 12 ∨ 20 ≤ i → superblockOn disk i = im.fs.sb i)
    (hDescs : ∀ b, im.fs.gdBlock ≤ b → b < im.fs.gdBlock + im.fs.gdBlocksNeeded →
      disk b = im.disk b) (heap : Mem) :
    ∃ fs', mountOn heap disk = some fs' ∧ fs'.sb = superblockOn disk ∧ SameSizes im.fs fs' ∧
      ∀ g < im.fs.groupCount, ∀ i < im.fs.gdBytes,
        fs'.groupDescs (groupDescBytes * g + i) = im.fs.groupDescs (groupDescBytes * g + i) := by
  obtain ⟨hMountable, _, hSizes, hRead⟩ := hMounted.read
  obtain ⟨hParams, hAgain⟩ := mountParams_congr hSuper
  have hSame : SameSizes im.fs (mountParams (superblockOn disk)) :=
    ⟨hParams.blockSize.trans hSizes.blockSize.symm,
      hParams.blocksPerGroup.trans hSizes.blocksPerGroup.symm,
      hParams.groupCount.trans hSizes.groupCount.symm, hParams.descSize.trans hSizes.descSize.symm⟩
  have hPer : (mountParams (superblockOn disk)).gdPerBlock ≠ 0 := (hAgain hMountable).2.2
  refine ⟨_, (mountOn_eq_some heap disk _).mpr ⟨hAgain hMountable, rfl⟩, rfl,
    ⟨hSame.blockSize, hSame.blocksPerGroup, hSame.groupCount, hSame.descSize⟩, ?_⟩
  intro g hg i hi
  have hLe := Ext4Fs.groupCount_le hPer (hSame.valid hValid)
  have hPlace := Ext4Fs.placeDescs_apply disk heap (hSame.groupCount.symm ▸ hg)
    (hSame.gdBytes.symm ▸ hi) (mountParams (superblockOn disk)).gdBlocksNeeded (Nat.le_refl _)
    (Nat.lt_of_lt_of_le (hSame.groupCount.symm ▸ hg) hLe)
  rw [hRead hValid g hg i hi]
  refine hPlace.trans ?_
  have hPerSame := hSame.gdPerBlock
  have hBlock : g / im.fs.gdPerBlock < im.fs.gdBlocksNeeded := by
    rw [← hPerSame, ← hSame.gdBlocksNeeded]
    apply Nat.div_lt_of_lt_mul
    rw [Nat.mul_comm]
    exact Nat.lt_of_lt_of_le (hSame.groupCount.symm ▸ hg) hLe
  unfold Ext4Fs.descOn
  rw [hSame.gdBlock, hPerSame, hSame.descSize,
    hDescs _ (Nat.le_add_right _ _) (Nat.add_lt_add_left hBlock _)]

theorem Image.unmounted_descriptors (im : Image) (mem : Bool) {b : Nat} (hb : im.fs.gdBlock ≤ b) :
    im.unmounted mem b = im.disk b := by
  rw [im.unmounted_eq]
  unfold Ext4Fs.gdBlock at hb
  cases mem with
  | false => rfl
  | true =>
    rw [if_pos rfl]
    split
    case isTrue hSize =>
      rw [if_pos hSize] at hb
      exact Function.update_of_ne (by omega) ..
    case isFalse hSize =>
      rw [if_neg hSize] at hb
      exact Function.update_of_ne (by omega) ..

theorem Image.unmounted_superblock (im : Image) (mem : Bool) :
    superblockOn (im.unmounted mem) =
      if im.fs.blockSize = 1024 ∧ mem = true then fill zeroBlock 0 superblockBytes im.fs.sb
      else superblockOn im.disk := by
  unfold superblockOn
  rw [im.unmounted_eq]
  cases mem with
  | false => rw [if_neg Bool.false_ne_true, if_neg fun h => Bool.false_ne_true h.2]
  | true =>
    rw [if_pos rfl]
    by_cases hSize : im.fs.blockSize = 1024
    · rw [if_pos hSize, if_pos ⟨hSize, rfl⟩, Function.update_self]
      apply fill_congr
      intro i hi
      have hByte : fill (im.disk 1) 0 superblockBytes im.fs.sb (0 + i) = im.fs.sb i := fill_inside hi
      rwa [Nat.zero_add] at hByte
    · rw [if_neg hSize, if_neg fun h => hSize h.1, Function.update_of_ne (by decide)]

theorem Image.Mounted.lossless_iff (hMounted : im.Mounted) (hValid : im.fs.Valid) {im' : Image}
    (hCounts : OnlyCounts im.fs im'.fs) (hKept : ∀ b, im.fs.MetadataBlock b → im'.disk b = im.disk b)
    (mem : Bool) (heap : Mem) :
    im'.Lossless mem heap ↔ (∀ g < im.fs.groupCount, SameGroupCounts im.fs im'.fs g) ∧
      ((im.fs.blockSize = 1024 ∧ mem = true) ∨ SameSuperCounts im.fs im'.fs) := by
  obtain ⟨-, hSb, -, -⟩ := hMounted.read
  have hSuper : superblockOn (im'.unmounted mem) =
      if im.fs.blockSize = 1024 ∧ mem = true then fill zeroBlock 0 superblockBytes im'.fs.sb
      else im.fs.sb := by
    rw [im'.unmounted_superblock, hCounts.blockSize, hSb, superblockOn, superblockOn,
      hKept 1 (Or.inl rfl)]
  have hBlocks : ∀ b, im.fs.gdBlock ≤ b → b < im.fs.gdBlock + im.fs.gdBlocksNeeded →
      im'.unmounted mem b = im.disk b := by
    intro b hLow hHigh
    have hSame : im'.fs.gdBlock = im.fs.gdBlock := by
      rw [Ext4Fs.gdBlock, hCounts.blockSize, Ext4Fs.gdBlock]
    rw [im'.unmounted_descriptors mem (hSame ▸ hLow)]
    exact hKept b (Or.inr ⟨hLow, hHigh⟩)
  have hApart : ∀ i, i < 12 ∨ 20 ≤ i → superblockOn (im'.unmounted mem) i = im.fs.sb i := by
    intro i hi
    rw [hSuper]
    split
    case isFalse hStale => rfl
    case isTrue hWritten =>
      rw [hSb]
      unfold superblockOn fill
      split
      · rw [Nat.sub_zero, hCounts.superblock i hi, hSb, superblockOn, fill, if_pos (by omega)]
        rfl
      · rfl
  obtain ⟨fs', hMount, hSb', hSizes, hDescs⟩ := hMounted.remount hValid hApart hBlocks heap
  have hRead : im'.Lossless mem heap ↔ SameMetadata im'.fs fs' := by
    unfold Image.Lossless
    rw [hMount]
    constructor
    · rintro ⟨_, hEq, hSame⟩
      exact Option.some.inj hEq ▸ hSame
    · intro hSame
      exact ⟨fs', rfl, hSame⟩
  have hSuperIff : (∀ i < superblockBytes, fs'.sb i = im'.fs.sb i) ↔
      (im.fs.blockSize = 1024 ∧ mem = true) ∨ SameSuperCounts im.fs im'.fs := by
    rw [hSb', hSuper]
    by_cases hWritten : im.fs.blockSize = 1024 ∧ mem = true
    · rw [if_pos hWritten]
      refine iff_of_true (fun i hi => ?_) (Or.inl hWritten)
      have hByte : fill zeroBlock 0 superblockBytes im'.fs.sb (0 + i) = im'.fs.sb i :=
        fill_inside hi
      rwa [Nat.zero_add] at hByte
    · rw [if_neg hWritten, or_iff_right hWritten, ← hCounts.superblock_iff]
      exact forall₂_congr fun i _ => eq_comm
  have hDescIff : (∀ g < im.fs.groupCount, ∀ i < im.fs.gdBytes,
      fs'.groupDescs (groupDescBytes * g + i) = im'.fs.groupDescs (groupDescBytes * g + i)) ↔
      ∀ g < im.fs.groupCount, SameGroupCounts im.fs im'.fs g := by
    refine forall₂_congr fun g hg => ?_
    rw [← hCounts.descriptor_iff hValid g]
    refine forall₂_congr fun i hi => ?_
    rw [hDescs g hg i hi]
    exact eq_comm
  have hBytes : im'.fs.gdBytes = im.fs.gdBytes := by
    rw [Ext4Fs.gdBytes, hCounts.descSize, Ext4Fs.gdBytes]
  rw [hRead, ← hDescIff, ← hSuperIff]
  constructor
  · rintro ⟨hBytesSame, -, -, hDescSame⟩
    rw [hCounts.groupCount, hBytes] at hDescSame
    exact ⟨hDescSame, hBytesSame⟩
  · rintro ⟨hDescSame, hBytesSame⟩
    refine ⟨hBytesSame, hSizes.groupCount.trans hCounts.groupCount.symm,
      hSizes.descSize.trans hCounts.descSize.symm, ?_⟩
    rw [hCounts.groupCount, hBytes]
    exact hDescSame

end Remount

/-- After any run on a mounted volume whose calls do not write where `ext4_mount` reads, an unmount and a
mount read back what was in memory exactly if the counts of every group are those of the first mount, and
those of the superblock too, unless the superblock reaches block 1. -/
theorem remount_lossless_iff {im : Image} (hMounted : im.Mounted) (hValid : im.fs.Valid)
    (steps : List Step)
    (hKept : ∀ b, im.fs.MetadataBlock b → (im.after steps).disk b = im.disk b) (mem : Bool)
    (heap : Mem) :
    (im.after steps).Lossless mem heap ↔
      (∀ g < im.fs.groupCount, SameGroupCounts im.fs (im.after steps).fs g) ∧
        ((im.fs.blockSize = 1024 ∧ mem = true) ∨ SameSuperCounts im.fs (im.after steps).fs) :=
  hMounted.lossless_iff hValid (im.after_onlyCounts steps) hKept mem heap

/-! ### A device -/

def bytesAt (fields : List (Nat × List UInt8)) : Mem := fun i =>
  (fields.findSome? fun f => if f.1 ≤ i then f.2[i - f.1]? else none).getD 0

/-- Sixteen blocks of 1024 bytes: superblock, descriptors, both bitmaps, the inode table, the root
directory and the only block of a file with inode 3. -/
def formattedDisk : Nat → Mem := fun b =>
  if b = 1 then bytesAt [(0, [8]), (4, [16]), (12, [8]), (16, [5]), (20, [1]), (32, [16]), (40, [8]),
    (56, [0x53, 0xEF])]
  else if b = 2 then bytesAt [(0, [3]), (4, [4]), (8, [5]), (12, [8]), (14, [5]), (16, [1])]
  else if b = 3 then bytesAt [(0, [0x7F, 0x80])]
  else if b = 4 then bytesAt [(0, [7])]
  else if b = 5 then bytesAt [(128, [0xED, 0x41, 0, 0, 0, 4]), (154, [2]), (168, [6]),
    (256, [0xA4, 0x81, 0, 0, 1]), (282, [1]), (296, [7])]
  else if b = 6 then bytesAt [(0, [2, 0, 0, 0, 12, 0, 1, 2, 46]), (12, [2, 0, 0, 0, 12, 0, 2, 2, 46, 46]),
    (24, [3, 0, 0, 0, 0xE8, 3, 1, 1, 97])]
  else zeroBlock

def mountedImage : Image := ⟨(mountOn zeroBlock formattedDisk).getD (mountParams zeroBlock), formattedDisk⟩

theorem mountedImage_mounted : mountedImage.Mounted := by
  have hSome : (mountOn zeroBlock formattedDisk).isSome = true := by decide +kernel
  obtain ⟨fs, hMount⟩ := Option.isSome_iff_exists.mp hSome
  refine ⟨zeroBlock, ?_⟩
  rw [mountedImage, hMount]
  rfl

theorem mountedImage_valid : mountedImage.fs.Valid := by
  constructor <;> decide +kernel

def inPlaceRun : List Step :=
  [⟨.truncate 3 2048, fun _ => true, fun _ => true⟩, ⟨.write 3 [65, 66] 0, fun _ => true, fun _ => true⟩]

theorem inPlaceRun_kept : ∀ b, mountedImage.fs.MetadataBlock b →
    (mountedImage.after inPlaceRun).disk b = mountedImage.disk b := by
  have hFirst : mountedImage.fs.gdBlock = 2 := by decide +kernel
  have hOne : mountedImage.fs.gdBlocksNeeded = 1 := by decide +kernel
  intro b hb
  unfold Ext4Fs.MetadataBlock at hb
  rw [hFirst, hOne] at hb
  obtain rfl | rfl : b = 1 ∨ b = 2 := by omega
  · rfl
  · rfl

theorem remount_lossless_iff_inPlaceRun :
    mountedImage.Mounted ∧ mountedImage.fs.Valid ∧
      ∀ mem heap, (mountedImage.after inPlaceRun).Lossless mem heap := by
  refine ⟨mountedImage_mounted, mountedImage_valid, fun mem heap => ?_⟩
  apply (remount_lossless_iff mountedImage_mounted mountedImage_valid inPlaceRun inPlaceRun_kept mem
    heap).mpr
  refine ⟨?_, Or.inr ?_⟩
  · show ∀ g < _, _ ∧ _
    decide +kernel
  · show _ ∧ _
    decide +kernel

theorem SameMetadata.inodes {fs fs' : Ext4Fs} (h : SameMetadata fs fs') {g : Nat}
    (hg : g < fs.groupCount) (hBytes : 16 ≤ fs.gdBytes) :
    inodeAccount.groupLo fs' g = inodeAccount.groupLo fs g := by
  refine load_eq_iff.mpr fun i hi => ?_
  have hByte := h.descriptors g hg (14 + i) (by omega)
  rw [← Nat.add_assoc] at hByte
  exact hByte

theorem created_file_lost_from_counts :
    let call : Call := .create 2 [98] 0x81A4
    let im := mountedImage.after [⟨call, fun _ => true, fun _ => true⟩]
    mountedImage.Mounted ∧ mountedImage.fs.Valid ∧ mountedImage.Counted ∧
      (call.run ⟨mountedImage.fs, mountedImage.disk, fun _ => true, fun _ => true, fun _ => true⟩).1 =
        some () ∧
      inodeAccount.groupLo im.fs 0 = 4 ∧
      (mountOn zeroBlock (im.unmounted true)).map (fun fs' => inodeAccount.groupLo fs' 0) = some 5 ∧
      ¬ im.Lossless true zeroBlock := by
  intro call im
  have hCounted : mountedImage.Counted := by
    refine ⟨⟨?_, ?_⟩, ⟨?_, ?_⟩⟩ <;> decide +kernel
  have hHeld : inodeAccount.groupLo im.fs 0 = 4 := by decide +kernel
  have hRead : (mountOn zeroBlock (im.unmounted true)).map (fun fs' => inodeAccount.groupLo fs' 0) =
      some 5 := by decide +kernel
  refine ⟨mountedImage_mounted, mountedImage_valid, hCounted, by decide +kernel, hHeld, hRead, ?_⟩
  rintro ⟨fs', hMount, hSame⟩
  have hCount : inodeAccount.groupLo fs' 0 = inodeAccount.groupLo im.fs 0 :=
    hSame.inodes (by decide +kernel) (by decide +kernel)
  rw [hMount, Option.map_some, hCount, hHeld] at hRead
  cases hRead

end UnixOS.Fs.Ext4
