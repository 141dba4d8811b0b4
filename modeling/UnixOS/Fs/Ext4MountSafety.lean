import UnixOS.Fs.Ext4Mount
import UnixOS.Mm.Kmalloc

/-! # What a mount may do with an unchecked superblock

`ext4_mount` once more, with every shift, every division and every byte it stores in the group descriptors.
The sizes come from the disk as they are. The allocator gives nothing for no bytes or for more than it has in one
piece; any other request it may grant or not. The device may fail at any block.
-/

namespace UnixOS.Fs.Ext4

open ByteMemory

/-- An operation with a condition on its operand: a shift of an `int`, a division, or a byte stored in a block of
memory of so many bytes. -/
inductive MountOp where
  | shift (amount : Nat)
  | divide (divisor : Nat)
  | store (index size : Nat)
deriving DecidableEq

def MountOp.Defined : MountOp → Prop
  | .shift amount => amount < 32
  | .divide divisor => divisor ≠ 0
  | .store index size => index < size

instance (op : MountOp) : Decidable op.Defined :=
  match op with
  | .shift amount => inferInstanceAs (Decidable (amount < 32))
  | .divide divisor => inferInstanceAs (Decidable (divisor ≠ 0))
  | .store index size => inferInstanceAs (Decidable (index < size))

def ext4FsBytes : Nat := 440

def kmallocGives (granted : Nat → Bool) (call size : Nat) : Prop :=
  size ≠ 0 ∧ size ≤ Kmalloc.maxAlloc ∧ granted call = true

instance (granted : Nat → Bool) (call size : Nat) : Decidable (kmallocGives granted call size) :=
  inferInstanceAs (Decidable (_ ∧ _))

section Mount

variable (granted : Nat → Bool) (read : Nat → Option Mem)

def Ext4Fs.gdSize (fs : Ext4Fs) : Nat := fs.groupCount * fs.descSize % 2 ^ 32

/-- The bytes stored for the descriptors of block `b`. -/
def Ext4Fs.descStores (fs : Ext4Fs) (b : Nat) : List MountOp :=
  (List.range (fs.gdInBlock b)).flatMap fun g => (List.range fs.gdBytes).map fun i =>
    .store (groupDescBytes * (b * fs.gdPerBlock + g) + i) fs.gdSize

def readGroupDescsOps (fs : Ext4Fs) : List Nat → Mem → List MountOp × Option Mem
  | [], descs => ([], some descs)
  | b :: rest, descs =>
    match read (fs.gdBlock + b) with
    | none => ([], none)
    | some buf =>
      let (ops, result) := readGroupDescsOps fs rest (fs.copyDescs buf b descs)
      (fs.descStores b ++ ops, result)

def superblockIn (sbBuf : Mem) : Mem := fill zeroBlock 0 superblockBytes sbBuf

/-- The operations of `ext4_mount`, and what it mounts. `heap` is what the memory for the descriptors holds. -/
def ext4MountOps (heap : Mem) : List MountOp × Option Ext4Fs :=
  if ¬ kmallocGives granted 0 ext4FsBytes then ([], none)
  else
    match read 1 with
    | none => ([], none)
    | some sbBuf =>
      let sb := superblockIn sbBuf
      if load sb 2 56 ≠ ext4SuperMagic then ([], none)
      else
        let fs := mountParams sb
        let params := [.shift (load sb 4 24), .divide fs.blocksPerGroup]
        if ¬ kmallocGives granted 1 fs.gdSize ∨ ¬ kmallocGives granted 2 fs.blockSize then (params, none)
        else
          let (ops, result) := readGroupDescsOps read fs (List.range fs.gdBlocksNeeded) heap
          (params ++ [.divide fs.descSize, .divide fs.gdPerBlock] ++ ops,
            result.map fun descs => { fs with groupDescs := descs })

end Mount

/-! ### What the driver needs later -/

def Ext4Fs.descFields (fs : Ext4Fs) : List (Nat × Nat) :=
  [(0, 4), (4, 4), (8, 4), (12, 2), (14, 2)] ++
    if fs.descSize ≥ 64 then [(32, 4), (36, 4), (40, 4), (44, 2), (46, 2)] else []

/-- The fields of every descriptor lie in the bytes allocated for them, and every inode lies inside the block it is
in. -/
structure Ext4Fs.AccessesInside (fs : Ext4Fs) : Prop where
  descs : ∀ g < fs.groupCount, ∀ field ∈ fs.descFields, groupDescBytes * g + field.1 + field.2 ≤ fs.gdSize
  divides : fs.inodesPerGroup ≠ 0
  inodes : ∀ ino, 0 < ino → ino < 2 ^ 32 → fs.inodeGroup ino < fs.groupCount →
    fs.inodeOffset ino + inodeBytes ≤ fs.blockSize

/-- Mounting a disk with this superblock does nothing undefined, and what it mounts can be used. -/
structure MountSafe (sbBuf : Mem) : Prop where
  defined : ∀ granted read heap, read 1 = some sbBuf →
    ∀ op ∈ (ext4MountOps granted read heap).1, op.Defined
  inside : ∀ granted read heap fs, read 1 = some sbBuf →
    (ext4MountOps granted read heap).2 = some fs → fs.AccessesInside

/-- The allocator never has a block of the size of the descriptors, or of a block of the volume. -/
def Ext4Fs.Refused (fs : Ext4Fs) : Prop :=
  ¬ kmallocGives (fun _ => true) 1 fs.gdSize ∨ ¬ kmallocGives (fun _ => true) 2 fs.blockSize

/-- The descriptors, 64 bytes apart in memory whatever their size on disk is, fit in what is allocated for them, and
one fits in a block. -/
structure Ext4Fs.DescsFit (fs : Ext4Fs) : Prop where
  block : fs.descSize ≤ fs.blockSize
  memory : groupDescBytes * (fs.groupCount - 1) + (if 64 ≤ fs.descSize then 64 else max fs.descSize 16) ≤ fs.gdSize

structure Ext4Fs.InodesFit (fs : Ext4Fs) : Prop where
  some : fs.inodesPerGroup ≠ 0
  inside : ∀ index < fs.inodesPerGroup, index * fs.inodeSize % 2 ^ 32 % fs.blockSize + inodeBytes ≤ fs.blockSize

/-! ### The stores -/

section Stores

variable {fs : Ext4Fs} {read : Nat → Option Mem}

theorem Ext4Fs.mem_descStores {b : Nat} {op : MountOp} : op ∈ fs.descStores b ↔
    ∃ g < fs.gdInBlock b, ∃ i < fs.gdBytes,
      op = .store (groupDescBytes * (b * fs.gdPerBlock + g) + i) fs.gdSize := by
  simp only [descStores, List.mem_flatMap, List.mem_range, List.mem_map]
  constructor
  · rintro ⟨g, hg, i, hi, rfl⟩
    exact ⟨g, hg, i, hi, rfl⟩
  · rintro ⟨g, hg, i, hi, rfl⟩
    exact ⟨g, hg, i, hi, rfl⟩

theorem mem_readGroupDescsOps {blocks : List Nat} {descs : Mem} {op : MountOp}
    (h : op ∈ (readGroupDescsOps read fs blocks descs).1) : ∃ b ∈ blocks, op ∈ fs.descStores b := by
  induction blocks generalizing descs with
  | nil => exact absurd h List.not_mem_nil
  | cons b rest ih =>
    rw [readGroupDescsOps] at h
    split at h
    · exact absurd h List.not_mem_nil
    · rcases List.mem_append.mp h with hHere | hRest
      · exact ⟨b, List.mem_cons_self, hHere⟩
      · obtain ⟨b', hb', hOp⟩ := ih hRest
        exact ⟨b', List.mem_cons_of_mem b hb', hOp⟩

theorem readGroupDescsOps_of_reads (hReads : ∀ b, ∃ buf, read b = some buf) (blocks : List Nat) (descs : Mem) :
    (∀ b ∈ blocks, ∀ op ∈ fs.descStores b, op ∈ (readGroupDescsOps read fs blocks descs).1) ∧
      ∃ descs', (readGroupDescsOps read fs blocks descs).2 = some descs' := by
  induction blocks generalizing descs with
  | nil => exact ⟨fun b hb => absurd hb List.not_mem_nil, descs, rfl⟩
  | cons b rest ih =>
    obtain ⟨buf, hBuf⟩ := hReads (fs.gdBlock + b)
    obtain ⟨hOps, descs', hDescs⟩ := ih (fs.copyDescs buf b descs)
    rw [readGroupDescsOps, hBuf]
    refine ⟨fun b' hb' op hOp => List.mem_append.mpr ?_, descs', hDescs⟩
    rcases List.mem_cons.mp hb' with rfl | hRest
    · exact Or.inl hOp
    · exact Or.inr (hOps b' hRest op hOp)

theorem Ext4Fs.copied_lt {b g : Nat} (hb : b < fs.gdBlocksNeeded)
    (hg : g < fs.gdInBlock b) : b * fs.gdPerBlock + g < fs.groupCount := by
  have hFloor := Nat.div_mul_le_self ((fs.groupCount + fs.gdPerBlock - 1) % 2 ^ 32) fs.gdPerBlock
  have hMod := Nat.mod_le (fs.groupCount + fs.gdPerBlock - 1) (2 ^ 32)
  have hNeeded : fs.gdBlocksNeeded * fs.gdPerBlock ≤ fs.groupCount + fs.gdPerBlock - 1 := hFloor.trans hMod
  unfold gdInBlock at hg
  split at hg
  · omega
  · rename_i hLast
    have hBefore : (b + 2) * fs.gdPerBlock ≤ fs.gdBlocksNeeded * fs.gdPerBlock :=
      Nat.mul_le_mul_right _ (by omega)
    rw [Nat.add_mul] at hBefore
    omega

theorem Ext4Fs.last_copied (hPer : fs.gdPerBlock ≠ 0) (hSome : 0 < fs.groupCount)
    (hSum : fs.groupCount + fs.gdPerBlock ≤ 2 ^ 32) :
    ∃ b < fs.gdBlocksNeeded, ∃ g < fs.gdInBlock b, b * fs.gdPerBlock + g = fs.groupCount - 1 := by
  have hMod : (fs.groupCount + fs.gdPerBlock - 1) % 2 ^ 32 = fs.groupCount + fs.gdPerBlock - 1 :=
    Nat.mod_eq_of_lt (by omega)
  have hSplit := Nat.div_add_mod' (fs.groupCount + fs.gdPerBlock - 1) fs.gdPerBlock
  have hRem := Nat.mod_lt (fs.groupCount + fs.gdPerBlock - 1) (Nat.pos_of_ne_zero hPer)
  have hNeeded : fs.gdBlocksNeeded = (fs.groupCount + fs.gdPerBlock - 1) / fs.gdPerBlock := by
    rw [gdBlocksNeeded, hMod]
  have hPos : 0 < fs.gdBlocksNeeded := by
    rw [hNeeded]
    exact Nat.div_pos (by omega) (Nat.pos_of_ne_zero hPer)
  obtain ⟨n, hn⟩ := Nat.exists_eq_succ_of_ne_zero hPos.ne'
  rw [← hNeeded, hn, Nat.succ_mul] at hSplit
  refine ⟨n, by omega, fs.groupCount - 1 - n * fs.gdPerBlock, ?_, by omega⟩
  rw [gdInBlock, if_pos (by omega)]
  omega

end Stores

/-! ### The whole mount -/

section Mounting

variable {granted : Nat → Bool} {read : Nat → Option Mem} {heap sbBuf : Mem}

theorem kmallocGives_all {call size : Nat} (h : kmallocGives granted call size) (call' : Nat) :
    kmallocGives (fun _ => true) call' size := ⟨h.1, h.2.1, rfl⟩

theorem mem_ext4MountOps (hSb : read 1 = some sbBuf) {op : MountOp}
    (h : op ∈ (ext4MountOps granted read heap).1) :
    op = .shift (load (superblockIn sbBuf) 4 24) ∨
    op = .divide (mountParams (superblockIn sbBuf)).blocksPerGroup ∨
    ¬ (mountParams (superblockIn sbBuf)).Refused ∧
      (op = .divide (mountParams (superblockIn sbBuf)).descSize ∨
        op = .divide (mountParams (superblockIn sbBuf)).gdPerBlock ∨
        ∃ b < (mountParams (superblockIn sbBuf)).gdBlocksNeeded, op ∈ (mountParams (superblockIn sbBuf)).descStores b) := by
  rw [ext4MountOps, hSb] at h
  split at h
  · exact absurd h List.not_mem_nil
  dsimp only at h
  split at h
  · exact absurd h List.not_mem_nil
  split at h
  · rcases List.mem_cons.mp h with hShift | hDivide
    · exact Or.inl hShift
    · exact Or.inr (Or.inl (List.mem_singleton.mp hDivide))
  · rename_i hGives
    obtain ⟨hDescs, hBuf⟩ := not_or.mp hGives
    have hAccepted : ¬ (mountParams (superblockIn sbBuf)).Refused :=
      not_or.mpr ⟨not_not.mpr (kmallocGives_all (not_not.mp hDescs) 1), not_not.mpr (kmallocGives_all (not_not.mp hBuf) 2)⟩
    rcases List.mem_append.mp h with hParams | hStore
    · simp only [List.cons_append, List.nil_append, List.mem_cons, List.not_mem_nil, or_false] at hParams
      rcases hParams with hOp | hOp | hOp | hOp
      · exact Or.inl hOp
      · exact Or.inr (Or.inl hOp)
      · exact Or.inr (Or.inr ⟨hAccepted, Or.inl hOp⟩)
      · exact Or.inr (Or.inr ⟨hAccepted, Or.inr (Or.inl hOp)⟩)
    · obtain ⟨b, hb, hOp⟩ := mem_readGroupDescsOps hStore
      exact Or.inr (Or.inr ⟨hAccepted, Or.inr (Or.inr ⟨b, List.mem_range.mp hb, hOp⟩)⟩)

theorem ext4MountOps_result (hSb : read 1 = some sbBuf) {fs : Ext4Fs}
    (h : (ext4MountOps granted read heap).2 = some fs) :
    ¬ (mountParams (superblockIn sbBuf)).Refused ∧
      ∃ descs, fs = { mountParams (superblockIn sbBuf) with groupDescs := descs } := by
  rw [ext4MountOps, hSb] at h
  split at h
  · exact absurd h (by simp)
  dsimp only at h
  split at h
  · exact absurd h (by simp)
  split at h
  · exact absurd h (by simp)
  · rename_i hGives
    obtain ⟨hDescs, hBuf⟩ := not_or.mp hGives
    obtain ⟨descs, -, rfl⟩ := Option.map_eq_some_iff.mp h
    exact ⟨not_or.mpr ⟨not_not.mpr (kmallocGives_all (not_not.mp hDescs) 1),
      not_not.mpr (kmallocGives_all (not_not.mp hBuf) 2)⟩, descs, rfl⟩

def onlyReads (sbBuf : Mem) (_b : Nat) : Option Mem := some sbBuf

theorem ext4MountOps_granted (hMagic : load (superblockIn sbBuf) 2 56 = ext4SuperMagic)
    (hAccepted : ¬ (mountParams (superblockIn sbBuf)).Refused) :
    let fs := mountParams (superblockIn sbBuf)
    let run := ext4MountOps (fun _ => true) (onlyReads sbBuf) zeroBlock
    MountOp.divide fs.gdPerBlock ∈ run.1 ∧ (∀ b < fs.gdBlocksNeeded, ∀ op ∈ fs.descStores b, op ∈ run.1) ∧
      ∃ descs, run.2 = some { fs with groupDescs := descs } := by
  intro fs run
  obtain ⟨hDescs, hBuf⟩ := not_or.mp hAccepted
  have hGives : ¬ (¬ kmallocGives (fun _ => true) 1 fs.gdSize ∨ ¬ kmallocGives (fun _ => true) 2 fs.blockSize) :=
    not_or.mpr ⟨hDescs, hBuf⟩
  have hRun : run = ([.shift (load (superblockIn sbBuf) 4 24), .divide fs.blocksPerGroup] ++
      [.divide fs.descSize, .divide fs.gdPerBlock] ++
        (readGroupDescsOps (onlyReads sbBuf) fs (List.range fs.gdBlocksNeeded) zeroBlock).1,
      (readGroupDescsOps (onlyReads sbBuf) fs (List.range fs.gdBlocksNeeded) zeroBlock).2.map
        fun descs => { fs with groupDescs := descs }) := by
    show ext4MountOps (fun _ => true) (onlyReads sbBuf) zeroBlock = _
    rw [ext4MountOps, if_neg (by decide), onlyReads]
    dsimp only
    rw [if_neg (not_not.mpr hMagic), if_neg hGives]
  obtain ⟨hOps, descs, hResult⟩ := @readGroupDescsOps_of_reads fs (onlyReads sbBuf)
    (fun _ => ⟨sbBuf, rfl⟩) (List.range fs.gdBlocksNeeded) zeroBlock
  rw [hRun]
  refine ⟨by simp, fun b hb op hOp => List.mem_append_right _ (hOps b (List.mem_range.mpr hb) op hOp), descs, ?_⟩
  rw [hResult]
  rfl

theorem ext4MountOps_params (hMagic : load (superblockIn sbBuf) 2 56 = ext4SuperMagic) :
    MountOp.shift (load (superblockIn sbBuf) 4 24) ∈
        (ext4MountOps (fun _ => true) (onlyReads sbBuf) zeroBlock).1 ∧
      MountOp.divide (mountParams (superblockIn sbBuf)).blocksPerGroup ∈
        (ext4MountOps (fun _ => true) (onlyReads sbBuf) zeroBlock).1 := by
  rw [ext4MountOps, if_neg (by decide), onlyReads]
  dsimp only
  rw [if_neg (not_not.mpr hMagic)]
  split
  · exact ⟨by simp, by simp⟩
  · exact ⟨by simp, by simp⟩

end Mounting

/-! ### Sizes -/

section Sizes

variable {fs : Ext4Fs}

theorem Ext4Fs.groupCount_pos (h : ¬ fs.Refused) : 0 < fs.groupCount := by
  obtain ⟨hDescs, -⟩ := not_or.mp h
  obtain ⟨hNe, -⟩ := not_not.mp hDescs
  refine Nat.pos_of_ne_zero fun hZero => hNe ?_
  rw [gdSize, hZero, Nat.zero_mul]
  rfl

theorem Ext4Fs.descs_inside_iff (hSome : 0 < fs.groupCount) :
    (∀ g < fs.groupCount, ∀ field ∈ fs.descFields, groupDescBytes * g + field.1 + field.2 ≤ fs.gdSize) ↔
      groupDescBytes * (fs.groupCount - 1) + (if 64 ≤ fs.descSize then 48 else 16) ≤ fs.gdSize := by
  have hBytes : groupDescBytes = 64 := rfl
  constructor
  · intro h
    have hLast := h (fs.groupCount - 1) (by omega)
    split
    · rename_i hLarge
      exact hLast (46, 2) (by simp [descFields, hLarge])
    · exact hLast (14, 2) (by simp [descFields])
  · intro h g hg field hField
    rw [hBytes] at h ⊢
    unfold descFields at hField
    split at h
    · rename_i hLarge
      rw [if_pos hLarge] at hField
      have hEnd : field.1 + field.2 ≤ 48 := by
        simp only [List.cons_append, List.nil_append, List.mem_cons, List.not_mem_nil, or_false] at hField
        rcases hField with h | h | h | h | h | h | h | h | h | h
        all_goals
          rw [h]
          decide
      omega
    · rename_i hSmall
      rw [if_neg hSmall, List.append_nil] at hField
      have hEnd : field.1 + field.2 ≤ 16 := by
        simp only [List.mem_cons, List.not_mem_nil, or_false] at hField
        rcases hField with h | h | h | h | h
        all_goals
          rw [h]
          decide
      omega

theorem Ext4Fs.inodes_inside_iff (hSome : 0 < fs.groupCount) (hPer : fs.inodesPerGroup < 2 ^ 32) :
    (fs.inodesPerGroup ≠ 0 ∧ ∀ ino, 0 < ino → ino < 2 ^ 32 → fs.inodeGroup ino < fs.groupCount →
      fs.inodeOffset ino + inodeBytes ≤ fs.blockSize) ↔ fs.InodesFit := by
  constructor
  · rintro ⟨hNe, h⟩
    refine ⟨hNe, fun index hIndex => ?_⟩
    have hGroup : fs.inodeGroup (index + 1) = 0 := by
      rw [inodeGroup, Nat.add_sub_cancel, Nat.div_eq_of_lt hIndex]
    have hIno := h (index + 1) (Nat.succ_pos _) (by omega) (hGroup ▸ hSome)
    rwa [inodeOffset, inodeByte, Nat.add_sub_cancel, Nat.mod_eq_of_lt hIndex] at hIno
  · intro h
    refine ⟨h.some, fun ino _ _ _ => ?_⟩
    exact h.inside _ (Nat.mod_lt _ (Nat.pos_of_ne_zero h.some))

theorem Ext4Fs.accessesInside_iff (hSome : 0 < fs.groupCount) (hPer : fs.inodesPerGroup < 2 ^ 32) :
    fs.AccessesInside ↔
      groupDescBytes * (fs.groupCount - 1) + (if 64 ≤ fs.descSize then 48 else 16) ≤ fs.gdSize ∧ fs.InodesFit := by
  rw [← descs_inside_iff hSome, ← inodes_inside_iff hSome hPer]
  exact ⟨fun h => ⟨h.descs, h.divides, h.inodes⟩, fun h => ⟨h.1, h.2.1, h.2.2⟩⟩

theorem Ext4Fs.descs_iff (hAccepted : ¬ fs.Refused) :
    (fs.gdPerBlock ≠ 0 ∧ (∀ b < fs.gdBlocksNeeded, ∀ op ∈ fs.descStores b, op.Defined) ∧
      groupDescBytes * (fs.groupCount - 1) + (if 64 ≤ fs.descSize then 48 else 16) ≤ fs.gdSize) ↔ fs.DescsFit := by
  have hBytes : groupDescBytes = 64 := rfl
  have hSome := groupCount_pos hAccepted
  obtain ⟨hDescs, hBuf⟩ := not_or.mp hAccepted
  obtain ⟨hNe, hMax, -⟩ := not_not.mp hDescs
  obtain ⟨-, hBlock, -⟩ := not_not.mp hBuf
  have hAlloc : Kmalloc.maxAlloc = 2 ^ 25 := rfl
  rw [hAlloc] at hMax hBlock
  have hDescNe : fs.descSize ≠ 0 := by
    intro hZero
    exact hNe (by rw [gdSize, hZero, Nat.mul_zero]; rfl)
  have hPer : fs.gdPerBlock ≠ 0 ↔ fs.descSize ≤ fs.blockSize := by
    rw [gdPerBlock, Nat.div_ne_zero_iff]
    exact and_iff_right hDescNe
  rw [hPer]
  constructor
  · rintro ⟨hFits, hStores, hRead⟩
    refine ⟨hFits, ?_⟩
    rw [hBytes] at hRead ⊢
    have hPerLe : fs.gdPerBlock ≤ fs.blockSize := Nat.div_le_self _ _
    have hSum : fs.groupCount + fs.gdPerBlock ≤ 2 ^ 32 := by
      split at hRead <;> omega
    obtain ⟨b, hb, g, hg, hLast⟩ := last_copied (hPer.mpr hFits) hSome hSum
    have hMin : 0 < fs.gdBytes := lt_min (Nat.pos_of_ne_zero hDescNe) (by decide)
    have hStore : groupDescBytes * (b * fs.gdPerBlock + g) + (fs.gdBytes - 1) < fs.gdSize :=
      hStores b hb _ (mem_descStores.mpr ⟨g, hg, fs.gdBytes - 1, by omega, rfl⟩)
    rw [hLast, hBytes] at hStore
    have hGd : fs.gdBytes = min fs.descSize 64 := rfl
    split at hRead
    · rename_i hLarge
      rw [if_pos hLarge]
      omega
    · rename_i hSmall
      rw [if_neg hSmall]
      omega
  · rintro ⟨hFits, hMemory⟩
    rw [hBytes] at hMemory ⊢
    refine ⟨hFits, ?_, ?_⟩
    · intro b hb op hOp
      obtain ⟨g, hg, i, hi, rfl⟩ := mem_descStores.mp hOp
      have hCopied := copied_lt hb hg
      have hGd : fs.gdBytes = min fs.descSize 64 := rfl
      show groupDescBytes * (b * fs.gdPerBlock + g) + i < fs.gdSize
      rw [hBytes]
      split at hMemory <;> omega
    · split at hMemory
      · rename_i hLarge
        rw [if_pos hLarge]
        omega
      · rename_i hSmall
        rw [if_neg hSmall]
        omega

end Sizes

theorem ext4MountOps_eq_mountOn {disk : Nat → Mem} {heap : Mem} (hMountable : Mountable (superblockOn disk))
    (hAccepted : ¬ (mountParams (superblockOn disk)).Refused) :
    (ext4MountOps (fun _ => true) (fun b => some (disk b)) heap).2 = mountOn heap disk := by
  have hPlaced : ∀ blocks descs,
      (readGroupDescsOps (fun b => some (disk b)) (mountParams (superblockOn disk)) blocks descs).2 =
        some ((mountParams (superblockOn disk)).placeDescs disk blocks descs) := by
    intro blocks
    induction blocks with
    | nil => exact fun _ => rfl
    | cons b rest ih => exact fun descs => ih _
  have hGives : ¬ (¬ kmallocGives (fun _ => true) 1 (mountParams (superblockOn disk)).gdSize ∨
      ¬ kmallocGives (fun _ => true) 2 (mountParams (superblockOn disk)).blockSize) := hAccepted
  rw [(mountOn_eq_some heap disk _).mpr ⟨hMountable, rfl⟩, ext4MountOps, if_neg (by decide)]
  dsimp only
  rw [show superblockIn (disk 1) = superblockOn disk from rfl, if_neg (not_not.mpr hMountable.1), if_neg hGives]
  dsimp only
  rw [hPlaced]
  rfl

/-- A mount and what comes after it stay inside their memory, for every content of the descriptors, if and only if
the block size is a shift of less than 32 bits, groups are not empty and, unless the allocator refuses the sizes,
the descriptors fit in their memory and the inodes in their blocks. -/
theorem mount_safe_iff (sbBuf : Mem) (hMagic : load (superblockIn sbBuf) 2 56 = ext4SuperMagic) :
    MountSafe sbBuf ↔
      load (superblockIn sbBuf) 4 24 < 32 ∧ (mountParams (superblockIn sbBuf)).blocksPerGroup ≠ 0 ∧
        ((mountParams (superblockIn sbBuf)).Refused ∨
          (mountParams (superblockIn sbBuf)).DescsFit ∧ (mountParams (superblockIn sbBuf)).InodesFit) := by
  have hPer : (mountParams (superblockIn sbBuf)).inodesPerGroup < 2 ^ 32 := load_lt (superblockIn sbBuf) 4 40
  constructor
  · intro h
    have hDefined := h.defined (fun _ => true) (onlyReads sbBuf) zeroBlock rfl
    obtain ⟨hShift, hDivide⟩ := ext4MountOps_params hMagic
    refine ⟨hDefined _ hShift, hDefined _ hDivide, ?_⟩
    by_cases hRefused : (mountParams (superblockIn sbBuf)).Refused
    · exact Or.inl hRefused
    obtain ⟨hPerBlock, hStores, descs, hResult⟩ := ext4MountOps_granted hMagic hRefused
    have hInside := h.inside (fun _ => true) (onlyReads sbBuf) zeroBlock _ rfl hResult
    have hAccess := (Ext4Fs.accessesInside_iff (Ext4Fs.groupCount_pos hRefused) hPer).mp
      ⟨hInside.descs, hInside.divides, hInside.inodes⟩
    exact Or.inr ⟨(Ext4Fs.descs_iff hRefused).mp ⟨hDefined _ hPerBlock,
      fun b hb op hOp => hDefined op (hStores b hb op hOp), hAccess.1⟩, hAccess.2⟩
  · rintro ⟨hShift, hDivide, hFits⟩
    constructor
    · intro granted read heap hSb op hOp
      rcases mem_ext4MountOps hSb hOp with rfl | rfl | ⟨hAccepted, hOp⟩
      · exact hShift
      · exact hDivide
      obtain ⟨hDescs, -⟩ := hFits.resolve_left hAccepted
      obtain ⟨hPerBlock, hStores, -⟩ := (Ext4Fs.descs_iff hAccepted).mpr hDescs
      rcases hOp with rfl | rfl | ⟨b, hb, hOp⟩
      · intro hZero
        exact hPerBlock (by rw [Ext4Fs.gdPerBlock, hZero, Nat.div_zero])
      · exact hPerBlock
      · exact hStores b hb op hOp
    · intro granted read heap fs hSb hResult
      obtain ⟨hAccepted, descs, rfl⟩ := ext4MountOps_result hSb hResult
      obtain ⟨hDescs, hInodes⟩ := hFits.resolve_left hAccepted
      have hInside := (Ext4Fs.accessesInside_iff (Ext4Fs.groupCount_pos hAccepted) hPer).mpr
        ⟨((Ext4Fs.descs_iff hAccepted).mpr hDescs).2.2, hInodes⟩
      exact ⟨hInside.descs, hInside.divides, hInside.inodes⟩

/-- A superblock of revision 0 with blocks of 1024 bytes, groups of 8192 blocks and 2048 inodes, and so many groups. -/
def superblockOf (groups : UInt8) : Mem
  | 5 => 0x20 * groups
  | 33 => 0x20
  | 41 => 0x08
  | 56 => 0x53
  | 57 => 0xEF
  | _ => 0

theorem mount_safe_one_group : MountSafe (superblockOf 1) := by
  refine (mount_safe_iff (superblockOf 1) (by decide +kernel)).mpr ⟨by decide +kernel, by decide +kernel, Or.inr ⟨?_, ?_⟩⟩
  · exact ⟨by decide +kernel, by decide +kernel⟩
  · refine ⟨by decide +kernel, fun index hIndex => ?_⟩
    have hPer : (mountParams (superblockIn (superblockOf 1))).inodesPerGroup = 2048 := by decide +kernel
    have hSize : (mountParams (superblockIn (superblockOf 1))).inodeSize = 128 := by decide +kernel
    have hBlock : (mountParams (superblockIn (superblockOf 1))).blockSize = 1024 := by decide +kernel
    rw [hPer] at hIndex
    rw [hSize, hBlock, inodeBytes]
    omega

theorem two_groups_overflow :
    load (superblockIn (superblockOf 2)) 2 56 = ext4SuperMagic ∧ ¬ MountSafe (superblockOf 2) := by
  have hMagic : load (superblockIn (superblockOf 2)) 2 56 = ext4SuperMagic := by decide +kernel
  refine ⟨hMagic, fun h => ?_⟩
  have hAccepted : ¬ (mountParams (superblockIn (superblockOf 2))).Refused := by
    unfold Ext4Fs.Refused
    decide +kernel
  obtain ⟨-, hStores, -⟩ := ext4MountOps_granted hMagic hAccepted
  have hOp := hStores 0 (by decide +kernel) _
    (Ext4Fs.mem_descStores.mpr ⟨1, by decide +kernel, 0, by decide +kernel, rfl⟩)
  have hDefined := h.defined (fun _ => true) (onlyReads (superblockOf 2)) zeroBlock rfl _ hOp
  revert hDefined
  decide +kernel

end UnixOS.Fs.Ext4
