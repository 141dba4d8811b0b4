import UnixOS.Fs.Ext4Calls

/-! # Runs of the driver

The calls that change a volume, in any order and number, on a device that never fails. Each call
has its own outcomes of the requests for memory.
-/

namespace UnixOS.Fs.Ext4

open ByteMemory ByteBitmap Fallible Ownership

structure Image where
  fs : Ext4Fs
  disk : Nat → Mem

inductive Call where
  | create (parentIno : Nat) (name : List UInt8) (mode : Nat)
  | mkdir (parentIno : Nat) (name : List UInt8) (mode : Nat)
  | write (ino : Nat) (data : List UInt8) (offset : Nat)
  | truncate (ino size : Nat)

def Call.run : Call → Ext4M Unit
  | .create parentIno name mode => do let _ ← ext4VfsCreate parentIno name mode
  | .mkdir parentIno name mode => do let _ ← ext4VfsMkdir parentIno name mode
  | .write ino data offset => do let _ ← ext4VfsWrite ino data offset
  | .truncate ino size => ext4VfsTruncate ino size

structure Step where
  call : Call
  mem : Nat → Bool
  zeros : Nat → Bool

def Image.next (im : Image) (s : Step) : Image :=
  let st := (s.call.run ⟨im.fs, im.disk, s.mem, s.zeros, fun _ => true⟩).2
  ⟨st.fs, st.disk⟩

def Image.after (im : Image) (steps : List Step) : Image := steps.foldl Image.next im

/-! ### Consistent images -/

def Image.Refers (im : Image) : Place → Nat → Prop :=
  im.fs.geometry.Refers im.disk (im.fs.geometry.inodeSlots im.disk)

def Image.Used (im : Image) : Nat → Prop := im.fs.geometry.Used im.disk

/-- The head of a group: a copy of the superblock and of the descriptors. -/
def Image.Reserved (im : Image) (b : Nat) : Prop :=
  (b - im.fs.firstDataBlock) % im.fs.blocksPerGroup ≤
    (im.fs.groupCount * im.fs.descSize + im.fs.blockSize - 1) / im.fs.blockSize

/-- No block is referred to from two places, and no block referred to is marked free. -/
def Image.Exclusive (im : Image) : Prop := Ownership.Exclusive im.Refers im.Used

structure Image.Consistent (im : Image) : Prop where
  sound : im.fs.geometry.Sound
  exclusive : im.Exclusive
  boot : im.fs.firstDataBlock = 0 → im.Used 0
  marked : ∀ b, im.Used b → (∃ p, im.Refers p b) ∨ im.Reserved b

/-- The call gets the memory to clear the indirect blocks it allocates, and a truncation cuts off no
block. -/
def Step.Safe (s : Step) (im : Image) : Prop :=
  (∀ n, s.zeros n = true) ∧
    match s.call with
    | .truncate ino size => CutsHoles ino size im.fs im.disk
    | _ => True

def Image.SafeRun : Image → List Step → Prop
  | _, [] => True
  | im, s :: rest => s.Safe im ∧ (im.next s).SafeRun rest

/-! ### Steps -/

variable {geo : Geometry}

theorem Call.run_spec (c : Call) :
    Triple (Quiet fun fs disk => Settled geo fs disk ∧
        match c with
        | .truncate ino size => CutsHoles ino size fs disk
        | _ => True)
      c.run (fun _ => Quiet (Settled geo)) (Quiet (Settled geo)) := by
  cases c with
  | create parentIno name mode =>
    refine Triple.bind (Triple.weaken (ext4CreateFile_spec parentIno name mode) fun _ _ => And.left)
      fun _ => Triple.pure fun _ => id
  | mkdir parentIno name mode =>
    refine Triple.bind (Triple.weaken (ext4CreateFile_spec parentIno name _) fun _ _ => And.left)
      fun _ => Triple.pure fun _ => id
  | write ino data offset =>
    refine Triple.bind (Triple.weaken (ext4WriteFile_spec ino data offset) fun _ _ => And.left)
      fun _ => Triple.pure fun _ => id
  | truncate ino size => exact ext4VfsTruncate_spec ino size

theorem Image.next_settled {im : Image} {s : Step} (h : Settled geo im.fs im.disk)
    (hSafe : s.Safe im) : Settled geo (im.next s).fs (im.next s).disk := by
  have hRun := Call.run_spec s.call ⟨im.fs, im.disk, s.mem, s.zeros, fun _ => true⟩
    ⟨fun _ => hSafe.1, fun _ _ => rfl, h, hSafe.2⟩
  unfold Image.next
  rcases hEq : s.call.run ⟨im.fs, im.disk, s.mem, s.zeros, fun _ => true⟩ with ⟨result, st⟩
  rw [hEq] at hRun
  cases result with
  | none => exact hRun.holds
  | some _ => exact hRun.holds

theorem Image.after_settled {im : Image} {steps : List Step} (h : Settled geo im.fs im.disk)
    (hSafe : im.SafeRun steps) : Settled geo (im.after steps).fs (im.after steps).disk := by
  induction steps generalizing im with
  | nil => exact h
  | cons s rest ih => exact ih (Image.next_settled h hSafe.1) hSafe.2

theorem Image.SafeRun.take {im : Image} {steps : List Step} (h : im.SafeRun steps) (n : Nat) :
    im.SafeRun (steps.take n) := by
  induction steps generalizing im n with
  | nil =>
    rw [List.take_nil]
    exact h
  | cons s rest ih =>
    cases n with
    | zero => exact trivial
    | succ n => exact ⟨h.1, ih h.2 n⟩

/-- In every state of a run that clears its indirect blocks and truncates files only where they have
no blocks, references are exclusive and the blocks referred to are marked. -/
theorem ext4_references_exclusive {im : Image} (hConsistent : im.Consistent) {steps : List Step}
    (hSafe : im.SafeRun steps) (n : Nat) : (im.after (steps.take n)).Exclusive := by
  have hStart : Settled im.fs.geometry im.fs im.disk :=
    settled_iff.mpr ⟨rfl, hConsistent.sound, hConsistent.exclusive, hConsistent.boot⟩
  obtain ⟨hGeo, hWorld⟩ := settled_iff.mp (Image.after_settled hStart (hSafe.take n))
  unfold Image.Exclusive Image.Refers Image.Used
  rw [hGeo]
  exact hWorld.own

/-! ### A small image -/

/-- Blocks 1 to 6 of one group of 16: superblock, descriptors, both bitmaps, the inode table, and the
only block of the file with inode 1, which is one byte long. -/
def smallImage : Image :=
  { fs :=
      { sb := fun i => if i = 20 then 1 else if i = 12 then 10 else if i = 16 then 7 else 0
        blockSize := 1024, blocksPerGroup := 16, inodesPerGroup := 8, inodeSize := 128
        groupCount := 1, descSize := 32
        groupDescs := fun i =>
          if i = 0 then 3 else if i = 4 then 4 else if i = 8 then 5
          else if i = 12 then 10 else if i = 14 then 7 else 0 }
    disk := fun b i =>
      if b = 3 then if i = 0 then 0x3F else 0
      else if b = 4 then if i = 0 then 1 else 0
      else if b = 5 then if i = 4 then 1 else if i = 40 then 6 else 0
      else 0 }

theorem smallImage_slots : ∀ i < 8, ∀ k < 15,
    smallImage.fs.geometry.inodeSlots smallImage.disk (i + 1) k = if i = 0 ∧ k = 0 then 6 else 0 := by
  decide +kernel

theorem smallImage_geometry :
    smallImage.fs.geometry.blockBitmap 0 = 3 ∧ smallImage.fs.geometry.inodeBitmap 0 = 4 ∧
      smallImage.fs.geometry.inodeTable 0 = 5 ∧ smallImage.fs.geometry.tableBlocks = 1 ∧
      smallImage.fs.geometry.firstDataBlock = 1 := by
  decide +kernel

theorem smallImage_refers {p : Place} {b : Nat} (h : smallImage.Refers p b) :
    p = .blockBitmap 0 ∧ b = 3 ∨ p = .inodeBitmap 0 ∧ b = 4 ∨ p = .inodeTable 0 0 ∧ b = 5 ∨
      p = .file 1 0 [] ∧ b = 6 := by
  obtain ⟨hBlock, hInode, hTable, hBlocks, -⟩ := smallImage_geometry
  cases p with
  | blockBitmap g =>
    obtain ⟨hg, rfl⟩ := h
    obtain rfl : g = 0 := Nat.lt_one_iff.mp hg
    exact Or.inl ⟨rfl, hBlock⟩
  | inodeBitmap g =>
    obtain ⟨hg, rfl⟩ := h
    obtain rfl : g = 0 := Nat.lt_one_iff.mp hg
    exact Or.inr (Or.inl ⟨rfl, hInode⟩)
  | inodeTable g t =>
    obtain ⟨hg, ht, rfl⟩ := h
    obtain rfl : g = 0 := Nat.lt_one_iff.mp hg
    rw [hBlocks] at ht
    obtain rfl : t = 0 := Nat.lt_one_iff.mp ht
    exact Or.inr (Or.inr (Or.inl ⟨rfl, hTable⟩))
  | file ino k path =>
    obtain ⟨⟨⟨hPos, hGroup⟩, hk, hDepth, -⟩, hFollow, hNonzero⟩ := h
    obtain ⟨i, rfl⟩ := Nat.exists_eq_succ_of_ne_zero hPos
    have hi : i < 8 := by
      have hDiv : i / 8 < 1 := hGroup
      omega
    rw [smallImage_slots i hi k hk] at hFollow
    split at hFollow
    case isFalse hElse =>
      rw [follow_zero] at hFollow
      exact absurd hFollow.symm hNonzero
    case isTrue hHere =>
      obtain ⟨rfl, rfl⟩ := hHere
      obtain rfl : path = [] := List.length_eq_zero_iff.mp (Nat.le_zero.mp hDepth)
      exact Or.inr (Or.inr (Or.inr ⟨rfl, hFollow.symm⟩))

theorem smallImage_file : smallImage.Refers (.file 1 0 []) 6 := by
  refine ⟨⟨⟨by decide, by decide⟩, by decide, by decide, nofun⟩, ?_, by decide⟩
  exact smallImage_slots 0 (by decide) 0 (by decide)

theorem smallImage_used_iff (b : Nat) : smallImage.Used b ↔ 1 ≤ b ∧ b ≤ 6 := by
  have hBits : ∀ i < 16, BitIsSet (smallImage.disk (smallImage.fs.geometry.blockBitmap (i / 16)))
      (i % 16) ↔ i < 6 := by
    decide +kernel
  constructor
  · rintro ⟨hFirst, hGroup, hBit⟩
    have hLow : 1 ≤ b := smallImage_geometry.2.2.2.2 ▸ hFirst
    have hRel : b - 1 < 16 := by
      have hDiv : (b - 1) / 16 < 1 := smallImage_geometry.2.2.2.2 ▸ hGroup
      omega
    have hIndex := (hBits (b - 1) hRel).mp (smallImage_geometry.2.2.2.2 ▸ hBit)
    omega
  · rintro ⟨hLow, hHigh⟩
    refine ⟨smallImage_geometry.2.2.2.2.symm ▸ hLow, ?_, ?_⟩
    · show (b - smallImage.fs.geometry.firstDataBlock) / 16 < 1
      rw [smallImage_geometry.2.2.2.2]
      omega
    · show BitIsSet (smallImage.disk (smallImage.fs.geometry.blockBitmap
        ((b - smallImage.fs.geometry.firstDataBlock) / 16)))
        ((b - smallImage.fs.geometry.firstDataBlock) % 16)
      rw [smallImage_geometry.2.2.2.2]
      exact (hBits (b - 1) (by omega)).mpr (by omega)

theorem smallImage_consistent : smallImage.Consistent := by
  obtain ⟨hBlock, hInode, hTable, hBlocks, hFirst⟩ := smallImage_geometry
  refine ⟨⟨by decide, by decide, by decide, by decide, by decide, by decide, by decide, by decide,
    by decide +kernel⟩, ⟨?_, ?_⟩, ?_, ?_⟩
  · intro p q b hp hq
    rcases smallImage_refers hp with ⟨rfl, rfl⟩ | ⟨rfl, rfl⟩ | ⟨rfl, rfl⟩ | ⟨rfl, rfl⟩ <;>
      rcases smallImage_refers hq with ⟨rfl, h⟩ | ⟨rfl, h⟩ | ⟨rfl, h⟩ | ⟨rfl, h⟩ <;>
      first | rfl | cases h
  · intro p b hp
    apply (smallImage_used_iff b).mpr
    rcases smallImage_refers hp with ⟨-, rfl⟩ | ⟨-, rfl⟩ | ⟨-, rfl⟩ | ⟨-, rfl⟩ <;> decide
  · intro hZero
    cases hFirst.symm.trans hZero
  · intro b hb
    obtain ⟨hLow, hHigh⟩ := (smallImage_used_iff b).mp hb
    interval_cases b
    · exact Or.inr (by unfold Image.Reserved; decide +kernel)
    · exact Or.inr (by unfold Image.Reserved; decide +kernel)
    · exact Or.inl ⟨.blockBitmap 0, by decide, hBlock⟩
    · exact Or.inl ⟨.inodeBitmap 0, by decide, hInode⟩
    · exact Or.inl ⟨.inodeTable 0 0, by decide, hBlocks ▸ by decide, hTable⟩
    · exact Or.inl ⟨.file 1 0 [], smallImage_file⟩

theorem truncate_frees_referenced_block :
    smallImage.Consistent ∧
      ¬ (smallImage.after [⟨.truncate 1 0, fun _ => true, fun _ => true⟩]).Exclusive := by
  refine ⟨smallImage_consistent, ?_⟩
  intro hExclusive
  have hRefers : (smallImage.after [⟨.truncate 1 0, fun _ => true, fun _ => true⟩]).Refers
      (.file 1 0 []) 6 := by
    refine ⟨⟨?_, by decide, by decide, nofun⟩, ?_, by decide⟩
    · exact ⟨by decide, by decide +kernel⟩
    · show (smallImage.after [⟨.truncate 1 0, fun _ => true, fun _ => true⟩]).fs.geometry.inodeSlots
        (smallImage.after [⟨.truncate 1 0, fun _ => true, fun _ => true⟩]).disk 1 0 = 6
      decide +kernel
  obtain ⟨-, -, hBit⟩ := hExclusive.held hRefers
  revert hBit
  decide +kernel

def smallRun : List Step :=
  [⟨.truncate 1 4096, fun _ => true, fun _ => true⟩,
    ⟨.truncate 1 1024, fun _ => true, fun _ => true⟩,
    ⟨.create 2 [97] 0x8000, fun _ => true, fun _ => true⟩,
    ⟨.write 3 [65, 66] 0, fun _ => true, fun _ => true⟩]

theorem ext4_references_exclusive_smallRun :
    smallImage.Consistent ∧ smallImage.SafeRun smallRun ∧
      ∀ n, (smallImage.after (smallRun.take n)).Exclusive := by
  have hGrow : CutsHoles 1 4096 smallImage.fs smallImage.disk := by
    unfold CutsHoles
    decide +kernel
  have hCut : CutsHoles 1 1024 (smallImage.after (smallRun.take 1)).fs
      (smallImage.after (smallRun.take 1)).disk := by
    unfold CutsHoles
    decide +kernel
  have hSafe : smallImage.SafeRun smallRun :=
    ⟨⟨fun _ => rfl, hGrow⟩, ⟨fun _ => rfl, hCut⟩, ⟨fun _ => rfl, trivial⟩, ⟨fun _ => rfl, trivial⟩,
      trivial⟩
  exact ⟨smallImage_consistent, hSafe, ext4_references_exclusive smallImage_consistent hSafe⟩

end UnixOS.Fs.Ext4
