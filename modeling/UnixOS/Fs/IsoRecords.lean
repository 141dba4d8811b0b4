import Mathlib.Algebra.GroupWithZero.Nat
import Mathlib.Tactic.Common

/-! # Directory records of an ISO volume

The reading of one directory in `kernel/fs/iso9660.c`: `iso9660_build_tree_recursive` and
`iso_copy_dir_recursive` read the extent of a directory into a buffer in the same way and walk over its records
in the same loop. Every index used on the buffer is noted. `heap` is what the bytes from the start of the
buffer on held when it was allocated.
-/

namespace UnixOS.Fs.Iso9660

/-- The first bytes of a sector that could be read. -/
abbrev SectorReader := UInt32 → Option (Nat → UInt8)

def isoBlockSize : UInt32 := 2048

def nameBuffer : Nat := 256

/-! ### Names -/

def toChar (b : UInt8) : Char := Char.ofNat b.toNat

def jolietLoop (src : Nat → UInt8) (len : Nat) : Nat → Nat → List Char × List Nat
  | 0, _ => ([], [])
  | rounds + 1, i =>
    if len ≤ i + 1 then ([], [])
    else
      let hi := src i
      let lo := src (i + 1)
      if hi = 0 ∧ (lo = 0x3b ∨ lo = 0) then ([], [i, i + 1])
      else
        let (name, used) := jolietLoop src len rounds (i + 2)
        ((if hi = 0 then toChar lo else '_') :: name, i :: (i + 1) :: used)

def plainLoop (src : Nat → UInt8) (len : Nat) : Nat → Nat → List Char × List Nat
  | 0, _ => ([], [])
  | rounds + 1, i =>
    if len ≤ i then ([], [])
    else if src i = 0x3b then ([], [i])
    else
      let (name, used) := plainLoop src len rounds (i + 1)
      (toChar (src i) :: name, i :: used)

def dropDot (name : List Char) : List Char :=
  if name.getLast? = some '.' then name.dropLast else name

def cString (name : List Char) : List Char := name.takeWhile (· ≠ '\x00')

/-- `iso_trim_name`, as a C string, with the indices used on `src`. -/
def isoTrimName (src : Nat → UInt8) (len : Nat) (joliet : Bool) : List Char × List Nat :=
  if len = 1 ∧ src 0 = 0 then ([], [0])
  else if len = 1 ∧ src 0 = 1 then (['.', '.'], [0])
  else
    let (name, used) := if joliet then jolietLoop src len (nameBuffer - 1) 0 else plainLoop src len (nameBuffer - 1) 0
    (cString (dropDot name), if len = 1 then 0 :: used else used)

/-! ### Reading the extent -/

def sectorCount (size : UInt32) : UInt32 := (size + isoBlockSize - 1) / isoBlockSize

def totalSize (size : UInt32) : UInt32 := sectorCount size * isoBlockSize

def sizeRefused (size : UInt32) : Prop :=
  0x10000 < sectorCount size ∨ sectorCount size ≠ 0 ∧ totalSize size / sectorCount size ≠ isoBlockSize

instance (size : UInt32) : Decidable (sizeRefused size) := inferInstanceAs (Decidable (_ ∨ _))

def bytesAllocated (size : UInt32) : UInt32 := if totalSize size ≠ 0 then totalSize size else isoBlockSize

def readSectors (read : SectorReader) (extent : UInt32) (heap : Nat → UInt8) : Nat → Option (Nat → UInt8)
  | 0 => some heap
  | i + 1 => do
    let dirData ← readSectors read extent heap i
    let sector ← read (extent + UInt32.ofNat i)
    return fun k => if k / isoBlockSize.toNat = i then sector (k % isoBlockSize.toNat) else dirData k

def readExtent (read : SectorReader) (extent size : UInt32) (heap : Nat → UInt8) : Option (Nat → UInt8) :=
  readSectors read extent heap (sectorCount size).toNat

/-! ### The record loop -/

structure DirRecord where
  name : List Char
  extent : UInt32
  size : UInt32
  isDir : Bool
deriving DecidableEq

/-- What a round of the loop finds: the end of the records, bytes to be skipped, or a record. -/
inductive Round where
  | stop
  | skip (next : UInt32)
  | record (r : DirRecord) (next : UInt32)

def Round.next : Round → Option UInt32
  | .stop => none
  | .skip next => some next
  | .record _ next => some next

def nextBlock (pos : UInt32) : UInt32 := (pos / isoBlockSize + 1) * isoBlockSize

def isoLe32 (bytes : Nat → UInt8) (i : Nat) : UInt32 :=
  (bytes i).toUInt32 ||| (bytes (i + 1)).toUInt32 <<< 8 ||| (bytes (i + 2)).toUInt32 <<< 16 |||
    (bytes (i + 3)).toUInt32 <<< 24

def le32Indices (i : Nat) : List Nat := [i, i + 1, i + 2, i + 3]

/-- The body of the loop at `pos`, with the indices it uses on `dir_data`: of the name, all the bytes that are
passed to `iso_trim_name` and those that it reads. -/
def recordAt (dirData : Nat → UInt8) (total : UInt32) (joliet : Bool) (pos : UInt32) : Round × List Nat :=
  let recordLen := dirData pos.toNat
  if recordLen = 0 then (.skip (nextBlock pos), [pos.toNat])
  else if recordLen < 34 then (.skip (nextBlock pos), [pos.toNat])
  else if total < pos + recordLen.toUInt32 then (.stop, [pos.toNat])
  else
    let nameLen := dirData (pos + 32).toNat
    if recordLen.toNat < 33 + nameLen.toNat then (.skip (nextBlock pos), [pos.toNat, (pos + 32).toNat])
    else
      let name := isoTrimName (fun i => dirData ((pos + 33).toNat + i)) nameLen.toNat joliet
      (.record ⟨name.1, isoLe32 dirData (pos + 2).toNat, isoLe32 dirData (pos + 10).toNat,
          dirData (pos + 25).toNat &&& 0x02 ≠ 0⟩ (pos + recordLen.toUInt32),
        [pos.toNat, (pos + 32).toNat, (pos + 25).toNat] ++ le32Indices (pos + 2).toNat ++
          le32Indices (pos + 10).toNat ++ (List.range nameLen.toNat ++ name.2).map ((pos + 33).toNat + ·))

inductive LoopAt (dirData : Nat → UInt8) (size : UInt32) (joliet : Bool) : UInt32 → Prop
  | start : LoopAt dirData size joliet 0
  | next {pos next : UInt32} : LoopAt dirData size joliet pos → pos < size →
      (recordAt dirData (totalSize size) joliet pos).1.next = some next → LoopAt dirData size joliet next

/-- Every index is one of a byte that was allocated and read, and the positions go up. -/
def RecordsInside (read : SectorReader) (extent size : UInt32) (heap : Nat → UInt8) (joliet : Bool) : Prop :=
  ¬ sizeRefused size → ∀ dirData, readExtent read extent size heap = some dirData →
    ∀ pos, LoopAt dirData size joliet pos → pos < size →
      (∀ i ∈ (recordAt dirData (totalSize size) joliet pos).2,
        i < (bytesAllocated size).toNat ∧ i < (sectorCount size).toNat * isoBlockSize.toNat) ∧
      ∀ next, (recordAt dirData (totalSize size) joliet pos).1.next = some next → pos < next

/-! ### Sizes -/

variable {size pos : UInt32}

theorem sectorCount_toNat (h : size.toNat ≤ 2 ^ 32 - 2048) :
    (sectorCount size).toNat = (size.toNat + 2047) / 2048 := by
  have hSize := size.toNat_lt
  have hBlock : isoBlockSize.toNat = 2048 := rfl
  rw [sectorCount, UInt32.toNat_div, UInt32.toNat_sub, UInt32.toNat_add, hBlock]
  have hOne : (1 : UInt32).toNat = 1 := rfl
  omega

theorem sectorCount_eq_zero (h : 2 ^ 32 - 2048 < size.toNat) : sectorCount size = 0 := by
  have hSize := size.toNat_lt
  have hBlock : isoBlockSize.toNat = 2048 := rfl
  apply UInt32.toNat_inj.mp
  rw [sectorCount, UInt32.toNat_div, UInt32.toNat_sub, UInt32.toNat_add, hBlock]
  have hOne : (1 : UInt32).toNat = 1 := rfl
  have hZero : (0 : UInt32).toNat = 0 := rfl
  omega

theorem totalSize_toNat (h : size.toNat ≤ 2 ^ 27) :
    (totalSize size).toNat = (size.toNat + 2047) / 2048 * 2048 := by
  have hBlock : isoBlockSize.toNat = 2048 := rfl
  rw [totalSize, UInt32.toNat_mul, sectorCount_toNat (by omega), hBlock]
  omega

theorem sizeRefused_iff (h : size.toNat ≤ 2 ^ 32 - 2048) : sizeRefused size ↔ 2 ^ 27 < size.toNat := by
  have hBound : (0x10000 : UInt32).toNat = 0x10000 := rfl
  have hCount : 0x10000 < sectorCount size ↔ 2 ^ 27 < size.toNat := by
    rw [UInt32.lt_iff_toNat_lt, sectorCount_toNat h, hBound]
    omega
  rw [sizeRefused, hCount, or_iff_left_iff_imp]
  rintro ⟨hPos, hDiv⟩
  by_contra hSmall
  apply hDiv
  have hNe : (sectorCount size).toNat ≠ 0 := fun hEq => hPos (UInt32.toNat_inj.mp hEq)
  apply UInt32.toNat_inj.mp
  rw [UInt32.toNat_div, totalSize_toNat (Nat.le_of_not_lt hSmall), sectorCount_toNat h]
  rw [sectorCount_toNat h] at hNe
  exact Nat.mul_div_cancel_left 2048 (Nat.pos_of_ne_zero hNe)

theorem not_sizeRefused_of_wraps (h : 2 ^ 32 - 2048 < size.toNat) : ¬ sizeRefused size := by
  rw [sizeRefused, sectorCount_eq_zero h]
  exact not_or.mpr ⟨by decide, fun hBoth => hBoth.1 rfl⟩

theorem totalSize_of_wraps (h : 2 ^ 32 - 2048 < size.toNat) : totalSize size = 0 := by
  rw [totalSize, sectorCount_eq_zero h]
  rfl

theorem nextBlock_toNat (h : pos.toNat < 2 ^ 27) : (nextBlock pos).toNat = (pos.toNat / 2048 + 1) * 2048 := by
  have hBlock : isoBlockSize.toNat = 2048 := rfl
  have hOne : (1 : UInt32).toNat = 1 := rfl
  rw [nextBlock, UInt32.toNat_mul, UInt32.toNat_add, UInt32.toNat_div, hBlock, hOne]
  omega

/-! ### Indices -/

theorem jolietLoop_used (src : Nat → UInt8) (len : Nat) :
    ∀ rounds i, ∀ k ∈ (jolietLoop src len rounds i).2, k < len
  | 0, _, k, hk => by simp [jolietLoop] at hk
  | rounds + 1, i, k, hk => by
    rw [jolietLoop] at hk
    dsimp only at hk
    split at hk
    · simp at hk
    rename_i hLen
    split at hk
    · simp only [List.mem_cons, List.not_mem_nil, or_false] at hk
      omega
    · simp only [List.mem_cons] at hk
      rcases hk with hk | hk | hk
      · omega
      · omega
      · exact jolietLoop_used src len rounds (i + 2) k hk

theorem plainLoop_used (src : Nat → UInt8) (len : Nat) :
    ∀ rounds i, ∀ k ∈ (plainLoop src len rounds i).2, k < len
  | 0, _, k, hk => by simp [plainLoop] at hk
  | rounds + 1, i, k, hk => by
    rw [plainLoop] at hk
    split at hk
    · simp at hk
    rename_i hLen
    split at hk
    · simp only [List.mem_cons, List.not_mem_nil, or_false] at hk
      omega
    · simp only [List.mem_cons] at hk
      rcases hk with hk | hk
      · omega
      · exact plainLoop_used src len rounds (i + 1) k hk

theorem isoTrimName_used (src : Nat → UInt8) (len : Nat) (joliet : Bool) :
    ∀ k ∈ (isoTrimName src len joliet).2, k < len := by
  intro k hk
  have hLoop : k ∈ (if joliet then jolietLoop src len (nameBuffer - 1) 0
      else plainLoop src len (nameBuffer - 1) 0).2 → k < len := by
    cases joliet with
    | true => exact jolietLoop_used src len _ _ k
    | false => exact plainLoop_used src len _ _ k
  rw [isoTrimName] at hk
  split at hk
  · rename_i hOne
    simp only [List.mem_singleton] at hk
    omega
  split at hk
  · rename_i hOne
    simp only [List.mem_singleton] at hk
    omega
  dsimp only at hk
  split at hk
  · simp only [List.mem_cons] at hk
    rcases hk with hk | hk
    · omega
    · exact hLoop hk
  · exact hLoop hk

variable {dirData : Nat → UInt8} {joliet : Bool}

theorem recordAt_inside (hSize : size.toNat ≤ 2 ^ 27) (hPos : pos < size) :
    (∀ i ∈ (recordAt dirData (totalSize size) joliet pos).2, i < (totalSize size).toNat) ∧
      ∀ next, (recordAt dirData (totalSize size) joliet pos).1.next = some next →
        pos < next ∧ next ≤ totalSize size := by
  have hTotal := totalSize_toNat hSize
  have hPosNat := UInt32.lt_iff_toNat_lt.mp hPos
  have hNextBlock : (nextBlock pos).toNat = (pos.toNat / 2048 + 1) * 2048 := nextBlock_toNat (by omega)
  have hSkip : pos < nextBlock pos ∧ nextBlock pos ≤ totalSize size := by
    rw [UInt32.lt_iff_toNat_lt, UInt32.le_iff_toNat_le, hNextBlock, hTotal]
    omega
  have hHere : pos.toNat < (totalSize size).toNat := by omega
  rw [recordAt]
  dsimp only
  split
  · exact ⟨by simpa using hHere, fun next hNext => Option.some.inj hNext ▸ hSkip⟩
  split
  · exact ⟨by simpa using hHere, fun next hNext => Option.some.inj hNext ▸ hSkip⟩
  rename_i hZero hShort
  split
  · exact ⟨by simpa using hHere, fun next hNext => absurd hNext (by simp [Round.next])⟩
  rename_i hFits
  -- The record ends inside the sectors, and the addition did not wrap.
  have hLenLt := (dirData pos.toNat).toNat_lt
  have hLen : 34 ≤ (dirData pos.toNat).toNat := by
    rw [UInt8.lt_iff_toNat_lt] at hShort
    exact Nat.le_of_not_lt hShort
  have hEnd : (pos + (dirData pos.toNat).toUInt32).toNat = pos.toNat + (dirData pos.toNat).toNat := by
    rw [UInt32.toNat_add, UInt8.toNat_toUInt32]
    omega
  have hFitsNat : pos.toNat + (dirData pos.toNat).toNat ≤ (totalSize size).toNat := by
    rw [UInt32.lt_iff_toNat_lt, hEnd] at hFits
    omega
  have hAt : ∀ k : UInt32, k.toNat < 34 → (pos + k).toNat = pos.toNat + k.toNat := by
    intro k hk
    rw [UInt32.toNat_add]
    omega
  have h2 : (pos + 2).toNat = pos.toNat + 2 := hAt 2 (by decide)
  have h10 : (pos + 10).toNat = pos.toNat + 10 := hAt 10 (by decide)
  have h25 : (pos + 25).toNat = pos.toNat + 25 := hAt 25 (by decide)
  have h32 : (pos + 32).toNat = pos.toNat + 32 := hAt 32 (by decide)
  have h33 : (pos + 33).toNat = pos.toNat + 33 := hAt 33 (by decide)
  split
  · refine ⟨fun i hi => ?_, fun next hNext => Option.some.inj hNext ▸ hSkip⟩
    simp only [h32, List.mem_cons, List.not_mem_nil, or_false] at hi
    omega
  rename_i hName
  constructor
  · intro i hi
    have hUsed : ∀ k ∈ List.range (dirData (pos + 32).toNat).toNat ++
        (isoTrimName (fun i => dirData ((pos + 33).toNat + i)) (dirData (pos + 32).toNat).toNat joliet).2,
        k < (dirData (pos + 32).toNat).toNat := by
      intro k hk
      rcases List.mem_append.mp hk with hRange | hTrim
      · exact List.mem_range.mp hRange
      · exact isoTrimName_used _ _ _ k hTrim
    rcases List.mem_append.mp hi with hFixed | hNameByte
    · simp only [le32Indices, List.cons_append, List.nil_append, List.mem_cons, List.not_mem_nil, or_false] at hFixed
      rcases hFixed with hi | hi | hi | hi | hi | hi | hi | hi | hi | hi | hi
      all_goals omega
    · obtain ⟨k, hk, rfl⟩ := List.mem_map.mp hNameByte
      have hLt := hUsed k hk
      omega
  · intro next hNext
    obtain rfl := Option.some.inj hNext
    rw [UInt32.lt_iff_toNat_lt, UInt32.le_iff_toNat_le, hEnd]
    omega

theorem recordAt_first (dirData : Nat → UInt8) (total : UInt32) (joliet : Bool) :
    0 ∈ (recordAt dirData total joliet 0).2 := by
  rw [recordAt]
  dsimp only
  split
  · exact List.mem_singleton.mpr rfl
  split
  · exact List.mem_singleton.mpr rfl
  split
  · exact List.mem_singleton.mpr rfl
  split
  · exact List.mem_cons_self
  · exact List.mem_cons_self

/-- The records of a directory are read inside the buffer and inside what was read, for every content, if and
only if rounding its size up to whole sectors does not wrap. -/
theorem records_inside_iff (read : SectorReader) (extent size : UInt32) (heap : Nat → UInt8) (joliet : Bool) :
    RecordsInside read extent size heap joliet ↔ size ≤ 4294965248 := by
  have hWrap : size ≤ 4294965248 ↔ size.toNat ≤ 2 ^ 32 - 2048 := UInt32.le_iff_toNat_le
  rw [hWrap]
  constructor
  · intro h
    by_contra hLarge
    have hLarge := Nat.lt_of_not_le hLarge
    -- Nothing is read, and the loop starts at an index that is not below zero.
    have hNone : sectorCount size = 0 := sectorCount_eq_zero hLarge
    have hFirst : (0 : UInt32) < size := by
      rw [UInt32.lt_iff_toNat_lt]
      exact Nat.lt_of_le_of_lt (Nat.zero_le _) hLarge
    have hRead : readExtent read extent size heap = some heap := by
      rw [readExtent, hNone]
      rfl
    have hIn := (h (not_sizeRefused_of_wraps hLarge) heap hRead 0 .start hFirst).1 0 (recordAt_first heap _ joliet)
    rw [hNone] at hIn
    exact absurd hIn.2 (Nat.not_lt_zero 0)
  · intro hSmall hOk dirData _ pos _ hPos
    have hSize : size.toNat ≤ 2 ^ 27 := Nat.le_of_not_lt ((sizeRefused_iff hSmall).not.mp hOk)
    obtain ⟨hIndices, hNext⟩ := @recordAt_inside size pos dirData joliet hSize hPos
    refine ⟨fun i hi => ?_, fun next h => (hNext next h).1⟩
    have hLt := hIndices i hi
    constructor
    · have hNe : totalSize size ≠ 0 := by
        rintro hZero
        rw [hZero] at hLt
        exact absurd hLt (Nat.not_lt_zero i)
      rwa [bytesAllocated, if_pos hNe]
    · have hTotal := totalSize_toNat hSize
      rw [sectorCount_toNat hSmall]
      exact hTotal ▸ hLt

theorem last_size_outside :
    ¬ RecordsInside (fun _ => some fun _ => 0) 20 0xFFFFFFFF (fun _ => 0) false := by
  intro h
  have hIn := (h (by decide) (fun _ => 0) rfl 0 .start (by decide)).1 0 (by decide)
  exact absurd hIn.2 (by decide)

end UnixOS.Fs.Iso9660
