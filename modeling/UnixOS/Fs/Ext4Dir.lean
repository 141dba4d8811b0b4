import UnixOS.Fs.Ext4
import UnixOS.Lib.Tiling

/-! # Directory blocks as records

A directory block is tiled by records: each has a length of its own, a multiple of four that leaves room for its
name. An entry is added behind a record that is longer than it needs to be, by splitting it.
-/

namespace UnixOS.Fs.Ext4

open ByteMemory Tiling

structure DirRecord where
  inode : Nat
  name : List UInt8
  fileType : UInt8
deriving DecidableEq

section Records

variable (buf : Mem) (offset : Nat)

def recLenAt : Nat := load buf 2 (offset + 4)

def nameLenAt : Nat := (buf (offset + 6)).toNat

def actualAt : Nat := align4 (8 + nameLenAt buf offset)

def recordAt : DirRecord :=
  ⟨load buf 4 offset, (List.range (nameLenAt buf offset)).map fun i => buf (offset + 8 + i), buf (offset + 7)⟩

structure ValidRecord : Prop where
  aligned : 4 ∣ recLenAt buf offset
  fits : actualAt buf offset ≤ recLenAt buf offset

structure TiledBy (blockSize : Nat) (offsets : List Nat) : Prop where
  tiles : Tiles id (recLenAt buf) 0 offsets blockSize
  valid : ∀ o ∈ offsets, ValidRecord buf o

def recordOffsets (blockSize : Nat) : Nat → Nat → List Nat
  | 0, _ => []
  | steps + 1, offset =>
    if offset < blockSize ∧ recLenAt buf offset ≠ 0 then
      offset :: recordOffsets blockSize steps (offset + recLenAt buf offset)
    else []

def blockRecords (blockSize : Nat) : List DirRecord :=
  (recordOffsets buf blockSize blockSize 0).map (recordAt buf)

end Records

def DirEntry.record (e : DirEntry) : DirRecord := ⟨e.inode % 2 ^ 32, e.name.take 255, e.fileType⟩

/-! ### Reading the records of a block -/

section Reading

variable {buf buf' : Mem} {blockSize a o : Nat} {offsets pre post : List Nat}

theorem recordOffsets_eq (h : Tiles id (recLenAt buf) a offsets blockSize) {steps : Nat}
    (hSteps : blockSize - a ≤ steps) : recordOffsets buf blockSize steps a = offsets := by
  induction offsets generalizing a steps with
  | nil =>
    obtain rfl : a = blockSize := h
    cases steps with
    | zero => rfl
    | succ steps => rw [recordOffsets, if_neg fun hMore => Nat.lt_irrefl a hMore.1]
  | cons o rest ih =>
    obtain ⟨rfl, hPos, hRest⟩ := h
    have hLe := hRest.le
    dsimp only [id] at hLe hRest hSteps ⊢
    cases steps with
    | zero => omega
    | succ steps => rw [recordOffsets, if_pos ⟨by omega, hPos.ne'⟩, ih hRest (by omega)]

theorem TiledBy.offsets_eq (h : TiledBy buf blockSize offsets) :
    recordOffsets buf blockSize blockSize 0 = offsets := recordOffsets_eq h.tiles (Nat.le_refl _)

theorem TiledBy.records (h : TiledBy buf blockSize offsets) :
    blockRecords buf blockSize = offsets.map (recordAt buf) := by
  rw [Ext4.blockRecords, h.offsets_eq]

structure SameRecord (buf buf' : Mem) (o : Nat) : Prop where
  nameLen : nameLenAt buf' o = nameLenAt buf o
  record : recordAt buf' o = recordAt buf o

theorem SameRecord.of_bytes (hHead : ∀ x, o ≤ x → x < o + 4 ∨ o + 6 ≤ x → x < o + 8 + nameLenAt buf o →
    buf' x = buf x) : SameRecord buf buf' o := by
  have hName : nameLenAt buf' o = nameLenAt buf o :=
    congrArg UInt8.toNat (hHead (o + 6) (by omega) (by omega) (by omega))
  refine ⟨hName, ?_⟩
  have hInode : load buf' 4 o = load buf 4 o := load_congr fun x hx hx' => hHead x hx (by omega) (by omega)
  have hType : buf' (o + 7) = buf (o + 7) := hHead (o + 7) (by omega) (by omega) (by omega)
  have hBytes : ((List.range (nameLenAt buf o)).map fun i => buf' (o + 8 + i)) =
      (List.range (nameLenAt buf o)).map fun i => buf (o + 8 + i) := by
    refine List.map_congr_left fun i hi => hHead _ (by omega) (by omega) ?_
    have := List.mem_range.mp hi
    omega
  rw [recordAt, recordAt, hName, hInode, hType, hBytes]

theorem SameRecord.actual (h : SameRecord buf buf' o) : actualAt buf' o = actualAt buf o := by
  rw [actualAt, actualAt, h.nameLen]

theorem ValidRecord.congr (h : ValidRecord buf o) (hSame : SameRecord buf buf' o)
    (hLen : recLenAt buf' o = recLenAt buf o) : ValidRecord buf' o :=
  ⟨hLen ▸ h.aligned, by rw [hSame.actual, hLen]; exact h.fits⟩

theorem recLenAt_congr (h : ∀ x, o + 4 ≤ x → x < o + 6 → buf' x = buf x) : recLenAt buf' o = recLenAt buf o :=
  load_congr fun x hx hx' => h x hx (by omega)

theorem align4_ge (n : Nat) : n ≤ align4 n ∧ align4 n < n + 4 ∧ 4 ∣ align4 n := by
  unfold align4
  exact ⟨by omega, by omega, Nat.dvd_mul_left 4 _⟩

theorem actualAt_ge (buf : Mem) (o : Nat) : 8 + nameLenAt buf o ≤ actualAt buf o := (align4_ge _).1

/-! ### Writing an entry -/

variable {e : DirEntry} {recLen : Nat}

theorem DirEntry.nameLen_lt (e : DirEntry) : e.nameLen < 256 := by
  unfold nameLen
  omega

theorem DirEntry.write_outside {x : Nat} (h : x < o ∨ o + 8 + e.nameLen ≤ x) : e.write buf o recLen x = buf x := by
  unfold DirEntry.write
  rw [fill_outside (by omega), Function.update_of_ne (by omega), Function.update_of_ne (by omega),
    store_eq_fill, fill_outside (by omega), store_eq_fill, fill_outside (by omega)]

theorem DirEntry.nameLenAt_write : nameLenAt (e.write buf o recLen) o = e.nameLen := by
  have hByte : e.write buf o recLen (o + 6) = UInt8.ofNat e.nameLen := by
    unfold DirEntry.write
    rw [fill_outside (by omega), Function.update_of_ne (by omega), Function.update_self]
  rw [nameLenAt, hByte, UInt8.toNat_ofNat', Nat.mod_eq_of_lt e.nameLen_lt]

theorem DirEntry.recLenAt_write : recLenAt (e.write buf o recLen) o = recLen % 2 ^ 16 := by
  have hBytes : recLenAt (e.write buf o recLen) o = recLenAt (store (store buf o 4 e.inode) (o + 4) 2 recLen) o := by
    refine recLenAt_congr fun x hx hx' => ?_
    unfold DirEntry.write
    rw [fill_outside (by omega), Function.update_of_ne (by omega), Function.update_of_ne (by omega)]
  rw [hBytes, recLenAt, load_store_same]
  rfl

theorem DirEntry.recordAt_write : recordAt (e.write buf o recLen) o = e.record := by
  have hInode : load (e.write buf o recLen) 4 o = e.inode % 2 ^ 32 := by
    have hBytes : load (e.write buf o recLen) 4 o = load (store buf o 4 e.inode) 4 o := by
      refine load_congr fun x hx hx' => ?_
      unfold DirEntry.write
      rw [fill_outside (by omega), Function.update_of_ne (by omega), Function.update_of_ne (by omega),
        store_eq_fill, fill_outside (by omega)]
    rw [hBytes, load_store_same]
    rfl
  have hType : e.write buf o recLen (o + 7) = e.fileType := by
    unfold DirEntry.write
    rw [fill_outside (by omega), Function.update_self]
  have hName : ((List.range e.nameLen).map fun i => e.write buf o recLen (o + 8 + i)) = e.name.take 255 := by
    refine List.ext_getElem (by simp [DirEntry.nameLen, Nat.min_comm]) fun i hi hi' => ?_
    rw [List.length_map, List.length_range] at hi
    rw [List.getElem_map, List.getElem_range, List.getElem_take]
    have hLt : i < e.name.length := Nat.lt_of_lt_of_le hi (Nat.min_le_left _ _)
    unfold DirEntry.write
    rw [fill_inside hi, List.getD_eq_getElem _ _ hLt]
  rw [recordAt, DirEntry.nameLenAt_write, hInode, hType, hName, DirEntry.record]

end Reading

/-! ### Splitting a record -/

section Split

variable {buf : Mem} {blockSize a o : Nat} {offsets pre post : List Nat} {e : DirEntry}

/-- The block after the entry was put behind record `o`. -/
def splitRecord (e : DirEntry) (buf : Mem) (o : Nat) : Mem :=
  e.write (store buf (o + 4) 2 (actualAt buf o)) (o + actualAt buf o) (recLenAt buf o - actualAt buf o)

theorem splitRecord_outside {x : Nat} (h : x < o + 4 ∨ o + 6 ≤ x)
    (hNew : x < o + actualAt buf o ∨ o + actualAt buf o + 8 + e.nameLen ≤ x) : splitRecord e buf o x = buf x := by
  rw [splitRecord, DirEntry.write_outside hNew, store_eq_fill, fill_outside (by omega)]

theorem DirEntry.size_ge (e : DirEntry) : 8 + e.nameLen ≤ e.size ∧ 4 ∣ e.size := ⟨(align4_ge _).1, (align4_ge _).2.2⟩

theorem recLenAt_splitRecord (hSmall : recLenAt buf o < 2 ^ 16) (hFits : actualAt buf o ≤ recLenAt buf o) :
    recLenAt (splitRecord e buf o) o = actualAt buf o := by
  have hActual := actualAt_ge buf o
  have hBytes : recLenAt (splitRecord e buf o) o = recLenAt (store buf (o + 4) 2 (actualAt buf o)) o :=
    recLenAt_congr fun x hx hx' => DirEntry.write_outside (by omega)
  rw [hBytes, recLenAt, load_store_same]
  exact Nat.mod_eq_of_lt (Nat.lt_of_le_of_lt hFits hSmall)

theorem TiledBy.split (h : TiledBy buf blockSize (pre ++ o :: post)) (hBlock : blockSize < 2 ^ 16)
    (hRoom : actualAt buf o + e.size ≤ recLenAt buf o) :
    TiledBy (splitRecord e buf o) blockSize (pre ++ o :: (o + actualAt buf o) :: post) ∧
      blockRecords (splitRecord e buf o) blockSize =
        pre.map (recordAt buf) ++ recordAt buf o :: e.record :: post.map (recordAt buf) := by
  have hActual := actualAt_ge buf o
  have hSize := e.size_ge
  obtain ⟨m, hPre, hHere, hPos, hPost⟩ := Tiles.append_iff.mp h.tiles
  obtain rfl : o = m := hHere
  have hEnd := hPost.le
  have hSmall : recLenAt buf o < 2 ^ 16 := by omega
  have hValid := h.valid o (by simp)
  have hLen := recLenAt_splitRecord (e := e) hSmall hValid.fits
  have hLenNew : recLenAt (splitRecord e buf o) (o + actualAt buf o) = recLenAt buf o - actualAt buf o := by
    rw [splitRecord, DirEntry.recLenAt_write]
    exact Nat.mod_eq_of_lt (by omega)
  have hNameNew : nameLenAt (splitRecord e buf o) (o + actualAt buf o) = e.nameLen := by
    rw [splitRecord, DirEntry.nameLenAt_write]
  -- The records before and behind do not meet what is written.
  have hBefore : ∀ p ∈ pre, SameRecord buf (splitRecord e buf o) p ∧
      recLenAt (splitRecord e buf o) p = recLenAt buf p := by
    intro p hp
    have hBounds := hPre.bounds hp
    have hFits := (h.valid p (List.mem_append_left _ hp)).fits
    have hActual' := actualAt_ge buf p
    dsimp only [id] at hBounds
    exact ⟨.of_bytes fun x hx _ hx' => splitRecord_outside (by omega) (by omega),
      recLenAt_congr fun x hx hx' => splitRecord_outside (by omega) (by omega)⟩
  have hBehind : ∀ p ∈ post, SameRecord buf (splitRecord e buf o) p ∧
      recLenAt (splitRecord e buf o) p = recLenAt buf p := by
    intro p hp
    have hBounds := hPost.bounds hp
    dsimp only [id] at hBounds
    exact ⟨.of_bytes fun x hx _ hx' => splitRecord_outside (by omega) (by omega),
      recLenAt_congr fun x hx hx' => splitRecord_outside (by omega) (by omega)⟩
  have hSelf : SameRecord buf (splitRecord e buf o) o :=
    .of_bytes fun x hx hSide hx' => splitRecord_outside (by omega) (by omega)
  have hTiled : TiledBy (splitRecord e buf o) blockSize (pre ++ o :: (o + actualAt buf o) :: post) := by
    constructor
    · refine Tiles.append_iff.mpr ⟨o, ?_, rfl, ?_, ?_, ?_, ?_⟩
      · exact hPre.congr fun p hp => ⟨rfl, (hBefore p hp).2⟩
      · rw [hLen]
        omega
      · rw [hLen]
        rfl
      · show 0 < recLenAt (splitRecord e buf o) (o + actualAt buf o)
        rw [hLenNew]
        omega
      · rw [hLenNew, hLen, Nat.add_assoc, Nat.add_sub_cancel' hValid.fits]
        exact hPost.congr fun p hp => ⟨rfl, (hBehind p hp).2⟩
    · intro p hp
      simp only [List.mem_append, List.mem_cons] at hp
      rcases hp with hp | rfl | rfl | hp
      · exact (h.valid p (by simp [hp])).congr (hBefore p hp).1 (hBefore p hp).2
      · exact ⟨hLen ▸ (align4_ge _).2.2, by rw [hSelf.actual, hLen]⟩
      · refine ⟨hLenNew ▸ Nat.dvd_sub hValid.aligned (align4_ge _).2.2, ?_⟩
        rw [actualAt, hNameNew, hLenNew]
        exact Nat.le_sub_of_add_le' hRoom
      · exact (h.valid p (by simp [hp])).congr (hBehind p hp).1 (hBehind p hp).2
  refine ⟨hTiled, ?_⟩
  have hNew : recordAt (splitRecord e buf o) (o + actualAt buf o) = e.record := DirEntry.recordAt_write
  rw [hTiled.records, List.map_append, List.map_cons, List.map_cons, hSelf.record, hNew,
    List.map_congr_left fun p hp => (hBefore p hp).1.record, List.map_congr_left fun p hp => (hBehind p hp).1.record]

end Split

end UnixOS.Fs.Ext4
