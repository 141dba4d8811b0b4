import UnixOS.Fs.Ext4Runs

/-! # What a file holds, block by block

A file block that is mapped holds the bytes of its disk block. A write to the disk shows in a file only where it
meets a block the file refers to, and a new mapping shows in its own file block only.
-/

namespace UnixOS.Fs.Ext4

open ByteMemory ByteBitmap Fallible

def blockContent (ptrs : Nat) (disk : Nat → Mem) (inode : Mem) (fileBlock : Nat) : Option Mem :=
  if mappedBlock ptrs disk inode fileBlock = 0 then none
  else some (disk (mappedBlock ptrs disk inode fileBlock))

/-! ### Where file blocks are mapped -/

section Paths

variable {ptrs b b' k : Nat} {path : List Nat} {disk disk' : Nat → Mem} {inode inode' : Mem}

def placeBlock (ptrs k : Nat) : List Nat → Nat
  | [] => k
  | [j] => ndirBlocks + j
  | i :: j :: _ => ndirBlocks + ptrs + (ptrs * i + j)

theorem mapPath_inv (h : mapPath ptrs b = some (k, path)) : placeBlock ptrs k path = b := by
  unfold mapPath at h
  split at h
  case isTrue hDirect =>
    cases h
    rfl
  case isFalse hFar =>
    split at h
    case isTrue hInd =>
      cases h
      exact Nat.add_sub_cancel' (Nat.le_of_not_lt hFar)
    case isFalse hNotInd =>
      split at h
      case isFalse hBeyond => cases h
      case isTrue hDind =>
        cases h
        rw [placeBlock, Nat.div_add_mod]
        omega

theorem mapPath_inj (h : mapPath ptrs b = some (k, path)) (h' : mapPath ptrs b' = some (k, path)) : b = b' :=
  (mapPath_inv h).symm.trans (mapPath_inv h')

theorem mappedBlock_of_path (h : mapPath ptrs b = some (k, path)) :
    mappedBlock ptrs disk inode b = follow disk (iBlock inode k) path := by
  rw [mappedBlock, h]

theorem mappedBlock_of_none (h : mapPath ptrs b = none) : mappedBlock ptrs disk inode b = 0 := by
  rw [mappedBlock, h]

theorem blockContent_of_none (h : mapPath ptrs b = none) : blockContent ptrs disk inode b = none := by
  rw [blockContent, mappedBlock_of_none h, if_pos rfl]

theorem blockContent_congr (h : ∀ k < 15, iBlock inode' k = iBlock inode k) :
    blockContent ptrs disk inode' b = blockContent ptrs disk inode b := by
  have hMapped : mappedBlock ptrs disk inode' b = mappedBlock ptrs disk inode b := by
    cases hPath : mapPath ptrs b with
    | none => rw [mappedBlock_of_none hPath, mappedBlock_of_none hPath]
    | some place =>
      obtain ⟨k, path⟩ := place
      rw [mappedBlock_of_path hPath, mappedBlock_of_path hPath, h k (mapPath_spec hPath).1]
  rw [blockContent, hMapped, blockContent]

theorem blockContent_slot {n j : Nat} (hSmall : n < 2 ^ 32) (hPath : mapPath ptrs b = some (k, path)) (hOther : k ≠ j) :
    blockContent ptrs disk (setIBlock inode j n) b = blockContent ptrs disk inode b := by
  have hSlot : iBlock (setIBlock inode j n) k = iBlock inode k := (load_store_array inode hSmall k).trans (if_neg hOther)
  have hMapped : mappedBlock ptrs disk (setIBlock inode j n) b = mappedBlock ptrs disk inode b := by
    rw [mappedBlock_of_path hPath, mappedBlock_of_path hPath, hSlot]
  rw [blockContent, hMapped, blockContent]

theorem blockContent_direct {n : Nat} (hSmall : n < 2 ^ 32) (hPos : n ≠ 0) (hDirect : b < ndirBlocks) :
    blockContent ptrs disk (setIBlock inode b n) b' = if b' = b then some (disk n) else blockContent ptrs disk inode b' := by
  have hPath : mapPath ptrs b = some (b, []) := if_pos hDirect
  split
  case isTrue hSame =>
    subst hSame
    have hMapped : mappedBlock ptrs disk (setIBlock inode b' n) b' = n := by
      rw [mappedBlock_of_path hPath, follow]
      exact (load_store_array inode hSmall b').trans (if_pos rfl)
    rw [blockContent, hMapped, if_neg hPos]
  case isFalse hOther =>
    cases hPath' : mapPath ptrs b' with
    | none => rw [blockContent_of_none hPath', blockContent_of_none hPath']
    | some place =>
      obtain ⟨k, path⟩ := place
      refine blockContent_slot hSmall hPath' ?_
      rintro rfl
      have hDepth := (mapPath_spec hPath').2.1
      rw [slotDepth, Nat.sub_eq_zero_of_le hDirect, List.length_eq_zero_iff] at hDepth
      exact hOther (mapPath_inj hPath' (hDepth ▸ hPath))

theorem mapPath_single (hFar : ¬ b < ndirBlocks) (hNear : b - ndirBlocks < ptrs) :
    mapPath ptrs b = some (indBlock, [b - ndirBlocks]) := by
  rw [mapPath, if_neg hFar, if_pos hNear]

theorem mapPath_eq_single {path : List Nat} (h : mapPath ptrs b = some (indBlock, path)) :
    ¬ b < ndirBlocks ∧ b - ndirBlocks < ptrs ∧ path = [b - ndirBlocks] := by
  unfold mapPath at h
  split at h
  case isTrue hDirect =>
    cases h
    exact absurd hDirect (by decide)
  case isFalse hFar =>
    split at h
    case isTrue hNear =>
      cases h
      exact ⟨hFar, hNear, rfl⟩
    case isFalse hBeyond => split at h <;> cases h

theorem blockContent_single (hFar : ¬ b < ndirBlocks) (hNear : b - ndirBlocks < ptrs) (hInd : iBlock inode indBlock ≠ 0) :
    blockContent ptrs disk inode b =
      if pointer disk (iBlock inode indBlock) (b - ndirBlocks) = 0 then none
      else some (disk (pointer disk (iBlock inode indBlock) (b - ndirBlocks))) := by
  have hMapped : mappedBlock ptrs disk inode b = pointer disk (iBlock inode indBlock) (b - ndirBlocks) := by
    rw [mappedBlock_of_path (mapPath_single hFar hNear), follow, if_neg hInd, follow]
  rw [blockContent, hMapped]

end Paths

/-! ### Writes -/

section Writes

variable {geo : Geometry} {disk : Nat → Mem} {slots : Nat → Nat → Nat} {ino b b' k c n : Nat} {path : List Nat}
  {inode buf : Mem}

def SlotsOf (slots : Nat → Nat → Nat) (ino : Nat) (inode : Mem) : Prop := ∀ k < 15, slots ino k = iBlock inode k

theorem slotsOf_withInode (base : Nat → Nat → Nat) (ino : Nat) (inode : Mem) :
    SlotsOf (withInode base ino inode) ino inode := fun _ _ => if_pos rfl

theorem SlotsOf.refers (hSlots : SlotsOf slots ino inode) (hIno : geo.HasInode ino)
    (hPath : mapPath geo.ptrsPerBlock b = some (k, path)) (hMapped : mappedBlock geo.ptrsPerBlock disk inode b ≠ 0) :
    geo.Refers disk slots (.file ino k path) (mappedBlock geo.ptrsPerBlock disk inode b) := by
  obtain ⟨hk, hDepth, hEntries⟩ := mapPath_spec hPath
  refine ⟨⟨hIno, hk, hDepth.le, hEntries⟩, ?_, hMapped⟩
  rw [hSlots k hk, mappedBlock_of_path hPath]

theorem blockContent_update (hSlots : SlotsOf slots ino inode) (hIno : geo.HasInode ino)
    (hOther : ∀ k path, ¬ geo.Refers disk slots (.file ino k path) c) :
    blockContent geo.ptrsPerBlock (Function.update disk c buf) inode b = blockContent geo.ptrsPerBlock disk inode b := by
  cases hPath : mapPath geo.ptrsPerBlock b with
  | none => rw [blockContent_of_none hPath, blockContent_of_none hPath]
  | some place =>
    obtain ⟨k, path⟩ := place
    obtain ⟨hk, hDepth, hEntries⟩ := mapPath_spec hPath
    have hSlot : geo.HasSlot ino k path := ⟨hIno, hk, hDepth.le, hEntries⟩
    have hMapped : mappedBlock geo.ptrsPerBlock (Function.update disk c buf) inode b =
        mappedBlock geo.ptrsPerBlock disk inode b := by
      rw [mappedBlock_of_path hPath, mappedBlock_of_path hPath]
      refine follow_update fun p j q hSplit hHere => Classical.byContradiction fun hPos => ?_
      subst hSplit
      exact hOther k p ⟨hSlot.init.front.1, by rw [hSlots k hk, hHere], hPos⟩
    unfold blockContent
    rw [hMapped]
    split
    case isTrue hHole => rfl
    case isFalse hSome =>
      rw [Function.update_of_ne]
      rintro rfl
      exact hOther k path (hSlots.refers hIno hPath hSome)

theorem blockContent_write (hSlots : SlotsOf slots ino inode) (hWorld : geo.World disk slots) (hIno : geo.HasInode ino)
    (hMapped : mappedBlock geo.ptrsPerBlock disk inode b ≠ 0) :
    blockContent geo.ptrsPerBlock (Function.update disk (mappedBlock geo.ptrsPerBlock disk inode b) buf) inode b' =
      if b' = b then some buf else blockContent geo.ptrsPerBlock disk inode b' := by
  cases hPath : mapPath geo.ptrsPerBlock b with
  | none => exact absurd (mappedBlock_of_none hPath) hMapped
  | some place =>
    obtain ⟨k, path⟩ := place
    have hHere := hSlots.refers hIno hPath hMapped
    have hInert := (hWorld.writable_leaf hHere (mapPath_spec hPath).2.1).inert
    cases hPath' : mapPath geo.ptrsPerBlock b' with
    | none =>
      have hOther : b' ≠ b := by
        rintro rfl
        rw [hPath] at hPath'
        cases hPath'
      rw [if_neg hOther, blockContent_of_none hPath', blockContent_of_none hPath']
    | some place' =>
      obtain ⟨k', path'⟩ := place'
      obtain ⟨hk, hDepth, hEntries⟩ := mapPath_spec hPath'
      have hKept : mappedBlock geo.ptrsPerBlock
          (Function.update disk (mappedBlock geo.ptrsPerBlock disk inode b) buf) inode b' =
          mappedBlock geo.ptrsPerBlock disk inode b' := by
        rw [mappedBlock_of_path hPath', mappedBlock_of_path hPath', ← hSlots k' hk]
        exact hInert.follow ⟨hIno, hk, hDepth.le, hEntries⟩
      unfold blockContent
      rw [hKept]
      split
      case isTrue hHole =>
        rw [if_neg]
        rintro rfl
        exact hMapped hHole
      case isFalse hSome =>
        split
        case isTrue hSame => rw [hSame, Function.update_self]
        case isFalse hOther =>
          rw [Function.update_of_ne]
          intro hClash
          have hThere := hSlots.refers hIno hPath' hSome
          rw [hClash] at hThere
          cases hWorld.own.unique hHere hThere
          exact hOther (mapPath_inj hPath' hPath)

theorem blockContent_mapEntry (hSlots : SlotsOf slots ino inode) (hWorld : geo.World disk slots)
    (hIno : geo.HasInode ino) (hFresh : geo.Fresh disk slots n) (hInd : iBlock inode indBlock ≠ 0)
    (hFar : ¬ b < ndirBlocks) (hNear : b - ndirBlocks < geo.ptrsPerBlock) :
    blockContent geo.ptrsPerBlock (Function.update disk (iBlock inode indBlock)
        (store (disk (iBlock inode indBlock)) (4 * (b - ndirBlocks)) 4 n)) inode b' =
      if b' = b then some (disk n) else blockContent geo.ptrsPerBlock disk inode b' := by
  have hRoot : geo.Refers disk slots (.file ino indBlock []) (iBlock inode indBlock) :=
    ⟨⟨hIno, by decide, Nat.zero_le _, nofun⟩, hSlots indBlock (by decide), hInd⟩
  have hEntry : ∀ i, pointer (Function.update disk (iBlock inode indBlock)
      (store (disk (iBlock inode indBlock)) (4 * (b - ndirBlocks)) 4 n)) (iBlock inode indBlock) i =
      if i = b - ndirBlocks then n else pointer disk (iBlock inode indBlock) i := by
    intro i
    have hArray := load_store_array (disk (iBlock inode indBlock)) (c := 0) (j := b - ndirBlocks) hFresh.small i
    simp only [Nat.zero_add] at hArray
    rw [pointer, Function.update_self]
    exact hArray
  have hApart : n ≠ iBlock inode indBlock := by
    intro hSame
    exact hFresh.unreferred _ (hSame ▸ hRoot)
  cases hPath : mapPath geo.ptrsPerBlock b' with
  | none =>
    have hOther : b' ≠ b := by
      rintro rfl
      rw [mapPath_single hFar hNear] at hPath
      cases hPath
    rw [if_neg hOther, blockContent_of_none hPath, blockContent_of_none hPath]
  | some place =>
    obtain ⟨k, path⟩ := place
    obtain ⟨hk, hDepth, hEntries⟩ := mapPath_spec hPath
    have hSlot : geo.HasSlot ino k path := ⟨hIno, hk, hDepth.le, hEntries⟩
    by_cases hSingle : k = indBlock
    · subst hSingle
      obtain ⟨hFar', hNear', rfl⟩ := mapPath_eq_single hPath
      rw [blockContent_single hFar' hNear' hInd, blockContent_single hFar' hNear' hInd, hEntry]
      by_cases hSame : b' = b
      · have hHere : b' - ndirBlocks = b - ndirBlocks := by rw [hSame]
        rw [if_pos hSame, if_pos hHere, if_neg hFresh.pos, Function.update_of_ne hApart]
      · have hElse : b' - ndirBlocks ≠ b - ndirBlocks := by omega
        rw [if_neg hSame, if_neg hElse]
        split
        case isTrue hHole => rfl
        case isFalse hSome =>
          rw [Function.update_of_ne]
          intro hClash
          have hThere : geo.Refers disk slots (.file ino indBlock [b' - ndirBlocks])
              (pointer disk (iBlock inode indBlock) (b' - ndirBlocks)) := by
            refine ⟨hSlot, ?_, hSome⟩
            rw [hSlots indBlock (by decide), follow, if_neg hInd, follow]
          rw [hClash] at hThere
          cases hWorld.own.unique hRoot hThere
    · have hOther : b' ≠ b := by
        rintro rfl
        rw [mapPath_single hFar hNear] at hPath
        cases hPath
        exact hSingle rfl
      rw [if_neg hOther]
      have hKept : mappedBlock geo.ptrsPerBlock (Function.update disk (iBlock inode indBlock)
          (store (disk (iBlock inode indBlock)) (4 * (b - ndirBlocks)) 4 n)) inode b' =
          mappedBlock geo.ptrsPerBlock disk inode b' := by
        rw [mappedBlock_of_path hPath, mappedBlock_of_path hPath]
        refine follow_update fun p j q hSplit hHere => Classical.byContradiction fun hPos => ?_
        subst hSplit
        have hThere : geo.Refers disk slots (.file ino k p) (iBlock inode indBlock) :=
          ⟨hSlot.init.front.1, by rw [hSlots k hk, hHere], hPos⟩
        cases hWorld.own.unique hRoot hThere
        exact hSingle rfl
      unfold blockContent
      rw [hKept]
      split
      case isTrue hHole => rfl
      case isFalse hSome =>
        rw [Function.update_of_ne]
        intro hClash
        have hThere := hSlots.refers hIno hPath hSome
        rw [hClash] at hThere
        cases hWorld.own.unique hRoot hThere
        exact hSingle rfl

end Writes

/-! ### Between calls -/

theorem load_inodeOn_write {fs : Ext4Fs} {disk : Nat → Mem} {ino w off : Nat} {inode : Mem} (hField : off + w ≤ inodeBytes) :
    load (fs.inodeOn (Function.update disk (fs.inodeBlock ino)
      (fill (disk (fs.inodeBlock ino)) (fs.inodeOffset ino) inodeBytes inode)) ino) w off = load inode w off := by
  unfold Ext4Fs.inodeOn
  rw [load_shift, Function.update_self]
  exact load_fill_inside hField

def Image.served (im : Image) : Volume := ⟨im.fs, im.disk, fun _ => true, fun _ => true, fun _ => true⟩

end UnixOS.Fs.Ext4
