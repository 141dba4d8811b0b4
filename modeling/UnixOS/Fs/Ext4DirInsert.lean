import UnixOS.Fs.Ext4Content
import UnixOS.Fs.Ext4Dir

/-! # Adding an entry to a directory

An insertion either splits a record of one block or adds a block with the one record. Until the inode is written
back, what it does elsewhere does not show in the directory: the blocks it takes are in nobody's use, and an entry
of the indirect block lies behind the end of the directory.
-/

namespace UnixOS.Fs.Ext4

open ByteMemory ByteBitmap Fallible

/-! ### The directory on disk -/

def dirBlocks (blockSize : Nat) (inode : Mem) : Nat := (iSizeLo inode + blockSize - 1) / blockSize

def Ext4Fs.dirContent (fs : Ext4Fs) (disk : Nat → Mem) (ino : Nat) : List (Option Mem) :=
  (List.range (dirBlocks fs.blockSize (fs.inodeOn disk ino))).map
    (blockContent fs.ptrsPerBlock disk (fs.inodeOn disk ino))

/-- A directory as a call found it: its inode, the block of the inode table that holds it, and its blocks. -/
structure DirSeen where
  ino : Nat
  inode : Mem
  table : Mem
  count : Nat
  content : Nat → Option Mem

/-- The directory is on disk as it was found, and the blocks of `taken` are marked and in nobody's use. -/
structure DirSeen.Kept (d : DirSeen) (geo : Geometry) (base : Nat → Nat → Nat) (taken : List Nat) (fs : Ext4Fs)
    (disk : Nat → Mem) : Prop where
  good : Good geo base base taken fs disk
  table : disk (geo.inodeBlock d.ino) = d.table
  content : ∀ b < d.count, blockContent geo.ptrsPerBlock disk d.inode b = d.content b

section Kept

variable {geo : Geometry} {base : Nat → Nat → Nat} {taken : List Nat} {d : DirSeen} {fs : Ext4Fs} {disk : Nat → Mem}

theorem Good.inHand {ino : Nat} {inode : Mem} (h : Good geo base base taken fs disk) (hSlots : SlotsOf base ino inode) :
    Good geo base (withInode base ino inode) taken fs disk := by
  refine h.congr fun i k _ hk => ?_
  unfold withInode
  split
  case isTrue hSame => rw [hSame, hSlots k hk]
  case isFalse hOther => rfl

theorem Good.ofHand {ino : Nat} {inode : Mem} (h : Good geo base (withInode base ino inode) taken fs disk)
    (hSlots : SlotsOf base ino inode) : Good geo base base taken fs disk := by
  refine h.congr fun i k _ hk => ?_
  unfold withInode
  split
  case isTrue hSame => rw [hSame, hSlots k hk]
  case isFalse hOther => rfl

variable (hIno : geo.HasInode d.ino) (hSlots : SlotsOf base d.ino d.inode)
include hIno hSlots

theorem DirSeen.Kept.update {taken' : List Nat} {fs' : Ext4Fs} {c : Nat} {buf : Mem} (h : d.Kept geo base taken fs disk)
    (hOther : ∀ k path, ¬ geo.Refers disk base (.file d.ino k path) c) (hTable : geo.inodeBlock d.ino ≠ c)
    (hGood : Good geo base base taken' fs' (Function.update disk c buf)) :
    d.Kept geo base taken' fs' (Function.update disk c buf) := by
  refine ⟨hGood, ?_, fun b hb => ?_⟩
  · rw [Function.update_of_ne hTable, h.table]
  · rw [blockContent_update hSlots hIno hOther, h.content b hb]

theorem DirSeen.Kept.write {n : Nat} {buf : Mem} (h : d.Kept geo base taken fs disk) (hn : n ∈ taken) :
    d.Kept geo base taken fs (Function.update disk n buf) := by
  have hFresh := h.good.fresh n hn
  have hWritable := hFresh.writable h.good.world.sound
  exact h.update hIno hSlots (fun k path => hFresh.unreferred _) (hWritable.inodeBlock_ne _ hIno)
    (h.good.write hWritable)

omit hSlots in
theorem Good.bitmap_apart {g : Nat} (h : Good geo base base taken fs disk) (hg : g < geo.groupCount) :
    (∀ k path, ¬ geo.Refers disk base (.file d.ino k path) (geo.blockBitmap g)) ∧
      geo.inodeBlock d.ino ≠ geo.blockBitmap g := by
  have hHere : geo.Refers disk base (.blockBitmap g) (geo.blockBitmap g) := ⟨hg, rfl⟩
  refine ⟨fun k path hThere => ?_, h.world.bitmap_ne_inodeBlock hg _ hIno⟩
  cases h.world.own.unique hHere hThere

theorem DirSeen.Kept.take {g index : Nat} (h : d.Kept geo base taken fs disk) (hg : g < geo.groupCount)
    (hFound : findFreeBit (disk (blockBitmap.block fs g)) (blockBitmap.bytes fs) (blockBitmap.limit fs) = some index) :
    d.Kept geo base (geo.blockAt g index :: taken) (blockBitmap.taken fs disk g index).1
        (blockBitmap.taken fs disk g index).2 ∧
      geo.blockAt g index ∉ taken ∧ ∀ n ∈ taken, (blockBitmap.taken fs disk g index).2 n = disk n := by
  have hApart := h.good.bitmap_apart hIno hg
  obtain ⟨hGood, hNew⟩ := h.good.take hg hFound
  have hBlock : blockBitmap.block fs g = geo.blockBitmap g := by
    rw [← h.good.geometry]
    rfl
  refine ⟨h.update hIno hSlots (hBlock ▸ hApart.1) (hBlock ▸ hApart.2) hGood, hNew, fun n hn => ?_⟩
  refine Function.update_of_ne ?_ _ _
  rintro rfl
  exact (h.good.fresh _ hn).unreferred (.blockBitmap g) ⟨hg, hBlock.symm⟩

theorem DirSeen.Kept.release {g index : Nat} (h : d.Kept geo base [geo.blockAt g index] fs disk) (hg : g < geo.groupCount) :
    d.Kept geo base [] (blockBitmap.released fs disk g index).1 (blockBitmap.released fs disk g index).2 := by
  have hApart := h.good.bitmap_apart hIno hg
  have hBlock : blockBitmap.block fs g = geo.blockBitmap g := by
    rw [← h.good.geometry]
    rfl
  exact h.update hIno hSlots (hBlock ▸ hApart.1) (hBlock ▸ hApart.2) (h.good.release hg)

omit hIno hSlots in
theorem DirSeen.Kept.drop {taken' : List Nat} (h : d.Kept geo base taken fs disk) (hSub : ∀ n ∈ taken', n ∈ taken) :
    d.Kept geo base taken' fs disk := ⟨h.good.drop hSub, h.table, h.content⟩

end Kept

/-! ### Mapping the new block -/

section Mapping

variable {sure : Prop} {geo : Geometry} {base : Nat → Nat → Nat} {d : DirSeen} {new : Mem} {E : Volume → Prop}

structure DirSeen.Written (d : DirSeen) (geo : Geometry) (base : Nat → Nat → Nat) (n : Nat) (new : Mem)
    (taken : List Nat) (fs : Ext4Fs) (disk : Nat → Mem) : Prop where
  kept : d.Kept geo base taken fs disk
  mem : n ∈ taken
  block : disk n = new

def DirSeen.Longer (d : DirSeen) (geo : Geometry) (new inode : Mem) (disk : Nat → Mem) : Prop :=
  ∀ table, ∀ b ≤ d.count, blockContent geo.ptrsPerBlock (Function.update disk (geo.inodeBlock d.ino) table) inode b =
    if b = d.count then some new else d.content b

variable (hIno : geo.HasInode d.ino) (hSlots : SlotsOf base d.ino d.inode)

section Steps

variable {taken : List Nat} {n : Nat} {fs : Ext4Fs} {disk : Nat → Mem}

include hIno in
theorem Good.table_apart (h : Good geo base base taken fs disk) :
    ∀ k path, ¬ geo.Refers disk base (.file d.ino k path) (geo.inodeBlock d.ino) := by
  intro k path hThere
  cases h.world.own.unique (h.world.sound.refers_inodeBlock hIno) hThere

include hIno hSlots in
theorem DirSeen.Kept.content_table (h : d.Kept geo base taken fs disk) (table : Mem) {b : Nat} (hb : b < d.count) :
    blockContent geo.ptrsPerBlock (Function.update disk (geo.inodeBlock d.ino) table) d.inode b = d.content b := by
  rw [blockContent_update hSlots hIno (h.good.table_apart hIno), h.content b hb]

include hIno hSlots in
theorem DirSeen.Written.entry (h : d.Written geo base n new [n] fs disk) (hInd : iBlock d.inode indBlock ≠ 0)
    (hFar : ¬ d.count < ndirBlocks) (hNear : d.count - ndirBlocks < geo.ptrsPerBlock) :
    let disk' := Function.update disk (iBlock d.inode indBlock)
      (store (disk (iBlock d.inode indBlock)) (4 * (d.count - ndirBlocks)) 4 n)
    d.Kept geo base [] fs disk' ∧ d.Longer geo new d.inode disk' := by
  intro disk'
  have hFresh := h.kept.good.fresh n h.mem
  have hGood : Good geo base base [] fs disk' :=
    ((h.kept.good.inHand hSlots).mapEntry hIno hInd hNear).1.ofHand hSlots
  have hContent : ∀ b, blockContent geo.ptrsPerBlock disk' d.inode b =
      if b = d.count then some new else blockContent geo.ptrsPerBlock disk d.inode b := fun b => by
    rw [← h.block]
    exact blockContent_mapEntry hSlots h.kept.good.world hIno hFresh hInd hFar hNear
  have hRoot : geo.Refers disk base (.file d.ino indBlock []) (iBlock d.inode indBlock) :=
    ⟨⟨hIno, by decide, Nat.zero_le _, nofun⟩, hSlots indBlock (by decide), hInd⟩
  refine ⟨⟨hGood, ?_, fun b hb => ?_⟩, fun table b hb => ?_⟩
  · refine (Function.update_of_ne ?_ _ _).trans h.kept.table
    exact fun hSame => h.kept.good.table_apart hIno _ _ (hSame ▸ hRoot)
  · rw [hContent, if_neg (by omega), h.kept.content b hb]
  · rw [blockContent_update hSlots hIno (hGood.table_apart hIno), hContent]
    split
    case isTrue hLast => rfl
    case isFalse hEarlier => exact h.kept.content b (by omega)

structure DirSeen.Indirect (d : DirSeen) (geo : Geometry) (ind n : Nat) (disk : Nat → Mem) : Prop where
  entry : pointer disk ind (d.count - ndirBlocks) = n
  others : ∀ b < d.count, ¬ b < ndirBlocks → pointer disk ind (b - ndirBlocks) = 0

include hIno hSlots in
theorem DirSeen.Written.indirect {ind : Nat} (h : d.Written geo base n new taken fs disk) (hMem : ind ∈ taken)
    (hHole : iBlock d.inode indBlock = 0) (hInd : d.Indirect geo ind n disk)
    (hFar : ¬ d.count < ndirBlocks) (hNear : d.count - ndirBlocks < geo.ptrsPerBlock) :
    d.Longer geo new (setIBlock d.inode indBlock ind) disk := by
  have hFresh := h.kept.good.fresh n h.mem
  have hFreshInd := h.kept.good.fresh ind hMem
  have hTable : ∀ m ∈ taken, m ≠ geo.inodeBlock d.ino := by
    rintro m hm rfl
    exact (h.kept.good.fresh _ hm).unreferred _ (h.kept.good.world.sound.refers_inodeBlock hIno)
  have hSlot : iBlock (setIBlock d.inode indBlock ind) indBlock = ind :=
    (load_store_array d.inode hFreshInd.small indBlock).trans (if_pos rfl)
  have hSlotPos : iBlock (setIBlock d.inode indBlock ind) indBlock ≠ 0 := by
    rw [hSlot]
    exact hFreshInd.pos
  intro table b hb
  have hPointer : ∀ j, pointer (Function.update disk (geo.inodeBlock d.ino) table) ind j = pointer disk ind j := by
    intro j
    rw [pointer, Function.update_of_ne (hTable ind hMem), pointer]
  cases hPath : mapPath geo.ptrsPerBlock b with
  | none =>
    have hOther : b ≠ d.count := by
      rintro rfl
      rw [mapPath_single hFar hNear] at hPath
      cases hPath
    rw [blockContent_of_none hPath, if_neg hOther, ← h.kept.content b (by omega), blockContent_of_none hPath]
  | some place =>
    obtain ⟨k, path⟩ := place
    by_cases hSingle : k = indBlock
    · subst hSingle
      obtain ⟨hFar', hNear', rfl⟩ := mapPath_eq_single hPath
      rw [blockContent_single hFar' hNear' hSlotPos, hSlot, hPointer]
      by_cases hLast : b = d.count
      · subst hLast
        rw [hInd.entry, if_neg hFresh.pos, if_pos rfl, Function.update_of_ne (hTable n h.mem), h.block]
      · have hMapped : mappedBlock geo.ptrsPerBlock disk d.inode b = 0 := by
          rw [mappedBlock_of_path hPath, hHole, follow_zero]
        rw [hInd.others b (by omega) hFar', if_pos rfl, if_neg hLast, ← h.kept.content b (by omega), blockContent,
          if_pos hMapped]
    · have hOther : b ≠ d.count := by
        rintro rfl
        rw [mapPath_single hFar hNear] at hPath
        cases hPath
        exact hSingle rfl
      rw [if_neg hOther, blockContent_slot hFreshInd.small hPath hSingle]
      exact h.kept.content_table hIno hSlots table (by omega)

end Steps

section Calls

variable {n : Nat} {fs : Ext4Fs} {disk : Nat → Mem}

def DirSeen.Ready (d : DirSeen) (geo : Geometry) (base : Nat → Nat → Nat) (n : Nat) (new inode : Mem) (fs : Ext4Fs)
    (disk : Nat → Mem) : Prop :=
  (iBlock d.inode indBlock ≠ 0 ∧ inode = d.inode ∧ d.Written geo base n new [n] fs disk) ∨
    ∃ ind, ind ≠ n ∧ iBlock d.inode indBlock = 0 ∧ inode = setIBlock d.inode indBlock ind ∧
      d.Written geo base n new [ind, n] fs disk ∧
      ∀ b < d.count, ¬ b < ndirBlocks → pointer disk ind (b - ndirBlocks) = 0

theorem DirSeen.Ready.kept {inode : Mem} (h : d.Ready geo base n new inode fs disk) : d.Kept geo base [n] fs disk := by
  rcases h with ⟨-, -, hWritten⟩ | ⟨ind, -, -, -, hWritten, -⟩
  · exact hWritten.kept
  · exact hWritten.kept.drop fun m hm => List.mem_cons_of_mem ind hm

end Calls

end Mapping

/-! ### The two ways to insert -/

section Insert

variable {sure : Prop} {geo : Geometry} {base : Nat → Nat → Nat} {d : DirSeen} {e : DirEntry} {E : Volume → Prop}

def DirSeen.Split (d : DirSeen) (geo : Geometry) (e : DirEntry) (fs : Ext4Fs) (disk : Nat → Mem) : Prop :=
  fs.geometry = geo ∧ disk (geo.inodeBlock d.ino) = d.table ∧
    ∃ b buf pre o post, b < d.count ∧ d.content b = some buf ∧ TiledBy buf geo.blockSize (pre ++ o :: post) ∧
      actualAt buf o + e.size ≤ recLenAt buf o ∧
      ∀ b' < d.count, blockContent geo.ptrsPerBlock disk d.inode b' =
        if b' = b then some (splitRecord e buf o) else d.content b'

variable (hIno : geo.HasInode d.ino) (hSlots : SlotsOf base d.ino d.inode)
include hIno hSlots

def DirSeen.Grown (d : DirSeen) (geo : Geometry) (new : Mem) (fs : Ext4Fs) (disk : Nat → Mem) : Prop :=
  fs.geometry = geo ∧ fs.dirContent disk d.ino = (List.range d.count).map d.content ++ [some new]

omit hIno hSlots in
theorem DirSeen.Longer.grown {new inode : Mem} {fs : Ext4Fs} {disk : Nat → Mem} (hGeo : fs.geometry = geo)
    (hSound : geo.Sound) (hCount : d.count = dirBlocks geo.blockSize d.inode) (h : d.Longer geo new inode disk)
    (hSize : iSizeLo inode = iSizeLo d.inode) (hFew : d.count < ndirBlocks + geo.ptrsPerBlock) (added : Nat) :
    d.Grown geo new fs (Function.update disk (fs.inodeBlock d.ino) (fill (disk (fs.inodeBlock d.ino))
      (fs.inodeOffset d.ino) inodeBytes (addIBlocks (setISizeLo inode (iSizeLo inode + fs.blockSize)) added))) := by
  subst hGeo
  set inode' := addIBlocks (setISizeLo inode (iSizeLo inode + fs.blockSize)) added with hInode'
  have hBlockSize : fs.geometry.blockSize = fs.blockSize := rfl
  have hPos : 0 < fs.blockSize := Nat.lt_of_lt_of_le (by decide) hSound.blockSize_ge
  have hNewSize : iSizeLo inode' = iSizeLo d.inode + fs.blockSize := by
    have hFloor : iSizeLo d.inode ≤ d.count * fs.blockSize := by
      rw [hCount, dirBlocks, hBlockSize]
      have hSplit := Nat.div_add_mod (iSizeLo d.inode + fs.blockSize - 1) fs.blockSize
      have hMod := Nat.mod_lt (iSizeLo d.inode + fs.blockSize - 1) hPos
      rw [Nat.mul_comm] at hSplit
      omega
    have hLimit : d.count * fs.blockSize ≤ 16396 * 65536 := by
      have hLe : fs.blockSize ≤ 65536 := hSound.blockSize_le
      have hPtrs : fs.geometry.ptrsPerBlock = fs.blockSize / 4 := rfl
      have hDir : ndirBlocks = 12 := rfl
      exact Nat.mul_le_mul (by omega) hLe
    have hLe : fs.blockSize ≤ 65536 := hSound.blockSize_le
    rw [hInode', addIBlocks, iSizeLo, load_store_disjoint (by omega), setISizeLo, load_store_same_of_lt (by omega), hSize]
  have hSlots : ∀ k < 15, iBlock inode' k = iBlock inode k := by
    intro k hk
    rw [hInode', addIBlocks, iBlock_store (by omega) hk, setISizeLo, iBlock_store (by omega) hk]
  refine ⟨rfl, ?_⟩
  have hBytes : inodeBytes = 116 := rfl
  have hOnSize : iSizeLo (fs.inodeOn (Function.update disk (fs.inodeBlock d.ino) (fill (disk (fs.inodeBlock d.ino))
      (fs.inodeOffset d.ino) inodeBytes inode')) d.ino) = iSizeLo d.inode + fs.blockSize :=
    (load_inodeOn_write (by omega)).trans hNewSize
  have hBlocks : dirBlocks fs.blockSize (fs.inodeOn (Function.update disk (fs.inodeBlock d.ino)
      (fill (disk (fs.inodeBlock d.ino)) (fs.inodeOffset d.ino) inodeBytes inode')) d.ino) = d.count + 1 := by
    rw [hCount, dirBlocks, hOnSize, dirBlocks, hBlockSize, ← Nat.add_div_right _ hPos]
    congr 1
    omega
  have hContent : ∀ b ≤ d.count, blockContent fs.ptrsPerBlock (Function.update disk (fs.inodeBlock d.ino)
      (fill (disk (fs.inodeBlock d.ino)) (fs.inodeOffset d.ino) inodeBytes inode'))
      (fs.inodeOn (Function.update disk (fs.inodeBlock d.ino)
        (fill (disk (fs.inodeBlock d.ino)) (fs.inodeOffset d.ino) inodeBytes inode')) d.ino) b =
      if b = d.count then some new else d.content b := by
    intro b hb
    rw [← h _ b hb]
    refine blockContent_congr fun k hk => ?_
    exact (load_inodeOn_write (by omega)).trans (hSlots k hk)
  rw [Ext4Fs.dirContent, hBlocks, List.range_succ, List.map_append, List.map_singleton, hContent _ (Nat.le_refl _),
    if_pos rfl]
  congr 1
  refine List.map_congr_left fun b hb => ?_
  have hLt := List.mem_range.mp hb
  rw [hContent b hLt.le, if_neg hLt.ne]

end Insert

/-! ### The whole call -/

section Whole

variable {sure : Prop} {ino : Nat} {e : DirEntry} {im : Image}

inductive Added (blockSize : Nat) (e : DirEntry) (old : List (Option Mem)) : List (Option Mem) → Prop where
  | split {before after : List (Option Mem)} {buf : Mem} {pre post : List Nat} {o : Nat}
      (hOld : old = before ++ some buf :: after) (hTiled : TiledBy buf blockSize (pre ++ o :: post))
      (hRoom : actualAt buf o + e.size ≤ recLenAt buf o) :
      Added blockSize e old (before ++ some (splitRecord e buf o) :: after)
  | grow : Added blockSize e old (old ++ [some (e.write zeroBlock 0 blockSize)])

end Whole

/-! ### A small directory -/

theorem Image.Consistent.write {im : Image} {b : Nat} {buf : Mem} (h : im.Consistent)
    (hWritable : im.fs.geometry.Writable im.disk (im.fs.geometry.inodeSlots im.disk) b) :
    Image.Consistent ⟨im.fs, Function.update im.disk b buf⟩ := by
  have hSlots : ∀ i k, im.fs.geometry.HasInode i → k < 15 →
      im.fs.geometry.inodeSlots (Function.update im.disk b buf) i k = im.fs.geometry.inodeSlots im.disk i k :=
    fun i k hi _ => inodeSlots_update hWritable.inodeBlock_ne i k hi
  have hRefers : ∀ p c, Image.Refers ⟨im.fs, Function.update im.disk b buf⟩ p c ↔ im.Refers p c := fun p c =>
    (Geometry.Refers.congr hSlots p c).trans (hWritable.inert.refers p c)
  have hUsed : ∀ c, Image.Used ⟨im.fs, Function.update im.disk b buf⟩ c ↔ im.Used c := used_update hWritable.bitmap_ne
  refine ⟨h.sound, h.exclusive.mono (fun p c => (hRefers p c).mp) fun c => (hUsed c).mpr,
    fun hFirst => (hUsed 0).mpr (h.boot hFirst), fun c hc => ?_⟩
  cases h.marked c ((hUsed c).mp hc) with
  | inl hReferred =>
    obtain ⟨p, hp⟩ := hReferred
    exact Or.inl ⟨p, (hRefers p c).mpr hp⟩
  | inr hReserved => exact Or.inr hReserved

end UnixOS.Fs.Ext4
