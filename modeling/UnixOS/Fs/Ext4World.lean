import UnixOS.Fs.Ext4Layout

/-! # Steps that keep a volume consistent

The elementary changes the driver makes to the disk and to an inode it has in hand: data written to
a block no file reads pointers from, a bit taken or given back, a fresh block entered in a slot or
in an indirect block, an inode written to its table.
-/

namespace UnixOS.Fs.Ext4

open ByteMemory ByteBitmap Ownership

variable {geo : Geometry} {disk : Nat → Mem} {slots : Nat → Nat → Nat} {b n : Nat} {buf : Mem}

theorem Geometry.HasSlot.front {ino k j : Nat} {path : List Nat}
    (h : geo.HasSlot ino k (path ++ [j])) :
    geo.HasSlot ino k path ∧ path.length < slotDepth k := by
  have hDepth := h.depth
  rw [List.length_append, List.length_singleton] at hDepth
  refine ⟨⟨h.inode, h.slot, by omega, ?_⟩, hDepth⟩
  intro i hi
  exact h.entries i (List.mem_append_left _ hi)

theorem Geometry.World.inert (hWorld : geo.World disk slots) {p : Place}
    (hRefers : geo.Refers disk slots p b)
    (hOuter : ∀ ino k path, p = .file ino k path → slotDepth k ≤ path.length) :
    geo.Inert disk slots b := by
  intro ino k path j hSlot hb
  cases Nat.eq_zero_or_pos b with
  | inl hZero => exact hZero
  | inr hPos =>
    have hInner : geo.Refers disk slots (.file ino k path) b := ⟨hSlot.front.1, hb, by omega⟩
    have hSame := hWorld.own.unique hRefers hInner
    have hDepth := hOuter ino k path hSame
    exact absurd hSlot.front.2 (by omega)

/-- Block `b` may be overwritten: no pointers are read from it, and it is no block bitmap and no
part of an inode table. -/
structure Geometry.Writable (geo : Geometry) (disk : Nat → Mem) (slots : Nat → Nat → Nat)
    (b : Nat) : Prop where
  inert : geo.Inert disk slots b
  bitmap_ne : ∀ g < geo.groupCount, geo.blockBitmap g ≠ b
  inodeBlock_ne : ∀ ino, geo.HasInode ino → geo.inodeBlock ino ≠ b

theorem Geometry.Writable.congr {slots' : Nat → Nat → Nat} (h : geo.Writable disk slots b)
    (hSlots : ∀ ino k, geo.HasInode ino → k < 15 → slots' ino k = slots ino k) :
    geo.Writable disk slots' b := by
  refine ⟨?_, h.bitmap_ne, h.inodeBlock_ne⟩
  intro ino k path j hSlot hb
  rw [hSlots ino k hSlot.inode hSlot.slot] at hb
  exact h.inert ino k path j hSlot hb

structure Geometry.Fresh (geo : Geometry) (disk : Nat → Mem) (slots : Nat → Nat → Nat)
    (n : Nat) : Prop where
  used : geo.Used disk n
  pos : n ≠ 0
  small : n < 2 ^ 32
  unreferred : ∀ p, ¬ geo.Refers disk slots p n

theorem Geometry.Sound.inodeByte_lt (hSound : geo.Sound) (ino : Nat) :
    geo.inodeByte ino < geo.inodesPerGroup * geo.inodeSize := by
  have hSize : 116 ≤ geo.inodeSize := hSound.inode_ge
  refine Nat.lt_of_le_of_lt (Nat.mod_le _ _) ?_
  exact (Nat.mul_lt_mul_right (by omega)).mpr (Nat.mod_lt _ hSound.inodes_pos)

theorem Geometry.Sound.refers_inodeBlock (hSound : geo.Sound) {ino : Nat} (hIno : geo.HasInode ino) :
    geo.Refers disk slots (.inodeTable (geo.inodeGroup ino) (geo.inodeByte ino / geo.blockSize))
      (geo.inodeBlock ino) := by
  refine ⟨hIno.2, ?_, rfl⟩
  have hByte := hSound.inodeByte_lt ino
  have hPos : 0 < geo.blockSize := Nat.lt_of_lt_of_le (by decide) hSound.blockSize_ge
  refine (Nat.le_div_iff_mul_le hPos).mpr ?_
  have hFloor := Nat.div_mul_le_self (geo.inodeByte ino) geo.blockSize
  rw [Nat.succ_mul]
  omega

theorem inodeSlots_update (hne : ∀ ino, geo.HasInode ino → geo.inodeBlock ino ≠ b) (ino k : Nat)
    (hIno : geo.HasInode ino) :
    geo.inodeSlots (Function.update disk b buf) ino k = geo.inodeSlots disk ino k := by
  rw [Geometry.inodeSlots, Function.update_of_ne (hne ino hIno), Geometry.inodeSlots]

theorem Geometry.World.writable (hWorld : geo.World disk slots) {p : Place}
    (hRefers : geo.Refers disk slots p b)
    (hOuter : ∀ ino k path, p = .file ino k path → slotDepth k ≤ path.length)
    (hBitmap : ∀ g, p ≠ .blockBitmap g) (hTable : ∀ g t, p ≠ .inodeTable g t) :
    geo.Writable disk slots b := by
  refine ⟨hWorld.inert hRefers hOuter, ?_, ?_⟩
  · intro g hg hSame
    have hHere : geo.Refers disk slots (.blockBitmap g) b := ⟨hg, hSame⟩
    exact hBitmap g (hWorld.own.unique hRefers hHere)
  · intro ino hIno hSame
    exact hTable _ _ (hWorld.own.unique hRefers (hSame ▸ hWorld.sound.refers_inodeBlock hIno))

theorem Geometry.World.writable_leaf (hWorld : geo.World disk slots) {ino k : Nat}
    {path : List Nat} (hRefers : geo.Refers disk slots (.file ino k path) b)
    (hLeaf : path.length = slotDepth k) : geo.Writable disk slots b := by
  refine hWorld.writable hRefers ?_ nofun nofun
  intro ino' k' path' hSame
  cases hSame
  exact hLeaf.ge

theorem Geometry.World.writable_inodeBitmap (hWorld : geo.World disk slots) {g : Nat}
    (hg : g < geo.groupCount) : geo.Writable disk slots (geo.inodeBitmap g) := by
  have hRefers : geo.Refers disk slots (.inodeBitmap g) (geo.inodeBitmap g) := ⟨hg, rfl⟩
  exact hWorld.writable hRefers nofun nofun nofun

theorem inert_of_unreferred (hUnused : ∀ p, ¬ geo.Refers disk slots p b) :
    geo.Inert disk slots b := by
  intro ino k path j hSlot hb
  exact Classical.byContradiction fun hPos => hUnused (.file ino k path) ⟨hSlot.front.1, hb, hPos⟩

theorem Geometry.Fresh.writable (hFresh : geo.Fresh disk slots n) (hSound : geo.Sound) :
    geo.Writable disk slots n := by
  refine ⟨inert_of_unreferred hFresh.unreferred, ?_, ?_⟩
  · exact fun g hg hSame => hFresh.unreferred (.blockBitmap g) ⟨hg, hSame⟩
  · intro ino hIno hSame
    exact hFresh.unreferred _ (hSame ▸ hSound.refers_inodeBlock hIno)

theorem Geometry.World.write (hWorld : geo.World disk slots) (hWritable : geo.Writable disk slots b) :
    geo.World (Function.update disk b buf) slots :=
  ⟨hWorld.sound,
    hWorld.own.mono (fun p c => (hWritable.inert.refers p c).mp)
      fun c => (used_update hWritable.bitmap_ne c).mpr,
    fun hFirst => (used_update hWritable.bitmap_ne 0).mpr (hWorld.boot hFirst)⟩

theorem Geometry.Fresh.write (hFresh : geo.Fresh disk slots n)
    (hWritable : geo.Writable disk slots b) :
    geo.Fresh (Function.update disk b buf) slots n :=
  ⟨(used_update hWritable.bitmap_ne n).mpr hFresh.used, hFresh.pos, hFresh.small,
    fun p hp => hFresh.unreferred p ((hWritable.inert.refers p n).mp hp)⟩

/-! ### Bitmap bits -/

def Geometry.blockAt (geo : Geometry) (g index : Nat) : Nat :=
  geo.firstDataBlock + g * geo.blocksPerGroup + index

theorem Geometry.blockAt_group {g index : Nat} (h : index < geo.blocksPerGroup) :
    (geo.blockAt g index - geo.firstDataBlock) / geo.blocksPerGroup = g ∧
      (geo.blockAt g index - geo.firstDataBlock) % geo.blocksPerGroup = index := by
  have hRel : geo.blockAt g index - geo.firstDataBlock = index + g * geo.blocksPerGroup := by
    unfold blockAt
    omega
  rw [hRel, Nat.add_mul_div_right _ _ (by omega), Nat.add_mul_mod_self_right,
    Nat.div_eq_of_lt h, Nat.mod_eq_of_lt h]
  omega

theorem Geometry.blockAt_div_mod (h : geo.firstDataBlock ≤ n) :
    geo.blockAt ((n - geo.firstDataBlock) / geo.blocksPerGroup)
      ((n - geo.firstDataBlock) % geo.blocksPerGroup) = n := by
  have hSplit := Nat.div_add_mod' (n - geo.firstDataBlock) geo.blocksPerGroup
  unfold blockAt
  omega

theorem Geometry.World.bitmap_inj (hWorld : geo.World disk slots) {g g' : Nat}
    (hg : g < geo.groupCount) (hg' : g' < geo.groupCount)
    (h : geo.blockBitmap g = geo.blockBitmap g') : g = g' := by
  have hSame := hWorld.own.unique (s := .blockBitmap g) (t := .blockBitmap g') ⟨hg, h⟩ ⟨hg', rfl⟩
  exact Place.blockBitmap.inj hSame

theorem Geometry.World.inert_bitmap (hWorld : geo.World disk slots) {g : Nat}
    (hg : g < geo.groupCount) : geo.Inert disk slots (geo.blockBitmap g) :=
  hWorld.inert (p := .blockBitmap g) ⟨hg, rfl⟩ nofun

theorem Geometry.World.bitmap_ne_inodeBlock (hWorld : geo.World disk slots) {g : Nat}
    (hg : g < geo.groupCount) (ino : Nat) (hIno : geo.HasInode ino) :
    geo.inodeBlock ino ≠ geo.blockBitmap g := by
  intro hSame
  have hClash := hWorld.own.unique (hWorld.sound.refers_inodeBlock hIno)
    (hSame ▸ ⟨hg, rfl⟩ : geo.Refers disk slots (.blockBitmap g) (geo.inodeBlock ino))
  cases hClash

theorem Geometry.World.used_bitmap (hWorld : geo.World disk slots) {g c : Nat}
    (hg : g < geo.groupCount) :
    geo.Used (Function.update disk (geo.blockBitmap g) buf) c ↔
      geo.firstDataBlock ≤ c ∧ (c - geo.firstDataBlock) / geo.blocksPerGroup < geo.groupCount ∧
        BitIsSet (if (c - geo.firstDataBlock) / geo.blocksPerGroup = g then buf
          else disk (geo.blockBitmap ((c - geo.firstDataBlock) / geo.blocksPerGroup)))
          ((c - geo.firstDataBlock) % geo.blocksPerGroup) := by
  have hRead : (c - geo.firstDataBlock) / geo.blocksPerGroup < geo.groupCount →
      Function.update disk (geo.blockBitmap g) buf
        (geo.blockBitmap ((c - geo.firstDataBlock) / geo.blocksPerGroup)) =
      if (c - geo.firstDataBlock) / geo.blocksPerGroup = g then buf
        else disk (geo.blockBitmap ((c - geo.firstDataBlock) / geo.blocksPerGroup)) := by
    intro hGroup
    split
    case isTrue hSame => rw [hSame, Function.update_self]
    case isFalse hOther =>
      exact Function.update_of_ne (fun h => hOther (hWorld.bitmap_inj hGroup hg h)) _ _
  constructor
  · rintro ⟨hFirst, hGroup, hBit⟩
    rw [hRead hGroup] at hBit
    exact ⟨hFirst, hGroup, hBit⟩
  · rintro ⟨hFirst, hGroup, hBit⟩
    refine ⟨hFirst, hGroup, ?_⟩
    rw [hRead hGroup]
    exact hBit

theorem Geometry.Sound.blockAt_lt (hSound : geo.Sound) {g index : Nat} (hg : g < geo.groupCount)
    (hIndex : index < geo.blocksPerGroup) : geo.blockAt g index < 2 ^ 32 := by
  have hBlocks := hSound.blocks_le
  have hGroups : (g + 1) * geo.blocksPerGroup ≤ geo.groupCount * geo.blocksPerGroup :=
    Nat.mul_le_mul_right _ hg
  rw [Nat.succ_mul] at hGroups
  unfold blockAt
  omega

theorem Geometry.World.take (hWorld : geo.World disk slots) {g index : Nat}
    (hg : g < geo.groupCount) (hIndex : index < geo.blocksPerGroup)
    (hFree : ¬ BitIsSet (disk (geo.blockBitmap g)) index) :
    let disk' := Function.update disk (geo.blockBitmap g) (setBit (disk (geo.blockBitmap g)) index)
    geo.World disk' slots ∧ geo.Fresh disk' slots (geo.blockAt g index) ∧
      ∀ n, geo.Fresh disk slots n → n ≠ geo.blockAt g index ∧ geo.Fresh disk' slots n := by
  intro disk'
  have hAt := geo.blockAt_group (g := g) hIndex
  have hNotUsed : ¬ geo.Used disk (geo.blockAt g index) := by
    rintro ⟨-, -, hBit⟩
    rw [hAt.1, hAt.2] at hBit
    exact hFree hBit
  have hGrows : ∀ c, geo.Used disk c → geo.Used disk' c := by
    rintro c ⟨hFirst, hGroup, hBit⟩
    refine (hWorld.used_bitmap hg).mpr ⟨hFirst, hGroup, ?_⟩
    split
    case isTrue hSame => exact bitIsSet_setBit.mpr (Or.inr (hSame ▸ hBit))
    case isFalse hOther => exact hBit
  have hNew : geo.Used disk' (geo.blockAt g index) := by
    refine (hWorld.used_bitmap hg).mpr ⟨Nat.le_add_right_of_le (Nat.le_add_right _ _), ?_, ?_⟩
    · rw [hAt.1]
      exact hg
    · rw [hAt.1, hAt.2, if_pos rfl]
      exact bitIsSet_setBit.mpr (Or.inl rfl)
  have hRefs : ∀ p c, geo.Refers disk' slots p c ↔ geo.Refers disk slots p c :=
    (hWorld.inert_bitmap hg).refers
  refine ⟨⟨hWorld.sound, hWorld.own.mono (fun p c => (hRefs p c).mp) hGrows,
    fun hFirst => hGrows 0 (hWorld.boot hFirst)⟩,
    ⟨hNew, ?_, hWorld.sound.blockAt_lt hg hIndex, ?_⟩, ?_⟩
  · intro hZero
    have hFirst : geo.firstDataBlock = 0 := by
      unfold blockAt at hZero
      omega
    exact hNotUsed (hZero ▸ hWorld.boot hFirst)
  · intro p hp
    exact hNotUsed (hWorld.own.held ((hRefs p _).mp hp))
  · intro n hn
    refine ⟨?_, hGrows n hn.used, hn.pos, hn.small, fun p hp => hn.unreferred p ((hRefs p n).mp hp)⟩
    rintro rfl
    exact hNotUsed hn.used

theorem Geometry.World.release (hWorld : geo.World disk slots) {g index : Nat}
    (hg : g < geo.groupCount) (hPos : geo.blockAt g index ≠ 0)
    (hUnused : ∀ p, ¬ geo.Refers disk slots p (geo.blockAt g index)) :
    geo.World (Function.update disk (geo.blockBitmap g)
      (clearBit (disk (geo.blockBitmap g)) index)) slots := by
  have hKeeps : ∀ c, c ≠ geo.blockAt g index → geo.Used disk c →
      geo.Used (Function.update disk (geo.blockBitmap g)
        (clearBit (disk (geo.blockBitmap g)) index)) c := by
    rintro c hne ⟨hFirst, hGroup, hBit⟩
    refine (hWorld.used_bitmap hg).mpr ⟨hFirst, hGroup, ?_⟩
    split
    case isFalse hOther => exact hBit
    case isTrue hSame =>
      -- in one group, different blocks have different indices
      refine (bitIsSet_clearBit ?_).mpr (hSame ▸ hBit)
      intro hSameIndex
      have hSplit := Nat.div_add_mod (c - geo.firstDataBlock) geo.blocksPerGroup
      rw [hSame, hSameIndex, Nat.mul_comm] at hSplit
      unfold blockAt at hne
      omega
  have hOwn := hWorld.own.release hUnused hKeeps
  exact ⟨hWorld.sound, hOwn.mono (fun p c => ((hWorld.inert_bitmap hg).refers p c).mp) fun _ => id,
    fun hZero => hKeeps 0 (Ne.symm hPos) (hWorld.boot hZero)⟩

/-! ### Entering a block in a file -/

def withInode (slots : Nat → Nat → Nat) (ino : Nat) (inode : Mem) : Nat → Nat → Nat := fun i k =>
  if i = ino then iBlock inode k else slots i k

theorem Geometry.Refers.of_mapSlot {ino k : Nat} (hPos : n ≠ 0)
    (hEmpty : 0 < slotDepth k → ∀ j < geo.ptrsPerBlock, pointer disk n j = 0)
    {slots' : Nat → Nat → Nat}
    (hSlots : ∀ i q, slots' i q = if i = ino ∧ q = k then n else slots i q) {p : Place} {c : Nat}
    (hp : geo.Refers disk slots' p c) :
    geo.Refers disk slots p c ∨ p = .file ino k [] ∧ c = n := by
  cases p with
  | blockBitmap g => exact Or.inl hp
  | inodeBitmap g => exact Or.inl hp
  | inodeTable g t => exact Or.inl hp
  | file i q path =>
    obtain ⟨hSlot, hFollow, hNonzero⟩ := hp
    rw [hSlots] at hFollow
    split at hFollow
    case isFalse hElse => exact Or.inl ⟨hSlot, hFollow, hNonzero⟩
    case isTrue hHere =>
      obtain ⟨rfl, rfl⟩ := hHere
      cases path with
      | nil => exact Or.inr ⟨rfl, hFollow.symm⟩
      | cons j rest =>
        have hDepth := hSlot.depth
        rw [List.length_cons] at hDepth
        rw [follow, if_neg hPos, hEmpty (by omega) j (hSlot.entries j List.mem_cons_self),
          follow_zero] at hFollow
        exact absurd hFollow.symm hNonzero

section MapSlot

variable {ino k : Nat} {slots' : Nat → Nat → Nat}

theorem Geometry.World.mapSlot (hWorld : geo.World disk slots) (hFresh : geo.Fresh disk slots n)
    (hEmpty : 0 < slotDepth k → ∀ j < geo.ptrsPerBlock, pointer disk n j = 0)
    (hSlots : ∀ i q, slots' i q = if i = ino ∧ q = k then n else slots i q) :
    geo.World disk slots' :=
  ⟨hWorld.sound,
    hWorld.own.insert (.file ino k []) hFresh.unreferred
      (fun _ _ => Refers.of_mapSlot hFresh.pos hEmpty hSlots) (fun _ => id) hFresh.used,
    hWorld.boot⟩

theorem Geometry.Fresh.mapSlot {n' : Nat} (hOther : geo.Fresh disk slots n') (hne : n' ≠ n)
    (hPos : n ≠ 0) (hEmpty : 0 < slotDepth k → ∀ j < geo.ptrsPerBlock, pointer disk n j = 0)
    (hSlots : ∀ i q, slots' i q = if i = ino ∧ q = k then n else slots i q) :
    geo.Fresh disk slots' n' := by
  refine ⟨hOther.used, hOther.pos, hOther.small, ?_⟩
  intro p hp
  cases Refers.of_mapSlot hPos hEmpty hSlots hp with
  | inl hOld => exact hOther.unreferred p hOld
  | inr hNew => exact hne hNew.2

end MapSlot

theorem load_store_array (m : Mem) {c j : Nat} (hSmall : n < 2 ^ 32) (i : Nat) :
    load (store m (c + 4 * j) 4 n) 4 (c + 4 * i) = if i = j then n else load m 4 (c + 4 * i) := by
  split
  case isTrue hSame =>
    rw [hSame]
    exact load_store_same_of_lt hSmall
  case isFalse hOther => exact load_store_disjoint (by omega)

theorem withInode_setIBlock {base : Nat → Nat → Nat} {ino k : Nat} {inode : Mem}
    (hSmall : n < 2 ^ 32) (i q : Nat) :
    withInode base ino (setIBlock inode k n) i q =
      if i = ino ∧ q = k then n else withInode base ino inode i q := by
  unfold withInode
  cases Nat.decEq i ino with
  | isFalse hne => simp only [hne, if_false, false_and]
  | isTrue hSame =>
    simp only [hSame, if_true, true_and]
    exact load_store_array inode hSmall q

theorem Geometry.World.mapEntry (hWorld : geo.World disk slots) (hFresh : geo.Fresh disk slots n)
    {ino j : Nat} (hIno : geo.HasInode ino) (hInd : slots ino indBlock ≠ 0)
    (hj : j < geo.ptrsPerBlock) :
    let disk' := Function.update disk (slots ino indBlock)
      (store (disk (slots ino indBlock)) (4 * j) 4 n)
    geo.World disk' slots ∧ geo.Refers disk' slots (.file ino indBlock [j]) n ∧
      ∀ i, geo.HasInode i → geo.inodeBlock i ≠ slots ino indBlock := by
  intro disk'
  have hRoot : geo.Refers disk slots (.file ino indBlock []) (slots ino indBlock) :=
    ⟨⟨hIno, by decide, Nat.zero_le _, nofun⟩, rfl, hInd⟩
  have hBitmap : ∀ g < geo.groupCount, geo.blockBitmap g ≠ slots ino indBlock := by
    intro g hg hSame
    cases hWorld.own.unique hRoot (s := .file ino indBlock []) (t := .blockBitmap g) ⟨hg, hSame⟩
  have hTable : ∀ i, geo.HasInode i → geo.inodeBlock i ≠ slots ino indBlock := by
    intro i hi hSame
    cases hWorld.own.unique hRoot (hSame ▸ hWorld.sound.refers_inodeBlock hi)
  have hEntry : ∀ i, pointer disk' (slots ino indBlock) i =
      if i = j then n else pointer disk (slots ino indBlock) i := by
    intro i
    have hBlock : disk' (slots ino indBlock) = store (disk (slots ino indBlock)) (4 * j) 4 n :=
      Function.update_self _ _ _
    have hEntry := load_store_array (disk (slots ino indBlock)) (c := 0) (j := j) hFresh.small i
    simp only [Nat.zero_add] at hEntry
    rw [pointer, hBlock]
    exact hEntry
  have hSlotJ : geo.HasSlot ino indBlock [j] :=
    ⟨hIno, by decide, Nat.le_refl 1, fun i hi => List.mem_singleton.mp hi ▸ hj⟩
  refine ⟨⟨hWorld.sound, ?_, fun hFirst => (used_update hBitmap 0).mpr (hWorld.boot hFirst)⟩,
    ⟨hSlotJ, ?_, hFresh.pos⟩, hTable⟩
  · refine hWorld.own.insert (.file ino indBlock [j]) hFresh.unreferred ?_
      (fun c => (used_update hBitmap c).mpr) ((used_update hBitmap n).mpr hFresh.used)
    intro p c hp
    cases p with
    | blockBitmap g => exact Or.inl hp
    | inodeBitmap g => exact Or.inl hp
    | inodeTable g t => exact Or.inl hp
    | file i k path =>
      obtain ⟨hSlot, hFollow, hPos⟩ := hp
      cases Classical.em (i = ino ∧ k = indBlock) with
      | inr hElse =>
        -- a file reads this block's pointers only through its own slot
        rw [follow_update ?_] at hFollow
        · exact Or.inl ⟨hSlot, hFollow, hPos⟩
        · rintro p j' q rfl hb
          have hInner : geo.Refers disk slots (.file i k p) (slots ino indBlock) :=
            ⟨hSlot.init.front.1, hb, hInd⟩
          cases hWorld.own.unique hRoot hInner
          exact absurd ⟨rfl, rfl⟩ hElse
      | inl hHere =>
        obtain ⟨rfl, rfl⟩ := hHere
        rcases path with - | ⟨q, - | ⟨q', rest⟩⟩
        · exact Or.inl ⟨hSlot, hFollow, hPos⟩
        · rw [follow, if_neg hInd, hEntry, follow] at hFollow
          split at hFollow
          case isTrue hSame => exact Or.inr ⟨by rw [hSame], hFollow.symm⟩
          case isFalse hOther =>
            refine Or.inl ⟨hSlot, ?_, hPos⟩
            rw [follow, if_neg hInd, follow]
            exact hFollow
        · have hDepth := hSlot.depth
          rw [List.length_cons, List.length_cons, slotDepth, indBlock, ndirBlocks] at hDepth
          omega
  · rw [follow, if_neg hInd, hEntry, if_pos rfl, follow]

/-! ### Writing an inode -/

theorem Geometry.World.inode_apart (hWorld : geo.World disk slots) {i ino : Nat}
    (hi : geo.HasInode i) (hIno : geo.HasInode ino) (hne : i ≠ ino)
    (hBlock : geo.inodeBlock i = geo.inodeBlock ino) :
    geo.inodeOffset i + inodeBytes ≤ geo.inodeOffset ino ∨
      geo.inodeOffset ino + inodeBytes ≤ geo.inodeOffset i := by
  have hSound := hWorld.sound
  have hPlace := hWorld.own.unique (hSound.refers_inodeBlock hi)
    (hBlock ▸ hSound.refers_inodeBlock hIno)
  obtain ⟨hGroup, hIndex⟩ := Place.inodeTable.inj hPlace
  have hSize : inodeBytes ≤ geo.inodeSize := hSound.inode_ge
  have hRank : (i - 1) % geo.inodesPerGroup ≠ (ino - 1) % geo.inodesPerGroup := by
    intro hSame
    have hSplit := Nat.div_add_mod (i - 1) geo.inodesPerGroup
    have hSplit' := Nat.div_add_mod (ino - 1) geo.inodesPerGroup
    rw [show (i - 1) / geo.inodesPerGroup = _ from hGroup, hSame] at hSplit
    have hPos := hi.1
    have hPos' := hIno.1
    unfold inodeGroup at hSplit
    omega
  have hByte : ∀ j, geo.inodeByte j = (j - 1) % geo.inodesPerGroup * geo.inodeSize := by
    intro j
    apply Nat.mod_eq_of_lt
    have hLt := (Nat.mul_lt_mul_right (a := geo.inodeSize) (by
      have hBytes : inodeBytes = 116 := rfl
      omega)).mpr (Nat.mod_lt (j - 1) hSound.inodes_pos)
    exact Nat.lt_of_lt_of_le hLt hSound.table_le
  -- the same block of the table, so offsets differ as the positions in the table do
  have hOffset := Nat.div_add_mod (geo.inodeByte i) geo.blockSize
  have hOffset' := Nat.div_add_mod (geo.inodeByte ino) geo.blockSize
  rw [hIndex] at hOffset
  unfold inodeOffset
  cases Nat.lt_or_gt_of_ne hRank with
  | inl hBefore =>
    have hStep := Nat.mul_le_mul_right geo.inodeSize hBefore
    rw [Nat.succ_mul, ← hByte, ← hByte] at hStep
    omega
  | inr hAfter =>
    have hStep := Nat.mul_le_mul_right geo.inodeSize hAfter
    rw [Nat.succ_mul, ← hByte, ← hByte] at hStep
    omega

theorem Geometry.World.writeInode {ino : Nat} {inode : Mem} (hIno : geo.HasInode ino)
    (hWorld : geo.World disk (withInode (geo.inodeSlots disk) ino inode)) :
    let disk' := Function.update disk (geo.inodeBlock ino)
      (fill (disk (geo.inodeBlock ino)) (geo.inodeOffset ino) inodeBytes inode)
    geo.World disk' (geo.inodeSlots disk') := by
  intro disk'
  have hHere : disk' (geo.inodeBlock ino) =
      fill (disk (geo.inodeBlock ino)) (geo.inodeOffset ino) inodeBytes inode :=
    Function.update_self _ _ _
  have hInert := hWorld.inert (hWorld.sound.refers_inodeBlock hIno) nofun
  have hBitmap : ∀ g < geo.groupCount, geo.blockBitmap g ≠ geo.inodeBlock ino :=
    fun g hg => (hWorld.bitmap_ne_inodeBlock hg ino hIno).symm
  have hWritten : geo.World disk' (withInode (geo.inodeSlots disk) ino inode) :=
    ⟨hWorld.sound, hWorld.own.mono (fun p c => (hInert.refers p c).mp)
      fun c => (used_update hBitmap c).mpr,
      fun hFirst => (used_update hBitmap 0).mpr (hWorld.boot hFirst)⟩
  apply hWritten.congr
  intro i k hi hk
  have hBytes : inodeBytes = 116 := rfl
  unfold withInode
  split
  case isTrue hSame =>
    rw [hSame, inodeSlots, hHere, load_fill_inside (by omega), iBlock]
  case isFalse hOther =>
    unfold inodeSlots
    cases Nat.decEq (geo.inodeBlock i) (geo.inodeBlock ino) with
    | isFalse hBlock => rw [show disk' (geo.inodeBlock i) = _ from Function.update_of_ne hBlock _ _]
    | isTrue hBlock =>
      have hApart := hWorld.inode_apart hi hIno hOther hBlock
      rw [hBlock, hHere]
      exact load_fill_disjoint (by omega)

end UnixOS.Fs.Ext4
