import UnixOS.Fs.Ext4World

/-! # Who owns which block

Every function of the driver keeps the references to disk blocks exclusive and the blocks referred
to marked, with two exceptions: `ext4_vfs_truncate` gives blocks back and leaves the inode pointing
to them, and an indirect block that could not be cleared refers to whatever it held before.
-/

namespace UnixOS.Fs.Ext4

open ByteMemory ByteBitmap Fallible

/-- The volume has geometry `geo`, its inodes on disk have the slots `base`, its references are
exclusive with the slots `slots`, and the blocks of `taken` are marked and in nobody's use. -/
structure Good (geo : Geometry) (base slots : Nat → Nat → Nat) (taken : List Nat) (fs : Ext4Fs)
    (disk : Nat → Mem) : Prop where
  geometry : fs.geometry = geo
  world : geo.World disk slots
  base : ∀ i k, geo.HasInode i → geo.inodeSlots disk i k = base i k
  fresh : ∀ n ∈ taken, geo.Fresh disk slots n

/-! ### Allocation -/

variable {geo : Geometry} {base slots : Nat → Nat → Nat} {E : Volume → Prop}

theorem geometry_count {b : Bitmap} (hb : b = blockBitmap ∨ b = inodeBitmap) (fs : Ext4Fs)
    (g m n : Nat) : (b.count fs g m n).geometry = fs.geometry := by
  have hDesc : ∀ g' lo hi, (lo + 4 ≤ 12 ∨ 16 ≤ lo) → lo + 4 ≤ 64 → (hi + 4 ≤ 12 ∨ 16 ≤ hi) →
      hi + 4 ≤ 64 → (b.count fs g m n).descBlock g' lo hi = fs.descBlock g' lo hi := by
    intro g' lo hi hLo hLo' hHi hHi'
    have hOff : b.groupLo = 12 ∨ b.groupLo = 14 := by
      rcases hb with rfl | rfl
      · exact Or.inl rfl
      · exact Or.inr rfl
    have hLoad : ∀ off, (off + 4 ≤ 12 ∨ 16 ≤ off) → off + 4 ≤ 64 →
        load (b.count fs g m n).groupDescs 4 (64 * g' + off) =
          load fs.groupDescs 4 (64 * g' + off) := by
      intro off hSide hTop
      exact load_store_disjoint (by omega)
    simp only [Ext4Fs.descBlock, hLoad lo hLo hLo', hLoad hi hHi hHi']
    rfl
  have hFirst : (b.count fs g m n).firstDataBlock = fs.firstDataBlock := by
    have hOff : b.superCount = 12 ∨ b.superCount = 16 := by
      rcases hb with rfl | rfl
      · exact Or.inl rfl
      · exact Or.inr rfl
    exact load_store_disjoint (by omega)
  have hBlock : ext4GetBlockBitmap (b.count fs g m n) = ext4GetBlockBitmap fs := by
    funext g'
    rw [ext4GetBlockBitmap, hDesc g' 0 32 (by omega) (by omega) (by omega) (by omega)]
    rfl
  have hInode : ext4GetInodeBitmap (b.count fs g m n) = ext4GetInodeBitmap fs := by
    funext g'
    rw [ext4GetInodeBitmap, hDesc g' 4 36 (by omega) (by omega) (by omega) (by omega)]
    rfl
  have hTable : (b.count fs g m n).inodeTable = fs.inodeTable := by
    funext g'
    exact hDesc g' 8 40 (by omega) (by omega) (by omega) (by omega)
  rw [Ext4Fs.geometry, hFirst, hBlock, hInode, hTable]
  rfl

section Allocation

variable (geo) {sure : Prop} {Q Q' : Assertion} {T : Nat → Assertion}

theorem ext4AllocBlock_served (preferred : Nat) (hGeo : ∀ fs disk, Q fs disk → fs.geometry = geo)
    (hTake : ∀ fs disk g index, Q fs disk → g < geo.groupCount →
      findFreeBit (disk (blockBitmap.block fs g)) (blockBitmap.bytes fs) (blockBitmap.limit fs) = some index →
      T (geo.blockAt g index) (blockBitmap.taken fs disk g index).1 (blockBitmap.taken fs disk g index).2)
    (hTaken : ∀ n fs disk, T n fs disk → fs.geometry = geo ∧ n < 2 ^ 32 ∧ Q fs disk) :
    Triple (Served sure Q) (ext4AllocBlock preferred) (fun n => Served sure (T n)) (Served sure Q) := by
  refine Triple.bind (blockBitmap.take_spec geo.groupCount (T := fun g index => T (geo.blockAt g index)) ?_ ?_
    preferred) ?_
  · intro fs disk h
    rw [← hGeo fs disk h]
    rfl
  · intro g hg fs disk index h hFound
    exact hTake fs disk g index h hg hFound
  · rintro ⟨g, index⟩
    refine get_spec fun st hst => ?_
    obtain ⟨hSame, hSmall, -⟩ := hTaken _ _ _ hst
    have hBlock : st.fs.firstDataBlock + g * st.fs.blocksPerGroup + index = geo.blockAt g index := by
      rw [← hSame]
      rfl
    rw [hBlock, asInt, Nat.mod_eq_of_lt hSmall]
    split
    case isTrue hInt => exact Triple.pure fun _ h => h.imp And.left
    case isFalse hLarge => exact fail_spec fun _ _ hQ => (hTaken _ _ _ hQ.1).2.2

theorem ext4FreeBlock_served (n : Nat) (hGeo : ∀ fs disk, Q fs disk → fs.geometry = geo ∧ n < 2 ^ 32)
    (hDrop : ∀ fs disk, Q fs disk → Q' fs disk)
    (hRelease : ∀ fs disk g index, Q fs disk → g < geo.groupCount → geo.blockAt g index = n →
      Q' (blockBitmap.released fs disk g index).1 (blockBitmap.released fs disk g index).2) :
    Triple (Served sure Q) (ext4FreeBlock n) (fun _ => Served sure Q') (Served sure Q') := by
  unfold ext4FreeBlock
  refine get_spec fun st hst => ?_
  obtain ⟨rfl, hSmall⟩ := hGeo _ _ hst
  split
  case isTrue hBelow => exact fail_spec fun _ _ hQ => hDrop _ _ hQ.1
  case isFalse hAbove =>
    dsimp only
    split
    case isTrue hOut => exact fail_spec fun _ _ hQ => hDrop _ _ hQ.1
    case isFalse hIn =>
      have hGroup : (n - st.fs.firstDataBlock) / st.fs.blocksPerGroup % 2 ^ 32 =
          (n - st.fs.firstDataBlock) / st.fs.blocksPerGroup := by
        apply Nat.mod_eq_of_lt
        exact Nat.lt_of_le_of_lt (Nat.div_le_self _ _) (by omega)
      have hAt := st.fs.geometry.blockAt_div_mod (Nat.le_of_not_lt hAbove)
      rw [hGroup] at hIn ⊢
      refine blockBitmap.release_spec ?_ fun _ _ hQ => hDrop _ _ hQ.1
      rintro fs disk ⟨hQ, -, -⟩
      exact hRelease fs disk _ _ hQ (Nat.lt_of_not_le hIn) hAt

end Allocation

section Blocks

variable {taken : List Nat} {fs : Ext4Fs} {disk : Nat → Mem}

theorem Good.take {g index : Nat} (h : Good geo base slots taken fs disk)
    (hg : g < geo.groupCount)
    (hFound : findFreeBit (disk (blockBitmap.block fs g)) (blockBitmap.bytes fs)
      (blockBitmap.limit fs) = some index) :
    Good geo base slots (geo.blockAt g index :: taken) (blockBitmap.taken fs disk g index).1
        (blockBitmap.taken fs disk g index).2 ∧ geo.blockAt g index ∉ taken := by
  obtain rfl := h.geometry
  obtain ⟨hIndex, -, hFree⟩ := findFreeBit_spec hFound
  obtain ⟨hWorld, hNew, hOthers⟩ := h.world.take hg hIndex hFree
  refine ⟨⟨geometry_count (Or.inl rfl) .., hWorld, ?_, ?_⟩, ?_⟩
  · intro i k hi
    rw [← h.base i k hi]
    exact inodeSlots_update (fun j hj => h.world.bitmap_ne_inodeBlock hg j hj) i k hi
  · rintro n (_ | ⟨_, hn⟩)
    · exact hNew
    · exact (hOthers n (h.fresh n hn)).2
  · intro hMem
    exact (hOthers _ (h.fresh _ hMem)).1 rfl

theorem Good.drop {taken' : List Nat} (h : Good geo base slots taken fs disk)
    (hSub : ∀ n ∈ taken', n ∈ taken) : Good geo base slots taken' fs disk :=
  ⟨h.geometry, h.world, h.base, fun n hn => h.fresh n (hSub n hn)⟩

theorem ext4AllocBlock_spec (preferred : Nat) :
    Triple (Quiet (Good geo base slots taken)) (ext4AllocBlock preferred)
      (fun n => Quiet fun fs disk => n ∉ taken ∧ Good geo base slots (n :: taken) fs disk)
      (Quiet (Good geo base slots taken)) := by
  refine ext4AllocBlock_served geo preferred (fun _ _ h => h.geometry) ?_ ?_
  · intro fs disk g index h hg hFound
    exact (h.take hg hFound).symm
  · intro n fs disk h
    exact ⟨h.2.geometry, (h.2.fresh n List.mem_cons_self).small, h.2.drop fun m hm => List.mem_cons_of_mem _ hm⟩

theorem Good.release {g index : Nat} (h : Good geo base slots [geo.blockAt g index] fs disk)
    (hg : g < geo.groupCount) :
    Good geo base slots [] (blockBitmap.released fs disk g index).1
      (blockBitmap.released fs disk g index).2 := by
  obtain rfl := h.geometry
  have hFresh := h.fresh _ List.mem_cons_self
  refine ⟨geometry_count (Or.inl rfl) .., h.world.release hg hFresh.pos hFresh.unreferred, ?_,
    nofun⟩
  intro i k hi
  rw [← h.base i k hi]
  exact inodeSlots_update (fun j hj => h.world.bitmap_ne_inodeBlock hg j hj) i k hi

theorem ext4FreeBlock_spec (n : Nat) :
    Triple (Quiet (Good geo base slots [n])) (ext4FreeBlock n)
      (fun _ => Quiet (Good geo base slots [])) (Quiet (Good geo base slots [])) := by
  refine ext4FreeBlock_served geo n (fun _ _ h => ⟨h.geometry, (h.fresh n List.mem_cons_self).small⟩)
    (fun _ _ h => h.drop nofun) ?_
  rintro fs disk g index h hg rfl
  exact h.release hg

theorem Good.write {b : Nat} {buf : Mem} (h : Good geo base slots taken fs disk)
    (hWritable : geo.Writable disk slots b) :
    Good geo base slots taken fs (Function.update disk b buf) := by
  refine ⟨h.geometry, h.world.write hWritable, ?_, fun n hn => (h.fresh n hn).write hWritable⟩
  intro i k hi
  rw [← h.base i k hi]
  exact inodeSlots_update hWritable.inodeBlock_ne i k hi

theorem Good.congr {slots' : Nat → Nat → Nat} (h : Good geo base slots taken fs disk)
    (hSlots : ∀ i k, geo.HasInode i → k < 15 → slots' i k = slots i k) :
    Good geo base slots' taken fs disk := by
  refine ⟨h.geometry, h.world.congr hSlots, h.base, ?_⟩
  intro n hn
  have hFresh := h.fresh n hn
  exact ⟨hFresh.used, hFresh.pos, hFresh.small,
    fun p hp => hFresh.unreferred p ((Geometry.Refers.congr hSlots p n).mp hp)⟩

end Blocks

/-! ### Mapping blocks -/

theorem mapPath_spec {ptrs fileBlock k : Nat} {path : List Nat}
    (h : mapPath ptrs fileBlock = some (k, path)) :
    k < 15 ∧ path.length = slotDepth k ∧ ∀ j ∈ path, j < ptrs := by
  unfold mapPath at h
  split at h
  case isTrue hDirect =>
    cases h
    have hSmall : fileBlock < 12 := hDirect
    refine ⟨by omega, ?_, nofun⟩
    rw [List.length_nil, slotDepth, ndirBlocks]
    omega
  case isFalse hDirect =>
    split at h
    case isTrue hInd =>
      cases h
      refine ⟨by decide, rfl, ?_⟩
      intro j hj
      rw [List.mem_singleton.mp hj]
      exact hInd
    case isFalse hInd =>
      split at h
      case isFalse hBeyond => cases h
      case isTrue hDind =>
        cases h
        have hLt : fileBlock - ndirBlocks - ptrs < ptrs * ptrs :=
          Nat.lt_of_lt_of_le hDind (Nat.mod_le _ _)
        have hPos : 0 < ptrs := Nat.pos_of_mul_pos_left (Nat.zero_lt_of_lt hLt)
        refine ⟨by decide, rfl, ?_⟩
        simp only [List.mem_cons, List.not_mem_nil, or_false]
        rintro j (rfl | rfl)
        · exact Nat.div_lt_of_lt_mul hLt
        · exact Nat.mod_lt _ hPos

section Files

variable {ino : Nat} {inode : Mem} {taken : List Nat} {fs : Ext4Fs} {disk : Nat → Mem}

theorem Good.writable_mapped (hIno : geo.HasInode ino)
    (h : Good geo base (withInode base ino inode) taken fs disk) {fileBlock : Nat}
    (hMapped : mappedBlock fs.ptrsPerBlock disk inode fileBlock ≠ 0) :
    geo.Writable disk (withInode base ino inode)
      (mappedBlock fs.ptrsPerBlock disk inode fileBlock) := by
  obtain rfl := h.geometry
  unfold mappedBlock at hMapped ⊢
  split at hMapped
  case h_1 hNone => exact absurd rfl hMapped
  case h_2 k path hPath =>
    obtain ⟨hk, hDepth, hEntries⟩ := mapPath_spec hPath
    have hRefers : fs.geometry.Refers disk (withInode base ino inode) (.file ino k path)
        (follow disk (iBlock inode k) path) := by
      refine ⟨⟨hIno, hk, hDepth.le, hEntries⟩, ?_, hMapped⟩
      rw [withInode, if_pos rfl]
    exact h.world.writable_leaf hRefers hDepth

theorem Good.setIBlock {k n : Nat} (h : Good geo base (withInode base ino inode) (n :: taken) fs disk)
    (hNew : n ∉ taken)
    (hEmpty : 0 < slotDepth k → ∀ j < geo.ptrsPerBlock, pointer disk n j = 0) :
    Good geo base (withInode base ino (setIBlock inode k n)) taken fs disk := by
  have hFresh := h.fresh n List.mem_cons_self
  have hSlots : ∀ i q, withInode base ino (Ext4.setIBlock inode k n) i q =
      if i = ino ∧ q = k then n else withInode base ino inode i q :=
    withInode_setIBlock hFresh.small
  refine ⟨h.geometry, h.world.mapSlot hFresh hEmpty hSlots, h.base, ?_⟩
  intro n' hn'
  have hne : n' ≠ n := by
    rintro rfl
    exact hNew hn'
  exact (h.fresh n' (List.mem_cons_of_mem n hn')).mapSlot hne hFresh.pos hEmpty hSlots

theorem Good.mapEntry {n j : Nat} (hIno : geo.HasInode ino)
    (h : Good geo base (withInode base ino inode) [n] fs disk) (hInd : iBlock inode indBlock ≠ 0)
    (hj : j < geo.ptrsPerBlock) :
    let disk' := Function.update disk (iBlock inode indBlock)
      (store (disk (iBlock inode indBlock)) (4 * j) 4 n)
    Good geo base (withInode base ino inode) [] fs disk' ∧
      geo.Writable disk' (withInode base ino inode) n := by
  intro disk'
  have hSlot : withInode base ino inode ino indBlock = iBlock inode indBlock := if_pos rfl
  obtain ⟨hWorld, hRefers, hTable⟩ :=
    h.world.mapEntry (h.fresh n List.mem_cons_self) hIno (hSlot ▸ hInd) hj
  rw [hSlot] at hWorld hRefers hTable
  refine ⟨⟨h.geometry, hWorld, ?_, nofun⟩, hWorld.writable_leaf hRefers rfl⟩
  intro i k hi
  rw [← h.base i k hi]
  exact inodeSlots_update hTable i k hi

/-- The copy of inode `ino` in hand has all blocks of the inode on disk, and may have more. -/
def Extends (base : Nat → Nat → Nat) (ino : Nat) (inode : Mem) : Prop :=
  ∀ k < 15, base ino k = iBlock inode k ∨ base ino k = 0

theorem Extends.setIBlock {k n : Nat} (h : Extends base ino inode) (hHole : iBlock inode k = 0)
    (hSmall : n < 2 ^ 32) : Extends base ino (Ext4.setIBlock inode k n) := by
  intro q hq
  have hSlot : iBlock (Ext4.setIBlock inode k n) q = if q = k then n else iBlock inode q :=
    load_store_array inode hSmall q
  rw [hSlot]
  split
  case isFalse hOther => exact h q hq
  case isTrue hSame =>
    cases h q hq with
    | inl hBase =>
      rw [hSame, hHole] at hBase
      exact Or.inr (hSame ▸ hBase)
    | inr hZero => exact Or.inr hZero

theorem Good.forget {slots' : Nat → Nat → Nat} (h : Good geo base slots taken fs disk)
    (hSlots : ∀ i, ∀ k < 15, slots' i k = slots i k ∨ slots' i k = 0) :
    Good geo base slots' taken fs disk := by
  have hRefs : ∀ p c, geo.Refers disk slots' p c → geo.Refers disk slots p c := by
    intro p c hp
    cases p with
    | blockBitmap g => exact hp
    | inodeBitmap g => exact hp
    | inodeTable g t => exact hp
    | file i k path =>
      obtain ⟨hSlot, hFollow, hPos⟩ := hp
      cases hSlots i k hSlot.slot with
      | inl hSame => exact ⟨hSlot, hSame ▸ hFollow, hPos⟩
      | inr hZero =>
        rw [hZero, follow_zero] at hFollow
        exact absurd hFollow.symm hPos
  refine ⟨h.geometry, ⟨h.world.sound, h.world.own.mono hRefs fun _ => id, h.world.boot⟩, h.base, ?_⟩
  intro n hn
  have hFresh := h.fresh n hn
  exact ⟨hFresh.used, hFresh.pos, hFresh.small, fun p hp => hFresh.unreferred p (hRefs p n hp)⟩

theorem Good.onDisk (h : Good geo base (withInode base ino inode) taken fs disk)
    (hExt : Extends base ino inode) : Good geo base base taken fs disk := by
  apply h.forget
  intro i k hk
  unfold withInode
  split
  case isTrue hSame => exact hSame ▸ hExt k hk
  case isFalse hOther => exact Or.inl rfl

theorem ensureIndirect_spec (hExt : Extends base ino inode) (group : Nat) :
    Triple (Quiet (Good geo base (withInode base ino inode) taken)) (ensureIndirect inode group)
      (fun result => match result with
        | none => Quiet (Good geo base (withInode base ino inode) taken)
        | some inode' => Quiet fun fs disk => iBlock inode' indBlock ≠ 0 ∧
            Extends base ino inode' ∧ Good geo base (withInode base ino inode') taken fs disk)
      E := by
  unfold ensureIndirect
  split
  case isTrue hHas => exact Triple.pure fun _ hst => hst.imp fun h => ⟨hHas, hExt, h⟩
  case isFalse hNone =>
    refine Triple.attempt_bind (ext4AllocBlock_spec group) ?_ (Triple.pure fun _ => id)
    intro n
    dsimp only
    refine Triple.attempt_bind_total (Q := fun _ => Quiet fun fs disk =>
      (∀ j, pointer disk n j = 0) ∧ n ∉ taken ∧
        Good geo base (withInode base ino inode) (n :: taken) fs disk) ?_ fun _ => ?_
    · refine Triple.bind kmallocZeros_spec fun _ => ext4WriteBlockRaw_spec ?_
      rintro fs disk ⟨hNew, hGood⟩
      have hFresh := hGood.fresh n List.mem_cons_self
      refine ⟨?_, hNew, hGood.write (hFresh.writable hGood.world.sound)⟩
      intro j
      rw [pointer, Function.update_self]
      exact load_zero 4 _
    · refine Triple.pure fun _ hst => hst.imp ?_
      rintro ⟨hZero, hNew, hGood⟩
      have hFresh := hGood.fresh n List.mem_cons_self
      refine ⟨?_, hExt.setIBlock (not_ne_iff.mp hNone) hFresh.small,
        hGood.setIBlock hNew fun _ j _ => hZero j⟩
      rw [iBlock, setIBlock, load_store_same_of_lt hFresh.small]
      exact hFresh.pos

/-- The mapping of a fresh block, once stored, makes it a leaf of the file. A direct slot that was
in use loses its block, but only in hand. -/
theorem ext4SetFileBlock_spec (hIno : geo.HasInode ino) (hExt : Extends base ino inode)
    (fileBlock n : Nat) :
    Triple (Quiet (Good geo base (withInode base ino inode) [n]))
      (ext4SetFileBlock inode fileBlock n ino)
      (fun result => Quiet fun fs disk =>
        if result.1 then
          ((fileBlock < ndirBlocks → iBlock inode fileBlock = 0) → Extends base ino result.2) ∧
            Good geo base base [] fs disk ∧ Good geo base (withInode base ino result.2) [] fs disk ∧
            geo.Writable disk (withInode base ino result.2) n
        else Extends base ino result.2 ∧ Good geo base (withInode base ino result.2) [n] fs disk)
      E := by
  unfold ext4SetFileBlock
  refine get_spec fun st hst => ?_
  obtain rfl := hst.geometry
  split
  case isTrue hDirect =>
    refine Triple.pure fun s hst => hst.imp ?_
    rintro ⟨hGood, -, -⟩
    have hFresh := hGood.fresh n List.mem_cons_self
    have hDepth : slotDepth fileBlock = 0 := Nat.sub_eq_zero_of_le hDirect
    have hMapped := hGood.setIBlock (k := fileBlock) (fun h => nomatch h) (by omega)
    refine ⟨fun hHole => hExt.setIBlock (hHole hDirect) hFresh.small,
      (hGood.onDisk hExt).drop nofun, hMapped, ?_⟩
    have hRefers : st.fs.geometry.Refers s.disk (withInode base ino (setIBlock inode fileBlock n))
        (.file ino fileBlock []) n := by
      refine ⟨⟨hIno, Nat.lt_trans hDirect (by decide), Nat.zero_le _, nofun⟩, ?_, hFresh.pos⟩
      rw [follow, withInode_setIBlock hFresh.small, if_pos ⟨rfl, rfl⟩]
    exact hMapped.world.writable_leaf hRefers hDepth.symm
  case isFalse hFar =>
    split
    case isFalse hBeyond =>
      exact Triple.pure fun _ hst => hst.imp fun h => ⟨hExt, h.1⟩
    case isTrue hNear =>
      refine Triple.bind (Triple.weaken (ensureIndirect_spec hExt _) fun _ _ => And.left) ?_
      intro result
      cases result with
      | none => exact Triple.pure fun _ hst => hst.imp fun h => ⟨hExt, h⟩
      | some inode' =>
        refine Triple.and_pre fun hInd => Triple.and_pre fun hExt' => ?_
        refine Triple.attempt_bind (Q := fun _ => Quiet fun fs disk =>
          Good st.fs.geometry base (withInode base ino inode') [] fs disk ∧
            st.fs.geometry.Writable disk (withInode base ino inode') n)
          (Triple.bind (kmalloc_spec fun _ _ => id) fun _ => ?_) ?_ ?_
        · refine Triple.bind (ext4ReadBlock_spec _) fun indirect => ext4WriteBlockRaw_spec ?_
          rintro fs disk ⟨hGood, rfl⟩
          exact hGood.mapEntry hIno hInd hNear
        · refine fun _ => Triple.pure fun _ hst => hst.imp ?_
          rintro ⟨hGood, hWritable⟩
          exact ⟨fun _ => hExt', hGood.onDisk hExt', hGood, hWritable⟩
        · exact Triple.pure fun _ hst => hst.imp fun h => ⟨hExt', h⟩

end Files

end UnixOS.Fs.Ext4
