import UnixOS.Fs.Ext4CountRuns
import UnixOS.Fs.Ext4ReadFile

/-! # Writing a file

With every request granted and enough free blocks a write goes through to its end, and the file holds the bytes
written where they were written and what it held elsewhere.
-/

namespace UnixOS.Fs.Ext4

open ByteMemory ByteBitmap Fallible

/-! ### Free blocks -/

/-- The allocator, asked from `group` on, hands out so many blocks in turn. -/
def Supplies (group : Nat) : Nat → Ext4Fs → (Nat → Mem) → Prop
  | 0, _, _ => True
  | n + 1, fs, disk => ∃ g i, blockBitmap.found fs disk group true = some (g, i) ∧ fs.geometry.blockAt g i < 2 ^ 31 ∧
      Supplies group n (blockBitmap.taken fs disk g i).1 (blockBitmap.taken fs disk g i).2

section Allocation

variable {group n : Nat} {fs : Ext4Fs} {disk disk' : Nat → Mem}

theorem found_spec {g i : Nat} (h : blockBitmap.found fs disk group true = some (g, i)) :
    g < fs.groupCount ∧
      findFreeBit (disk (blockBitmap.block fs g)) (blockBitmap.bytes fs) (blockBitmap.limit fs) = some i := by
  rw [Bitmap.found, if_pos rfl, Bitmap.search] at h
  obtain ⟨g', hMem, hLook⟩ := List.exists_of_findSome?_eq_some h
  obtain ⟨i', hFound, hPair⟩ := Option.map_eq_some_iff.mp hLook
  cases hPair
  obtain ⟨k, hk, rfl⟩ := List.mem_map.mp hMem
  rw [Bitmap.lookIn] at hFound
  split at hFound
  · cases hFound
  · exact ⟨Nat.mod_lt _ (Nat.zero_lt_of_lt (List.mem_range.mp hk)), hFound⟩

theorem found_congr (h : ∀ g < fs.groupCount, disk' (ext4GetBlockBitmap fs g) = disk (ext4GetBlockBitmap fs g)) :
    blockBitmap.found fs disk' group true = blockBitmap.found fs disk group true := by
  have hLook : ∀ g ∈ Account.groupOrder fs group, blockBitmap.lookIn fs disk' g = blockBitmap.lookIn fs disk g := by
    intro g hg
    obtain ⟨k, hk, rfl⟩ := List.mem_map.mp hg
    have hBlock : disk' (blockBitmap.block fs ((group + k) % 2 ^ 32 % fs.groupCount)) =
        disk (blockBitmap.block fs ((group + k) % 2 ^ 32 % fs.groupCount)) :=
      h _ (Nat.mod_lt _ (Nat.zero_lt_of_lt (List.mem_range.mp hk)))
    rw [Bitmap.lookIn, Bitmap.lookIn, hBlock]
  rw [Bitmap.found, Bitmap.found, if_pos rfl, if_pos rfl, Bitmap.search, Bitmap.search]
  generalize Account.groupOrder fs group = groups at hLook
  induction groups with
  | nil => rfl
  | cons g rest ih =>
    rw [List.findSome?_cons, List.findSome?_cons, hLook g List.mem_cons_self,
      ih fun x hx => hLook x (List.mem_cons_of_mem g hx)]

theorem Supplies.congr (hGroups : ∀ g < fs.groupCount, disk' (ext4GetBlockBitmap fs g) = disk (ext4GetBlockBitmap fs g))
    (h : Supplies group n fs disk) : Supplies group n fs disk' := by
  induction n generalizing fs disk disk' with
  | zero => exact trivial
  | succ n ih =>
    obtain ⟨g, i, hFound, hSmall, hRest⟩ := h
    have hIn := (found_spec hFound).1
    refine ⟨g, i, (found_congr hGroups).trans hFound, hSmall, ih (fun g' hg' => ?_) hRest⟩
    have hGeo : (blockBitmap.count fs g 65535 (2 ^ 32 - 1)).geometry = fs.geometry := geometry_count (Or.inl rfl) ..
    have hBitmap : ext4GetBlockBitmap (blockBitmap.count fs g 65535 (2 ^ 32 - 1)) = ext4GetBlockBitmap fs :=
      congrArg Geometry.blockBitmap hGeo
    show Function.update disk' _ _ (ext4GetBlockBitmap (blockBitmap.count fs g 65535 (2 ^ 32 - 1)) g') =
      Function.update disk _ _ (ext4GetBlockBitmap (blockBitmap.count fs g 65535 (2 ^ 32 - 1)) g')
    have hHere : disk' (blockBitmap.block fs g) = disk (blockBitmap.block fs g) := hGroups g hIn
    rw [hBitmap, hHere, Function.update_apply, Function.update_apply, hGroups g' hg']

theorem ext4AllocBlock_granted {E : Volume → Prop} {Q : Assertion}
    {T : Nat → Assertion}
    (h : ∀ fs disk, Q fs disk → ∃ g i, blockBitmap.found fs disk group true = some (g, i) ∧
      fs.geometry.blockAt g i < 2 ^ 31 ∧
      T (fs.geometry.blockAt g i) (blockBitmap.taken fs disk g i).1 (blockBitmap.taken fs disk g i).2) :
    Triple (Granted Q) (ext4AllocBlock group) (fun n => Granted (T n)) E := by
  intro st hst
  obtain ⟨g, i, hFound, hSmall, hT⟩ := h _ _ hst.holds
  obtain ⟨st', hRun, hLeads⟩ := ext4AllocBlock_eq hst.io group
  rw [hst.mem 0, hFound] at hRun hLeads
  have hNumber : asNumber (st.fs.firstDataBlock + g * st.fs.blocksPerGroup + i) = some (st.fs.geometry.blockAt g i) := by
    have hSmall' : st.fs.firstDataBlock + g * st.fs.blocksPerGroup + i < 2 ^ 31 := hSmall
    rw [asNumber, Nat.mod_eq_of_lt (by omega), if_pos hSmall']
    rfl
  rw [Option.bind_some, hNumber] at hRun
  rw [hRun]
  refine ⟨fun n => ?_, fun n => ?_, hLeads.io, ?_⟩
  · rw [hLeads.mem]
    exact hst.mem (n + 1)
  · rw [hLeads.zeros]
    exact hst.zeros n
  · rw [hLeads.fs, hLeads.disk]
    exact hT

end Allocation

/-! ### The inode in hand -/

/-- With the inode in hand the file has this content and size; the blocks of `taken` are in nobody's use, and so many
blocks can be had. -/
structure InHand (geo : Geometry) (base : Nat → Nat → Nat) (ino : Nat) (content : Nat → Option Mem) (size : Nat)
    (inode : Mem) (taken : List Nat) (supply : Nat) (fs : Ext4Fs) (disk : Nat → Mem) : Prop where
  good : Good geo base (withInode base ino inode) taken fs disk
  content : ∀ b, blockContent geo.ptrsPerBlock disk inode b = content b
  size : iSizeLo inode = size
  supply : Supplies (geo.inodeGroup ino) supply fs disk

section Hand

variable {geo : Geometry} {base : Nat → Nat → Nat} {ino : Nat} {content : Nat → Option Mem} {size : Nat} {inode : Mem}
  {taken : List Nat} {supply : Nat} {fs : Ext4Fs} {disk : Nat → Mem} {E : Volume → Prop}

theorem Supplies.write {slots : Nat → Nat → Nat} {group c : Nat} {buf : Mem} (hGood : Good geo base slots taken fs disk)
    (hBitmap : ∀ g < geo.groupCount, geo.blockBitmap g ≠ c) (h : Supplies group supply fs disk) :
    Supplies group supply fs (Function.update disk c buf) := by
  obtain rfl := hGood.geometry
  exact h.congr fun g hg => Function.update_of_ne (hBitmap g hg) _ _

theorem InHand.take (hIno : geo.HasInode ino) (h : InHand geo base ino content size inode taken (supply + 1) fs disk) :
    ∃ g i, blockBitmap.found fs disk (geo.inodeGroup ino) true = some (g, i) ∧ fs.geometry.blockAt g i < 2 ^ 31 ∧
      fs.geometry.blockAt g i ∉ taken ∧
      InHand geo base ino content size inode (fs.geometry.blockAt g i :: taken) supply
        (blockBitmap.taken fs disk g i).1 (blockBitmap.taken fs disk g i).2 := by
  obtain ⟨hGood, hContent, hSize, g, i, hFound, hSmall, hRest⟩ := h
  obtain rfl := hGood.geometry
  obtain ⟨hIn, hBit⟩ := found_spec hFound
  obtain ⟨hTaken, hNew⟩ := hGood.take hIn hBit
  refine ⟨g, i, hFound, hSmall, hNew, hTaken, fun b => ?_, hSize, hRest⟩
  rw [← hContent b]
  refine blockContent_update (slotsOf_withInode base ino inode) hIno fun k path hThere => ?_
  have hHere : fs.geometry.Refers disk (withInode base ino inode) (.blockBitmap g) (blockBitmap.block fs g) :=
    ⟨hIn, rfl⟩
  cases hGood.world.own.unique hHere hThere

theorem InHand.writeFresh {n : Nat} {buf : Mem} (hIno : geo.HasInode ino)
    (h : InHand geo base ino content size inode taken supply fs disk) (hn : n ∈ taken) :
    InHand geo base ino content size inode taken supply fs (Function.update disk n buf) := by
  have hFresh := h.good.fresh n hn
  have hWritable := hFresh.writable h.good.world.sound
  refine ⟨h.good.write hWritable, fun b => ?_, h.size, h.supply.write h.good hWritable.bitmap_ne⟩
  rw [blockContent_update (slotsOf_withInode base ino inode) hIno fun k path => hFresh.unreferred _]
  exact h.content b

theorem InHand.setIndirect {ind n : Nat} (h : InHand geo base ino content size inode [ind, n] supply fs disk)
    (hApart : ind ≠ n) (hHole : iBlock inode indBlock = 0) (hZero : ∀ j, pointer disk ind j = 0) :
    InHand geo base ino content size (setIBlock inode indBlock ind) [n] supply fs disk ∧
      iBlock (setIBlock inode indBlock ind) indBlock ≠ 0 := by
  have hFresh := h.good.fresh ind List.mem_cons_self
  have hSlot : iBlock (setIBlock inode indBlock ind) indBlock = ind :=
    (load_store_array inode hFresh.small indBlock).trans (if_pos rfl)
  have hPos : iBlock (setIBlock inode indBlock ind) indBlock ≠ 0 := by
    rw [hSlot]
    exact hFresh.pos
  refine ⟨⟨h.good.setIBlock (by simpa using hApart) fun _ j _ => hZero j, fun b => ?_, ?_, h.supply⟩, hPos⟩
  · rw [← h.content b]
    cases hPath : mapPath geo.ptrsPerBlock b with
    | none => rw [blockContent_of_none hPath, blockContent_of_none hPath]
    | some place =>
      obtain ⟨k, path⟩ := place
      by_cases hSingle : k = indBlock
      · subst hSingle
        obtain ⟨hFar, hNear, rfl⟩ := mapPath_eq_single hPath
        have hMapped : mappedBlock geo.ptrsPerBlock disk inode b = 0 := by
          rw [mappedBlock_of_path hPath, hHole, follow_zero]
        rw [blockContent_single hFar hNear hPos, hSlot, hZero, if_pos rfl, blockContent, if_pos hMapped]
      · exact blockContent_slot hFresh.small hPath hSingle
  · exact (load_store_disjoint (by decide)).trans h.size

def indirectCost (inode : Mem) : Nat := if iBlock inode indBlock = 0 then 1 else 0

theorem ensureIndirect_granted {n : Nat} (hIno : geo.HasInode ino) :
    Triple (Granted (InHand geo base ino content size inode [n] (supply + indirectCost inode)))
      (ensureIndirect inode (geo.inodeGroup ino))
      (fun result => match result with
        | none => fun _ => False
        | some inode' => Granted fun fs disk => iBlock inode' indBlock ≠ 0 ∧
            InHand geo base ino content size inode' [n] supply fs disk) E := by
  unfold ensureIndirect
  split
  case isTrue hHas =>
    refine Triple.pure fun _ hs => hs.imp fun h => ⟨hHas, ?_⟩
    rwa [indirectCost, if_neg hHas, Nat.add_zero] at h
  case isFalse hNone =>
    have hHole : iBlock inode indBlock = 0 := not_ne_iff.mp hNone
    rw [indirectCost, if_pos hHole]
    refine Triple.attempt_bind_total (ext4AllocBlock_granted (T := fun ind fs disk => ind ≠ n ∧
      InHand geo base ino content size inode [ind, n] supply fs disk) ?_) fun ind => ?_
    · intro fs disk h
      obtain ⟨g, i, hFound, hSmall, hNew, hTaken⟩ := h.take hIno
      exact ⟨g, i, hFound, hSmall, List.ne_of_not_mem_cons hNew, hTaken⟩
    · refine Triple.granted_and fun hApart => ?_
      refine Triple.attempt_bind_total (Q := fun _ => Granted fun fs disk => (∀ j, pointer disk ind j = 0) ∧
        InHand geo base ino content size inode [ind, n] supply fs disk) ?_ fun _ => ?_
      · refine Triple.bind kmallocZeros_granted fun _ => ext4WriteBlockRaw_granted ?_
        intro fs disk h
        refine ⟨fun j => ?_, h.writeFresh hIno List.mem_cons_self⟩
        rw [pointer, Function.update_self]
        exact load_zero 4 _
      · refine Triple.pure fun _ hs => hs.imp ?_
        rintro ⟨hZero, h⟩
        exact (h.setIndirect hApart hHole hZero).symm

structure Placed (geo : Geometry) (base : Nat → Nat → Nat) (ino : Nat) (content : Nat → Option Mem) (size b n : Nat)
    (inode : Mem) (supply : Nat) (fs : Ext4Fs) (disk : Nat → Mem) : Prop where
  good : Good geo base (withInode base ino inode) [] fs disk
  pos : n ≠ 0
  mapped : mappedBlock geo.ptrsPerBlock disk inode b = n
  others : ∀ b', b' ≠ b → blockContent geo.ptrsPerBlock disk inode b' = content b'
  size : iSizeLo inode = size
  supply : Supplies (geo.inodeGroup ino) supply fs disk

/-- What is left to pay for the indirect block once file block `b` is mapped. -/
def costAfter (inode : Mem) (b : Nat) : Nat := if b < ndirBlocks then indirectCost inode else 0

def costOf (inode : Mem) (b : Nat) : Nat := if b < ndirBlocks then 0 else indirectCost inode

theorem InHand.place {b n : Nat} (h : InHand geo base ino content size inode [n] supply fs disk) (hDirect : b < ndirBlocks) :
    Placed geo base ino content size b n (setIBlock inode b n) supply fs disk := by
  have hFresh := h.good.fresh n List.mem_cons_self
  have hDepth : slotDepth b = 0 := Nat.sub_eq_zero_of_le hDirect
  refine ⟨h.good.setIBlock nofun fun hDeep => absurd hDeep (by omega), hFresh.pos, ?_, fun b' hOther => ?_, ?_, h.supply⟩
  · rw [mappedBlock_of_path (if_pos hDirect), follow]
    exact (load_store_array inode hFresh.small b).trans (if_pos rfl)
  · rw [blockContent_direct hFresh.small hFresh.pos hDirect, if_neg hOther, h.content]
  · exact (load_store_disjoint (by omega)).trans h.size

theorem InHand.placeIndirect {b n : Nat} (hIno : geo.HasInode ino)
    (h : InHand geo base ino content size inode [n] supply fs disk) (hInd : iBlock inode indBlock ≠ 0)
    (hFar : ¬ b < ndirBlocks) (hNear : b - ndirBlocks < geo.ptrsPerBlock) :
    Placed geo base ino content size b n inode supply fs (Function.update disk (iBlock inode indBlock)
      (store (disk (iBlock inode indBlock)) (4 * (b - ndirBlocks)) 4 n)) := by
  have hFresh := h.good.fresh n List.mem_cons_self
  have hSlots := slotsOf_withInode base ino inode
  have hRoot : geo.Refers disk (withInode base ino inode) (.file ino indBlock []) (iBlock inode indBlock) :=
    ⟨⟨hIno, by decide, Nat.zero_le _, nofun⟩, hSlots indBlock (by decide), hInd⟩
  refine ⟨(h.good.mapEntry hIno hInd hNear).1, hFresh.pos, ?_, fun b' hOther => ?_, h.size, h.supply.write h.good ?_⟩
  · have hArray := load_store_array (disk (iBlock inode indBlock)) (c := 0) (j := b - ndirBlocks) hFresh.small
      (b - ndirBlocks)
    simp only [Nat.zero_add] at hArray
    rw [mappedBlock_of_path (mapPath_single hFar hNear), follow, if_neg hInd, follow, pointer, Function.update_self]
    exact hArray.trans (if_pos trivial)
  · rw [blockContent_mapEntry hSlots h.good.world hIno hFresh hInd hFar hNear, if_neg hOther, h.content]
  · intro g hg hSame
    have hHere : geo.Refers disk (withInode base ino inode) (.blockBitmap g) (iBlock inode indBlock) := ⟨hg, hSame⟩
    cases h.good.world.own.unique hRoot hHere

theorem ext4SetFileBlock_granted {b n : Nat} (hIno : geo.HasInode ino) (hRange : b < ndirBlocks + geo.ptrsPerBlock) :
    Triple (Granted (InHand geo base ino content size inode [n] (supply + costOf inode b)))
      (ext4SetFileBlock inode b n ino)
      (fun result => Granted fun fs disk => result.1 = true ∧ indirectCost result.2 = costAfter inode b ∧
        Placed geo base ino content size b n result.2 supply fs disk) E := by
  unfold ext4SetFileBlock costOf costAfter
  refine get_granted fun st hst => ?_
  obtain rfl := hst.good.geometry
  split
  case isTrue hDirect =>
    refine Triple.pure fun _ hs => hs.imp ?_
    rintro ⟨hHand, -, -⟩
    refine ⟨rfl, ?_, InHand.place hHand hDirect⟩
    have hSmall := (hHand.good.fresh n List.mem_cons_self).small
    have hOther : indBlock ≠ b := (Nat.lt_of_lt_of_le hDirect (by decide)).ne'
    have hSlot : iBlock (setIBlock inode b n) indBlock = iBlock inode indBlock :=
      (load_store_array inode hSmall indBlock).trans (if_neg hOther)
    rw [indirectCost, hSlot, indirectCost]
  case isFalse hFar =>
    have hNear : b - ndirBlocks < st.fs.ptrsPerBlock := by
      have hPtrs : st.fs.geometry.ptrsPerBlock = st.fs.ptrsPerBlock := rfl
      omega
    rw [if_pos hNear]
    have hEnsure : Triple (Granted (InHand st.fs.geometry base ino content size inode [n] (supply + indirectCost inode)))
        (ensureIndirect inode (st.fs.inodeGroup ino)) _ E := ensureIndirect_granted hIno
    refine Triple.bind (Triple.granted_weaken hEnsure fun _ _ h => h.1) ?_
    intro result
    cases result with
    | none => exact fun _ hFalse => hFalse.elim
    | some inode' =>
      refine Triple.granted_and fun hInd => ?_
      have hCost : indirectCost inode' = 0 := if_neg hInd
      have hStore : Triple (Granted (InHand st.fs.geometry base ino content size inode' [n] supply))
          (do
            kmalloc
            let indirect ← ext4ReadBlock (iBlock inode' indBlock)
            ext4WriteBlockRaw (iBlock inode' indBlock) (store indirect (4 * (b - ndirBlocks)) 4 n) : Ext4M Unit)
          (fun _ => Granted (Placed st.fs.geometry base ino content size b n inode' supply)) fun _ => False := by
        refine Triple.bind kmalloc_granted fun _ => Triple.bind (ext4ReadBlock_granted _) fun indirect => ?_
        refine ext4WriteBlockRaw_granted ?_
        rintro fs disk ⟨hHand, rfl⟩
        exact hHand.placeIndirect hIno hInd hFar hNear
      exact hStore.attempt_bind_total fun _ => Triple.pure fun _ hs => hs.imp fun h => ⟨rfl, hCost, h⟩

theorem Placed.congrInode {b n : Nat} {inode' : Mem} (h : Placed geo base ino content size b n inode supply fs disk)
    (hSlots : ∀ k < 15, iBlock inode' k = iBlock inode k) (hSize : iSizeLo inode' = iSizeLo inode) :
    Placed geo base ino content size b n inode' supply fs disk := by
  refine ⟨h.good.congrInode hSlots, h.pos, ?_, fun b' hOther => ?_, hSize.trans h.size, h.supply⟩
  · rw [← h.mapped]
    unfold mappedBlock
    split
    · rfl
    · rename_i k path hPath
      rw [hSlots k (mapPath_spec hPath).1]
  · rw [blockContent_congr hSlots, h.others b' hOther]

/-! ### One round -/

theorem writeTarget_granted {b : Nat} (hIno : geo.HasInode ino) (hRange : b < ndirBlocks + geo.ptrsPerBlock) :
    Triple (Granted (InHand geo base ino content size inode []
        (supply + if (content b).isSome then 0 else 1 + costOf inode b)))
      (writeTarget ino inode b)
      (fun result => Granted fun fs disk => ∃ n, result.2 = some (n, (content b).getD zeroBlock) ∧
        indirectCost result.1 = (if (content b).isSome then indirectCost inode else costAfter inode b) ∧
        Placed geo base ino content size b n result.1 supply fs disk) E := by
  unfold writeTarget
  refine get_granted fun st hst => ?_
  obtain rfl := hst.good.geometry
  have hContent := hst.content b
  refine Triple.bind (ext4GetFileBlock_granted inode b) fun diskBlock => ?_
  refine Triple.granted_weaken (Q := fun fs disk => diskBlock = mappedBlock st.fs.ptrsPerBlock st.disk inode b ∧
    disk = st.disk ∧ InHand st.fs.geometry base ino content size inode []
      (supply + if (content b).isSome then 0 else 1 + costOf inode b) fs disk) ?_ ?_
  swap
  · rintro fs disk ⟨⟨hHand, rfl, rfl⟩, hBlock⟩
    exact ⟨hBlock, rfl, hHand⟩
  refine Triple.granted_and fun hBlock => ?_
  have hHere : blockContent st.fs.geometry.ptrsPerBlock st.disk inode b =
      if diskBlock = 0 then none else some (st.disk diskBlock) := by
    rw [hBlock]
    rfl
  rw [hContent] at hHere
  by_cases hHole : diskBlock = 0
  · rw [if_pos hHole]
    have hNone : content b = none := hHere.trans (if_pos hHole)
    simp only [hNone, Option.isSome_none, Bool.false_eq_true, if_false, Option.getD_none]
    refine Triple.attempt_bind_total (ext4AllocBlock_granted (T := fun n => InHand st.fs.geometry base ino content size
      inode [n] (supply + costOf inode b)) ?_) fun n => ?_
    · rintro fs disk ⟨-, hHand⟩
      rw [show supply + (1 + costOf inode b) = supply + costOf inode b + 1 by omega] at hHand
      obtain ⟨g, i, hFound, hSmall, -, hTaken⟩ := hHand.take hIno
      exact ⟨g, i, hFound, hSmall, hTaken⟩
    · refine Triple.bind (ext4SetFileBlock_granted hIno hRange) ?_
      rintro ⟨stored, inode'⟩
      refine Triple.granted_and ?_
      rintro rfl
      refine Triple.pure fun _ hs => hs.imp ?_
      rintro ⟨hCost, hPlaced⟩
      have hSlots : ∀ k < 15, iBlock (addIBlocks inode' (st.fs.blockSize / 512)) k = iBlock inode' k :=
        fun k hk => iBlock_store (by omega) hk
      refine ⟨n, rfl, ?_, hPlaced.congrInode hSlots (load_store_disjoint (by omega))⟩
      rw [indirectCost, hSlots indBlock (by decide)]
      exact hCost
  · rw [if_neg hHole]
    have hSome : content b = some (st.disk diskBlock) := hHere.trans (if_neg hHole)
    simp only [hSome, Option.isSome_some, if_true, Nat.add_zero, Option.getD_some]
    refine Triple.attempt_bind_total (ext4ReadBlock_granted _) fun buf => ?_
    refine Triple.pure fun _ hs => hs.imp ?_
    rintro ⟨⟨hDisk, hHand⟩, rfl⟩
    rw [hDisk] at hHand ⊢
    exact ⟨diskBlock, rfl, rfl, hHand.good, hHole, hBlock.symm, fun b' _ => hHand.content b', hHand.size,
      hHand.supply⟩

def blockWritten (content : Nat → Option Mem) (b offset n : Nat) (src : Nat → UInt8) : Nat → Option Mem :=
  Function.update content b (some (fill ((content b).getD zeroBlock) offset n src))

theorem Placed.write {b n off len : Nat} {src : Nat → UInt8} (hIno : geo.HasInode ino)
    (h : Placed geo base ino content size b n inode supply fs disk) :
    InHand geo base ino (blockWritten content b off len src) size inode [] supply fs
      (Function.update disk n (fill ((content b).getD zeroBlock) off len src)) := by
  have hMapped : mappedBlock geo.ptrsPerBlock disk inode b ≠ 0 := h.mapped ▸ h.pos
  have hPtrs : fs.ptrsPerBlock = geo.ptrsPerBlock := by
    rw [← h.good.geometry]
    rfl
  have hWritable := h.good.writable_mapped hIno (hPtrs ▸ hMapped)
  rw [hPtrs, h.mapped] at hWritable
  refine ⟨h.good.write hWritable, fun b' => ?_, h.size, h.supply.write h.good hWritable.bitmap_ne⟩
  have hWrite : blockContent geo.ptrsPerBlock (Function.update disk (mappedBlock geo.ptrsPerBlock disk inode b)
      (fill ((content b).getD zeroBlock) off len src)) inode b' = _ :=
    blockContent_write (slotsOf_withInode base ino inode) h.good.world hIno hMapped
  rw [h.mapped] at hWrite
  rw [hWrite, blockWritten, Function.update_apply]
  split
  case isTrue hHere => rfl
  case isFalse hOther => exact h.others b' hOther

end Hand

/-! ### The blocks of a range -/

section Ranges

variable {blockSize pos n k : Nat} {C C' C'' : Nat → Option Mem} {src : Nat → UInt8}

def touchedBlocks (blockSize pos n : Nat) : List Nat :=
  if n = 0 then [] else List.range' (pos / blockSize) ((pos + n - 1) / blockSize - pos / blockSize + 1)

def blocksNeeded (content : Nat → Option Mem) : Nat → List Nat → Nat
  | _, [] => 0
  | cost, b :: rest =>
    if (content b).isSome then blocksNeeded content cost rest
    else if b < ndirBlocks then 1 + blocksNeeded content cost rest
    else 1 + cost + blocksNeeded content 0 rest

theorem blocksNeeded_congr {cost : Nat} {blocks : List Nat} (h : ∀ b ∈ blocks, C' b = C b) :
    blocksNeeded C' cost blocks = blocksNeeded C cost blocks := by
  induction blocks generalizing cost with
  | nil => rfl
  | cons b rest ih =>
    have hRest : ∀ c, blocksNeeded C' c rest = blocksNeeded C c rest := fun c =>
      ih fun x hx => h x (List.mem_cons_of_mem b hx)
    rw [blocksNeeded, blocksNeeded, h b List.mem_cons_self, hRest, hRest]

theorem touchedBlocks_step (hPos : 0 < blockSize) (hMore : 0 < n) (hk : k = min (blockSize - pos % blockSize) n) :
    touchedBlocks blockSize pos n = pos / blockSize :: touchedBlocks blockSize (pos + k) (n - k) ∧
      ∀ b ∈ touchedBlocks blockSize (pos + k) (n - k), b ≠ pos / blockSize := by
  have hSplit := Nat.div_add_mod pos blockSize
  have hLt := Nat.mod_lt pos hPos
  by_cases hLast : n ≤ blockSize - pos % blockSize
  · obtain rfl : k = n := by omega
    have hEnd : (pos + k - 1) / blockSize = pos / blockSize := by
      rw [Nat.add_sub_assoc hMore]
      exact (block_of_pos hPos (by omega)).1
    have hRest : touchedBlocks blockSize (pos + k) (k - k) = [] := if_pos (Nat.sub_self k)
    rw [hRest, touchedBlocks, if_neg hMore.ne', hEnd, Nat.sub_self]
    exact ⟨rfl, nofun⟩
  · have hk' : k = blockSize - pos % blockSize := by omega
    have hNext : (pos + k) / blockSize = pos / blockSize + 1 := by
      have hHere : pos + k = blockSize * (pos / blockSize + 1) := by
        rw [Nat.mul_succ]
        omega
      rw [hHere, Nat.mul_div_cancel_left _ hPos]
    have hSame : pos + k + (n - k) - 1 = pos + n - 1 := by omega
    have hLe : (pos + k) / blockSize ≤ (pos + n - 1) / blockSize := Nat.div_le_div_right (by omega)
    have hCount : (pos + n - 1) / blockSize - pos / blockSize + 1 =
        (pos + n - 1) / blockSize - (pos / blockSize + 1) + 1 + 1 := by omega
    rw [touchedBlocks, touchedBlocks, if_neg hMore.ne', if_neg (by omega), hSame, hNext, hCount, List.range'_succ]
    refine ⟨rfl, fun b hb => ?_⟩
    have hLow := (List.mem_range'_1.mp hb).1
    omega

structure FileWritten (blockSize : Nat) (C C' : Nat → Option Mem) (pos n : Nat) (src : Nat → UInt8) : Prop where
  bytes : ∀ p, fileByte blockSize C' p = if pos ≤ p ∧ p < pos + n then src (p - pos) else fileByte blockSize C p
  mapped : ∀ p, Mapped blockSize C' p ↔
    Mapped blockSize C p ∨ ∃ q, pos ≤ q ∧ q < pos + n ∧ q / blockSize = p / blockSize

theorem FileWritten.none (C : Nat → Option Mem) (pos : Nat) (src : Nat → UInt8) : FileWritten blockSize C C pos 0 src :=
  ⟨fun p => (if_neg (by omega)).symm, fun p => ⟨Or.inl, fun h => h.elim id fun ⟨q, hLow, hHigh, _⟩ => by omega⟩⟩

theorem FileWritten.trans (h : FileWritten blockSize C C' pos k src)
    (h' : FileWritten blockSize C' C'' (pos + k) n fun i => src (k + i)) : FileWritten blockSize C C'' pos (k + n) src := by
  constructor
  · intro p
    rw [h'.bytes, h.bytes]
    by_cases hLow : pos + k ≤ p ∧ p < pos + k + n
    · rw [if_pos hLow, if_pos (by omega)]
      congr 1
      omega
    · rw [if_neg hLow]
      by_cases hHere : pos ≤ p ∧ p < pos + k
      · rw [if_pos hHere, if_pos (by omega)]
      · rw [if_neg hHere, if_neg (by omega)]
  · intro p
    rw [h'.mapped, h.mapped, or_assoc]
    refine or_congr_right ⟨?_, ?_⟩
    · rintro (⟨q, hLow, hHigh, hBlock⟩ | ⟨q, hLow, hHigh, hBlock⟩)
      · exact ⟨q, hLow, by omega, hBlock⟩
      · exact ⟨q, by omega, by omega, hBlock⟩
    · rintro ⟨q, hLow, hHigh, hBlock⟩
      by_cases hFirst : q < pos + k
      · exact Or.inl ⟨q, hLow, hFirst, hBlock⟩
      · exact Or.inr ⟨q, by omega, by omega, hBlock⟩

theorem FileWritten.round (hPos : 0 < blockSize) (hMore : 0 < k) (hFits : pos % blockSize + k ≤ blockSize) :
    FileWritten blockSize C (blockWritten C (pos / blockSize) (pos % blockSize) k src) pos k src := by
  have hInside : ∀ q, pos ≤ q → q < pos + k → q / blockSize = pos / blockSize ∧
      q % blockSize = pos % blockSize + (q - pos) := by
    intro q hLow hHigh
    have hBlock := @block_of_pos blockSize pos (q - pos) hPos (by omega)
    rwa [Nat.add_sub_cancel' hLow] at hBlock
  constructor
  · intro p
    rw [fileByte, blockWritten, Function.update_apply]
    by_cases hHere : pos ≤ p ∧ p < pos + k
    · obtain ⟨hBlock, hOffset⟩ := hInside p hHere.1 hHere.2
      rw [if_pos hBlock, Option.getD_some, hOffset, fill_inside (by omega), if_pos hHere]
    · rw [if_neg hHere]
      by_cases hSame : p / blockSize = pos / blockSize
      · have hSplit := Nat.div_add_mod pos blockSize
        have hSplit' := Nat.div_add_mod p blockSize
        rw [hSame] at hSplit'
        rw [if_pos hSame, Option.getD_some, fill_outside (by omega), fileByte, hSame]
      · rw [if_neg hSame, fileByte]
  · intro p
    rw [Mapped, blockWritten, Function.update_apply]
    by_cases hSame : p / blockSize = pos / blockSize
    · rw [if_pos hSame]
      exact ⟨fun _ => Or.inr ⟨pos, Nat.le_refl _, by omega, hSame.symm⟩, fun _ => rfl⟩
    · rw [if_neg hSame]
      refine ⟨Or.inl, fun h => h.elim id ?_⟩
      rintro ⟨q, hLow, hHigh, hBlock⟩
      exact absurd (hBlock.symm.trans (hInside q hLow hHigh).1) hSame

theorem blocksNeeded_cons (C : Nat → Option Mem) (inode : Mem) (b : Nat) (rest : List Nat) :
    blocksNeeded C (indirectCost inode) (b :: rest) =
      blocksNeeded C (if (C b).isSome then indirectCost inode else costAfter inode b) rest +
        (if (C b).isSome then 0 else 1 + costOf inode b) := by
  rw [blocksNeeded]
  by_cases hSome : (C b).isSome
  · rw [if_pos hSome, if_pos hSome, if_pos hSome, Nat.add_zero]
  · rw [if_neg hSome, if_neg hSome, if_neg hSome, costOf, costAfter]
    split
    · exact Nat.add_comm _ _
    · exact Nat.add_comm _ _

end Ranges

/-! ### The whole write -/

section Whole

variable {geo : Geometry} {base : Nat → Nat → Nat} {ino size supply : Nat} {E : Volume → Prop}

/-- By induction on the rounds: every round writes its part, and what can be had is enough for the rest. -/
theorem writeLoop_granted (hIno : geo.HasInode ino) (hBlock : 0 < geo.blockSize) (data : List UInt8) {offset : Nat}
    (hRange : offset + data.length ≤ (ndirBlocks + geo.ptrsPerBlock) * geo.blockSize)
    (hWidth : offset + data.length < 2 ^ 64) (fuel : Nat) (content : Nat → Option Mem) (inode : Mem) {written : Nat}
    (hWritten : written ≤ data.length) (hFuel : data.length - written ≤ fuel) :
    Triple (Granted (InHand geo base ino content size inode [] (supply + blocksNeeded content (indirectCost inode)
        (touchedBlocks geo.blockSize (offset + written) (data.length - written)))))
      (writeLoop ino data offset fuel inode written)
      (fun result => Granted fun fs disk => result.2 = data.length ∧
        ∃ content', FileWritten geo.blockSize content content' (offset + written) (data.length - written)
            (fun i => data.getD (written + i) 0) ∧
          InHand geo base ino content' size result.1 [] supply fs disk) E := by
  have hDone : ∀ content inode written, written ≤ data.length → ¬ written < data.length →
      Triple (Granted (InHand geo base ino content size inode [] (supply + blocksNeeded content (indirectCost inode)
          (touchedBlocks geo.blockSize (offset + written) (data.length - written)))))
        (pure (inode, written) : Ext4M (Mem × Nat))
        (fun result => Granted fun fs disk => result.2 = data.length ∧
          ∃ content', FileWritten geo.blockSize content content' (offset + written) (data.length - written)
              (fun i => data.getD (written + i) 0) ∧
            InHand geo base ino content' size result.1 [] supply fs disk) E := by
    intro content inode written hLe hAll
    obtain rfl : written = data.length := by omega
    rw [Nat.sub_self]
    exact Triple.pure fun _ hs => hs.imp fun h => ⟨rfl, content, FileWritten.none _ _ _, h⟩
  induction fuel generalizing content inode written with
  | zero => exact hDone content inode written hWritten (by omega)
  | succ fuel ih =>
    unfold writeLoop
    split
    case isFalse hAll => exact hDone content inode written hWritten hAll
    case isTrue hMore =>
      refine get_granted fun st hst => ?_
      obtain rfl := hst.good.geometry
      have hNoWrap : (offset + written) % 2 ^ 64 = offset + written := Nat.mod_eq_of_lt (by omega)
      dsimp only
      rw [hNoWrap]
      set pos := offset + written with hPosDef
      set toWrite := min (st.fs.geometry.blockSize - pos % st.fs.geometry.blockSize) (data.length - written) with hCopy
      have hRem := Nat.mod_lt pos hBlock
      obtain ⟨hTouched, hOthers⟩ := touchedBlocks_step hBlock (Nat.sub_pos_of_lt hMore) hCopy
      have hInRange : pos / st.fs.geometry.blockSize < ndirBlocks + st.fs.geometry.ptrsPerBlock :=
        Nat.div_lt_of_lt_mul (by rw [Nat.mul_comm]; omega)
      set b := pos / st.fs.geometry.blockSize with hb
      set cost := (if (content b).isSome then indirectCost inode else costAfter inode b) with hCost
      rw [hTouched, blocksNeeded_cons, ← Nat.add_assoc]
      refine Triple.bind (Triple.granted_weaken (writeTarget_granted hIno hInRange) fun _ _ h => h.1) ?_
      rintro ⟨inode', target⟩
      cases target with
      | none =>
        intro s hs
        obtain ⟨n, hNone, -⟩ := hs.holds
        cases hNone
      | some target =>
        obtain ⟨diskBlock, buf⟩ := target
        dsimp only
        refine Triple.granted_weaken (Q := fun fs disk => buf = (content b).getD zeroBlock ∧ indirectCost inode' = cost ∧
          Placed st.fs.geometry base ino content size b diskBlock inode' (supply + blocksNeeded content cost
            (touchedBlocks st.fs.geometry.blockSize (pos + toWrite) (data.length - written - toWrite))) fs disk) ?_ ?_
        swap
        · rintro fs disk ⟨n, hTarget, hPlaced⟩
          cases hTarget
          exact ⟨rfl, hPlaced⟩
        refine Triple.granted_and ?_
        rintro rfl
        refine Triple.granted_and fun hInodeCost => ?_
        have hNeeded : blocksNeeded content cost
              (touchedBlocks st.fs.geometry.blockSize (pos + toWrite) (data.length - written - toWrite)) =
            blocksNeeded (blockWritten content b (pos % st.fs.geometry.blockSize) toWrite fun i => data.getD (written + i) 0)
              (indirectCost inode')
              (touchedBlocks st.fs.geometry.blockSize (pos + toWrite) (data.length - written - toWrite)) := by
          rw [hInodeCost]
          exact (blocksNeeded_congr fun x hx => Function.update_of_ne (hOthers x hx) _ _).symm
        rw [hNeeded]
        refine Triple.attempt_bind_total (Q := fun _ => Granted (InHand st.fs.geometry base ino
          (blockWritten content b (pos % st.fs.geometry.blockSize) toWrite fun i => data.getD (written + i) 0) size inode' []
          (supply + blocksNeeded (blockWritten content b (pos % st.fs.geometry.blockSize) toWrite fun i =>
              data.getD (written + i) 0) (indirectCost inode')
            (touchedBlocks st.fs.geometry.blockSize (pos + toWrite) (data.length - written - toWrite))))) ?_ fun _ => ?_
        · exact ext4WriteBlockRaw_granted fun fs disk hPlaced => hPlaced.write hIno
        · have hRest := @ih (blockWritten content b (pos % st.fs.geometry.blockSize) toWrite fun i =>
            data.getD (written + i) 0) inode' (written + toWrite) (by omega) (by omega)
          rw [← Nat.add_assoc, ← Nat.sub_sub] at hRest
          refine hRest.conseq (fun _ => id) ?_ fun _ => id
          refine fun result s hs => hs.imp ?_
          rintro ⟨hAll, content', hFile, hHand⟩
          refine ⟨hAll, content', ?_, hHand⟩
          have hRound : FileWritten st.fs.geometry.blockSize content (blockWritten content b
              (pos % st.fs.geometry.blockSize) toWrite fun i => data.getD (written + i) 0) pos toWrite fun i =>
              data.getD (written + i) 0 := FileWritten.round hBlock (by omega) (by omega)
          have hShift : (fun i => data.getD (written + toWrite + i) 0) = fun i => data.getD (written + (toWrite + i)) 0 := by
            funext i
            rw [Nat.add_assoc]
          rw [hShift] at hFile
          have hWhole := hRound.trans hFile
          rwa [Nat.add_sub_cancel' (by omega)] at hWhole

theorem ext4WriteInode_granted {Q Q' : Assertion} {inode : Mem} (hIno : geo.HasInode ino)
    (hGeo : ∀ fs disk, Q fs disk → fs.geometry = geo)
    (h : ∀ fs disk, Q fs disk → Q' fs (Function.update disk (fs.inodeBlock ino)
      (fill (disk (fs.inodeBlock ino)) (fs.inodeOffset ino) inodeBytes inode))) :
    Triple (Granted Q) (ext4WriteInode ino inode) (fun _ => Granted Q') E := by
  unfold ext4WriteInode
  refine get_granted fun st hst => ?_
  obtain rfl := hGeo _ _ hst
  rw [if_neg hIno.1, if_neg (show ¬ st.fs.inodeGroup ino ≥ st.fs.groupCount from Nat.not_le.mpr hIno.2)]
  refine Triple.bind kmalloc_granted fun _ => Triple.bind (ext4ReadBlock_granted _) fun buf => ?_
  refine ext4WriteBlockRaw_granted ?_
  rintro fs disk ⟨⟨hQ, rfl, -⟩, rfl⟩
  exact h _ disk hQ

def Image.fileSize (im : Image) (ino : Nat) : Nat := iSizeLo (im.fs.inodeOn im.disk ino)

def Image.fileContent (im : Image) (ino : Nat) : Nat → Option Mem := im.fs.content im.disk ino

structure WriteDone (im : Image) (ino : Nat) (data : List UInt8) (offset : Nat) (fs : Ext4Fs) (disk : Nat → Mem) :
    Prop where
  geometry : fs.geometry = im.fs.geometry
  size : Image.fileSize ⟨fs, disk⟩ ino = max (im.fileSize ino) (offset + data.length)
  file : FileWritten im.fs.blockSize (im.fileContent ino) (Image.fileContent ⟨fs, disk⟩ ino) offset data.length fun i => data.getD i 0

theorem InHand.writeBack {im : Image} {content : Nat → Option Mem} {inode inode' : Mem} {fs : Ext4Fs} {disk : Nat → Mem}
    {data : List UInt8} {offset : Nat} (hIno : im.fs.geometry.HasInode ino)
    (h : InHand im.fs.geometry base ino content size inode [] supply fs disk)
    (hFile : FileWritten im.fs.blockSize (im.fileContent ino) content offset data.length fun i => data.getD i 0)
    (hSlots : ∀ k < 15, iBlock inode' k = iBlock inode k)
    (hSize : iSizeLo inode' = max (im.fileSize ino) (offset + data.length)) :
    WriteDone im ino data offset fs (Function.update disk (fs.inodeBlock ino)
      (fill (disk (fs.inodeBlock ino)) (fs.inodeOffset ino) inodeBytes inode')) := by
  have hBytes : inodeBytes = 116 := rfl
  refine ⟨h.good.geometry, (load_inodeOn_write (by omega)).trans hSize, ?_⟩
  have hContent : Image.fileContent ⟨fs, Function.update disk (fs.inodeBlock ino)
      (fill (disk (fs.inodeBlock ino)) (fs.inodeOffset ino) inodeBytes inode')⟩ ino = content := by
    funext b
    have hPtrs : fs.ptrsPerBlock = im.fs.geometry.ptrsPerBlock := congrArg Geometry.ptrsPerBlock h.good.geometry
    have hBlock : fs.inodeBlock ino = im.fs.geometry.inodeBlock ino := congrArg (Geometry.inodeBlock · ino) h.good.geometry
    rw [← h.content b, Image.fileContent, Ext4Fs.content]
    dsimp only
    rw [hPtrs, blockContent_congr fun k hk => (load_inodeOn_write (by omega)).trans (hSlots k hk), hBlock]
    refine blockContent_update (slotsOf_withInode base ino inode) hIno fun k path hThere => ?_
    cases h.good.world.own.unique (h.good.world.sound.refers_inodeBlock hIno) hThere
  rw [hContent]
  exact hFile

def Image.writeNeeds (im : Image) (ino : Nat) (data : List UInt8) (offset : Nat) : Nat :=
  blocksNeeded (im.fileContent ino) (indirectCost (im.fs.inodeOn im.disk ino))
    (touchedBlocks im.fs.blockSize offset data.length)

/-- The write lies in the part of a file that direct blocks and the single indirect block reach, and there are
enough free blocks. -/
structure Image.Plain (im : Image) (ino : Nat) (data : List UInt8) (offset : Nat) : Prop where
  range : offset + data.length ≤ (ndirBlocks + im.fs.ptrsPerBlock) * im.fs.blockSize
  supply : Supplies (im.fs.inodeGroup ino) (im.writeNeeds ino data offset) im.fs im.disk

theorem ext4WriteFile_granted {im : Image} {data : List UInt8} {offset : Nat} (hConsistent : im.Consistent)
    (hIno : im.fs.geometry.HasInode ino) (hWidth : offset + data.length < 2 ^ 32) (hPlain : im.Plain ino data offset) :
    Triple (Granted fun fs disk => fs = im.fs ∧ disk = im.disk) (ext4WriteFile ino data offset)
      (fun result => Granted fun fs disk => result = data.length ∧ WriteDone im ino data offset fs disk) E := by
  have hBlock : 0 < im.fs.geometry.blockSize := Nat.lt_of_lt_of_le (by decide) hConsistent.sound.blockSize_ge
  unfold ext4WriteFile
  refine Triple.bind (ext4ReadInode_granted hIno fun fs disk h => by rw [h.1]) fun inode => ?_
  refine Triple.granted_weaken (Q := fun fs disk => inode = im.fs.inodeOn im.disk ino ∧
    InHand im.fs.geometry (im.fs.geometry.inodeSlots im.disk) ino (im.fileContent ino) (im.fileSize ino) inode []
      (im.writeNeeds ino data offset) fs disk) ?_ ?_
  swap
  · rintro fs disk ⟨⟨rfl, rfl⟩, rfl⟩
    have hWorld : im.fs.geometry.World im.disk (im.fs.geometry.inodeSlots im.disk) :=
      ⟨hConsistent.sound, hConsistent.exclusive, hConsistent.boot⟩
    have hGood : Good im.fs.geometry (im.fs.geometry.inodeSlots im.disk) (im.fs.geometry.inodeSlots im.disk) [] im.fs
        im.disk := ⟨rfl, hWorld, fun _ _ _ => rfl, nofun⟩
    refine ⟨rfl, hGood.congr fun i k hi hk => ?_, fun _ => rfl, rfl, hPlain.supply⟩
    unfold withInode
    split
    case isTrue hSame => rw [hSame, hGood.read hIno]
    case isFalse hOther => rfl
  refine Triple.granted_and ?_
  rintro rfl
  refine Triple.bind kmalloc_granted fun _ => ?_
  have hLoop := @writeLoop_granted im.fs.geometry (im.fs.geometry.inodeSlots im.disk) ino (im.fileSize ino) 0 E hIno hBlock
    data offset hPlain.range (by omega) data.length (im.fileContent ino) (im.fs.inodeOn im.disk ino) 0 (Nat.zero_le _)
    (Nat.sub_le _ _)
  simp only [Nat.zero_add, Nat.add_zero, Nat.sub_zero] at hLoop
  refine Triple.bind hLoop ?_
  rintro ⟨inode', written⟩
  refine Triple.granted_and ?_
  rintro rfl
  dsimp only
  rw [Nat.mod_eq_of_lt (show offset + data.length < 2 ^ 64 by omega)]
  refine Triple.attempt_bind_total (Q := fun _ => Granted (WriteDone im ino data offset)) ?_ fun _ =>
    Triple.pure fun _ hs => hs.imp fun h => ⟨rfl, h⟩
  refine ext4WriteInode_granted hIno ?_ ?_
  · rintro fs disk ⟨content', -, hHand⟩
    exact hHand.good.geometry
  · rintro fs disk ⟨content', hFile, hHand⟩
    refine hHand.writeBack hIno hFile (fun k hk => ?_) ?_
    · rw [setIMtime, iBlock_store (by omega) hk]
      split
      · exact iBlock_store (by omega) hk
      · rfl
    · have hOther : ∀ m : Mem, iSizeLo (setIMtime m 0) = iSizeLo m := fun m => load_store_disjoint (by omega)
      rw [hOther, hHand.size]
      split
      · rw [iSizeLo, setISizeLo, load_store_same_of_lt hWidth]
        omega
      · rw [hHand.size]
        omega

end Whole

end UnixOS.Fs.Ext4
