import UnixOS.Mm.KmallocReuse
import UnixOS.Mm.KmallocWrites

/-! # Content of allocations

The allocator writes headers only, so the data of used blocks stays while others are allocated and freed. With the
copy of `krealloc` this gives what a resized allocation holds.
-/

namespace UnixOS.Kmalloc

open ByteMemory Tiling

def liveBlocks (h : Heap) : List Nat :=
  ((headers h).filter fun a => h.get .magic a = blockMagicUsed).map blockData

def Block.HasData (d : Block) (y : Nat) : Prop := d.addr + headerSize ≤ y ∧ y < d.addr + d.size

def HeadersOnly (A : List Nat) (h h' : Heap) : Prop :=
  ∀ y, (∀ a ∈ A, y < a ∨ a + headerSize ≤ y) → h'.mem y = h.mem y

section Frames

variable {base : Nat} {h h' : Heap} {b d u : Block} {bs B₁ B₂ : List Block} {fl : List Nat} {A S : List Nat}

theorem Wrote.headersOnly (hWrote : Wrote (Permit A S) h h') : HeadersOnly A h h' := by
  induction hWrote with
  | same hMem => exact fun y _ => congrFun hMem y
  | @set h₁ h₂ f a v _ hPermit hMem ih =>
    intro y hy
    have hOff := hy a hPermit.1
    have hEnd := field_end f
    rw [hMem, ← ih y hy]
    change store h₁.mem (a + f.offset) f.width v y = h₁.mem y
    rw [store_eq_fill]
    exact fill_outside (by omega)

theorem Consistent.off_data (c : Consistent base h bs fl) (hd : d ∈ bs) {y : Nat} (hy : d.HasData y) :
    ∀ a ∈ addrs bs, y < a ∨ a + headerSize ≤ y := by
  intro a ha
  obtain ⟨e, he, rfl⟩ := List.mem_map.mp ha
  have hRoom := c.rep.room e he
  obtain ⟨hLow, hHigh⟩ := hy
  obtain rfl | hBefore | hBehind := c.rep.tiles.eq_or_disjoint he hd <;> omega

theorem Consistent.kfree_data (c : Consistent base h bs fl) (hb : b ∈ bs) (hUsed : b.used = true) (hd : d ∈ bs)
    {y : Nat} (hy : d.HasData y) : (kfree h (b.addr + headerSize)).mem y = h.mem y := by
  obtain ⟨B₁, B₂, rfl⟩ := List.append_of_mem hb
  have hOff := c.off_data hd hy
  have hMark : HeadersOnly (addrs (B₁ ++ b :: B₂)) h (markFree h b.addr) :=
    (wrote_markFree (S := []) (mem_addrs hb)).headersOnly
  have hRelease : HeadersOnly (addrs (B₁ ++ b :: B₂)) (markFree h b.addr) (kfreeBlockLocked h b.addr) :=
    (wrote_release (S := []) c hUsed).headersOnly
  rw [kfree_used c hb hUsed, hRelease y hOff, hMark y hOff]

theorem Consistent.used_freed (c : Consistent base h bs fl) (hb : b ∈ bs) (hUsed : b.used = true) :
    ∃ bs' fl', Consistent base (kfree h (b.addr + headerSize)) bs' fl' ∧
      ∀ d : Block, d.used = true → (d ∈ bs' ↔ d ∈ bs ∧ d ≠ b) := by
  obtain ⟨B₁, B₂, rfl⟩ := List.append_of_mem hb
  obtain ⟨fl', hFreed⟩ := c.freed hUsed
  refine ⟨Kmalloc.freed B₁ b B₂, fl', by rwa [kfree_used c hb hUsed], ?_⟩
  intro d hd
  constructor
  · intro hMem
    have hOthers := used_of_freed hMem hd
    refine ⟨mem_of_others hOthers, ?_⟩
    rintro rfl
    exact c.rep.tiles.addr_ne hOthers rfl
  · rintro ⟨hMem, hne⟩
    refine mem_freed hMem hd fun hAddr => hne ?_
    exact c.rep.tiles.eq_of_addr_eq hMem hb hAddr

theorem Consistent.used_served (c : Consistent base h bs fl) {size flags : Nat} {p : Nat}
    (hRun : kmalloc base h size flags = some (h', p)) (hp : p ≠ 0) :
    ∃ u bs' fl', Consistent base h' bs' fl' ∧ u.used = true ∧ p = u.addr + headerSize ∧ size + headerSize ≤ u.size ∧
      (∀ d ∈ bs, d.used = true → d.addr ≠ u.addr) ∧ (∀ d : Block, d.used = true → (d ∈ bs' ↔ d ∈ bs ∨ d = u)) ∧
      ∀ d ∈ bs, d.used = true → ∀ y, d.HasData y → h'.mem y = h.mem y := by
  obtain ⟨hNone, -⟩ | ⟨t, h₁, B₁, b, B₂, l₁, l₂, hSome, hServed⟩ := kmalloc_outcome c size flags
  · obtain ⟨-, rfl⟩ := Prod.mk.inj (Option.some.inj (hNone.symm.trans hRun))
    exact absurd rfl hp
  obtain ⟨rfl, rfl⟩ := Prod.mk.inj (Option.some.inj (hSome.symm.trans hRun))
  obtain ⟨fl', hC⟩ := c.served_heap hServed
  obtain ⟨rfl, rfl, hFree, hCover, hFits, hAligned, hHeap⟩ := hServed
  obtain ⟨⟨u, hu, huAddr, huUsed, huSize⟩, hKeep⟩ := mem_served B₁ B₂ hFits
  have hOther : ∀ d ∈ B₁ ++ b :: B₂, d.used = true → d ∈ B₁ ∨ d ∈ B₂ := by
    intro d hd hUsed
    refine (mem_split hd).resolve_left ?_
    rintro rfl
    rw [hFree] at hUsed
    cases hUsed
  refine ⟨u, _, fl', hC, huUsed, by rw [huAddr], Nat.le_trans hCover huSize, ?_, ?_, ?_⟩
  · intro d hd hUsed
    rw [huAddr]
    exact c.rep.tiles.addr_ne (hOther d hd hUsed)
  · intro d hUsed
    constructor
    · intro hd
      obtain hAddr | hOld := used_of_served hd hUsed
      · exact .inr (hC.rep.tiles.eq_of_addr_eq hd hu (hAddr.trans huAddr.symm))
      · exact .inl (mem_of_others hOld)
    · rintro (hd | rfl)
      · exact hKeep d (hOther d hd hUsed)
      · exact hu
  · intro d hd hUsed y hy
    have hApart := c.rep.tiles.around (hOther d hd hUsed)
    have hTake : HeadersOnly ((b.addr + t) :: addrs (B₁ ++ b :: B₂)) h (Kmalloc.takeBlock h b.addr (l₁.getLastD 0) t) :=
      (wrote_takeBlock (S := [b.addr]) c (Nat.le_trans (Nat.le_add_left headerSize size) hCover)
        (fun x hx => List.mem_cons_of_mem _ hx) List.mem_cons_self List.mem_cons_self).headersOnly
    have hSame : (Kmalloc.takeBlock h b.addr (l₁.getLastD 0) t).mem y = h.mem y := by
      refine hTake y fun a ha => ?_
      obtain rfl | ha := List.mem_cons.mp ha
      · obtain ⟨hLow, hHigh⟩ := hy
        omega
      · exact c.off_data hd hy a ha
    obtain rfl | rfl := hHeap
    · exact hSame
    · obtain ⟨hLow, hHigh⟩ := hy
      have hOut : y < b.addr + headerSize ∨ b.addr + headerSize + size ≤ y := by omega
      rw [← hSame]
      change fill (Kmalloc.takeBlock h b.addr (l₁.getLastD 0) t).mem (b.addr + headerSize) size (fun _ => 0) y = _
      exact fill_outside hOut

end Frames

section Walks

variable {base : Nat} {h : Heap} {bs : List Block} {fl : List Nat}

theorem Consistent.mem_liveBlocks (c : Consistent base h bs fl) {p : Nat} :
    p ∈ liveBlocks h ↔ ∃ d ∈ bs, d.used = true ∧ p = d.addr + headerSize := by
  simp only [liveBlocks, c.headers_eq, List.mem_map, List.mem_filter, decide_eq_true_eq]
  constructor
  · rintro ⟨a, ⟨ha, hMagic⟩, rfl⟩
    obtain ⟨d, hd, rfl⟩ := List.mem_map.mp ha
    refine ⟨d, hd, ?_, rfl⟩
    rw [c.rep.magic_eq d hd, Block.magic] at hMagic
    cases hUsed : d.used with
    | true => rfl
    | false =>
      rw [hUsed] at hMagic
      cases hMagic
  · rintro ⟨d, hd, hUsed, rfl⟩
    refine ⟨d.addr, ⟨mem_addrs hd, ?_⟩, rfl⟩
    rw [c.rep.magic_eq d hd, Block.magic, if_pos hUsed]

theorem Consistent.liveBlocks_nodup (c : Consistent base h bs fl) : (liveBlocks h).Nodup := by
  have hAddrs : (addrs bs).Nodup := by
    have hTiles := c.rep.tiles
    generalize h.heapStart = s at hTiles
    clear c
    induction bs generalizing s with
    | nil => exact List.nodup_nil
    | cons b bs ih =>
      obtain ⟨hAddr, hPos, hRest⟩ := hTiles
      refine List.nodup_cons.mpr ⟨?_, ih _ hRest⟩
      intro hMem
      obtain ⟨d, hd, hEq⟩ := List.mem_map.mp hMem
      have hBounds := hRest.bounds hd
      omega
  rw [liveBlocks, c.headers_eq]
  refine (hAddrs.filter _).map ?_
  intro x y hxy
  exact Nat.add_right_cancel hxy

theorem liveBlocks_perm {h' : Heap} {bs' : List Block} {fl' : List Nat} (c : Consistent base h bs fl)
    (c' : Consistent base h' bs' fl') {b u : Block} (hb : b ∈ bs) (hu : u.used = true)
    (hFresh : ∀ d ∈ bs, d.used = true → d.addr = u.addr → d = b)
    (hMem : ∀ d : Block, d.used = true → (d ∈ bs' ↔ (d ∈ bs ∧ d ≠ b) ∨ d = u)) :
    (liveBlocks h').Perm ((u.addr + headerSize) :: (liveBlocks h).erase (b.addr + headerSize)) := by
  have hErase : ∀ p, p ∈ (liveBlocks h).erase (b.addr + headerSize) ↔
      p ≠ b.addr + headerSize ∧ ∃ d ∈ bs, d.used = true ∧ p = d.addr + headerSize := by
    intro p
    rw [c.liveBlocks_nodup.mem_erase_iff, c.mem_liveBlocks]
  refine (List.perm_ext_iff_of_nodup c'.liveBlocks_nodup ?_).mpr ?_
  · refine List.nodup_cons.mpr ⟨?_, c.liveBlocks_nodup.erase _⟩
    intro hIn
    obtain ⟨hne, d, hd, hUsed, hPtr⟩ := (hErase _).mp hIn
    rw [hFresh d hd hUsed (Nat.add_right_cancel hPtr).symm] at hPtr
    exact hne hPtr
  · intro p
    rw [c'.mem_liveBlocks, List.mem_cons, hErase]
    constructor
    · rintro ⟨d, hd, hUsed, rfl⟩
      obtain ⟨hOld, hne⟩ | rfl := (hMem d hUsed).mp hd
      · refine .inr ⟨?_, d, hOld, hUsed, rfl⟩
        intro hEq
        exact hne (c.rep.tiles.eq_of_addr_eq hOld hb (Nat.add_right_cancel hEq))
      · exact .inl rfl
    · rintro (rfl | ⟨hne, d, hd, hUsed, rfl⟩)
      · exact ⟨u, (hMem u hu).mpr (.inr rfl), hu, rfl⟩
      · refine ⟨d, (hMem d hUsed).mpr (.inl ⟨hd, ?_⟩), hUsed, rfl⟩
        rintro rfl
        exact hne rfl

end Walks

section Realloc

variable {base : Nat}

/-- What a caller finds after `krealloc` has given it `q` for the allocation `x`. -/
structure Resized (c : Client) (x : Nat × Nat) (newSize : Nat) (h' : Heap) (q : Nat) : Prop where
  room : newSize ≤ dataSize h' q
  content : ∀ i < min x.2 newSize, h'.mem (q + i) = c.heap.mem (x.1 + i)
  others : ∀ y ∈ c.live, y.1 ≠ x.1 → dataSize h' y.1 = dataSize c.heap y.1 ∧
    ∀ i < dataSize c.heap y.1, h'.mem (y.1 + i) = c.heap.mem (y.1 + i)
  blocks : (liveBlocks h').Perm (q :: (liveBlocks c.heap).erase x.1)

theorem Consistent.dataSize_eq {h : Heap} {bs : List Block} {fl : List Nat} (c : Consistent base h bs fl) {b : Block}
    (hb : b ∈ bs) {p : Nat} (hPtr : p = b.addr + headerSize) : dataSize h p = b.size - headerSize := by
  rw [hPtr, dataSize, dataToBlock, Nat.add_sub_cancel, c.rep.size_eq b hb]

theorem Holds.others_kept {h h' : Heap} {bs bs' : List Block} {fl fl' : List Nat} {live : List (Nat × Nat)}
    (c : Consistent base h bs fl) (c' : Consistent base h' bs' fl') (hHolds : Holds bs live)
    {p : Nat} (hKeep : ∀ d ∈ bs, d.used = true → d.addr + headerSize ≠ p →
      d ∈ bs' ∧ ∀ y, d.HasData y → h'.mem y = h.mem y) :
    ∀ y ∈ live, y.1 ≠ p → dataSize h' y.1 = dataSize h y.1 ∧
      ∀ i < dataSize h y.1, h'.mem (y.1 + i) = h.mem (y.1 + i) := by
  intro y hy hne
  obtain ⟨d, hd, hUsed, hPtr, -⟩ := hHolds.block y hy
  obtain ⟨hd', hData⟩ := hKeep d hd hUsed (by rwa [← hPtr])
  have hRoom := c.rep.room d hd
  rw [c.dataSize_eq hd hPtr, c'.dataSize_eq hd' hPtr]
  refine ⟨rfl, fun i hi => hData _ ⟨?_, ?_⟩⟩ <;> omega

theorem copyData_mem (h : Heap) (dst src n : Nat) : (copyData h dst src n).mem = copy h.mem dst src n := rfl

theorem krealloc_content {c : Client} {bs : List Block} {fl : List Nat} (hC : Consistent base c.heap bs fl)
    (hHolds : Holds bs c.live) {x : Nat × Nat} (hx : x ∈ c.live) {newSize : Nat} (hPos : 0 < newSize) (flags : Nat) :
    ∃ h' q, krealloc base c.heap x.1 newSize flags = some (h', q) ∧ (q = 0 → h' = c.heap) ∧
      (q ≠ 0 → Resized c x newSize h' q) := by
  obtain ⟨b, hb, hUsed, hPtr, hRoom, ⟨hFits, hRun⟩ | hRun | ⟨h₁, q, hGrow, hq, hAlloc, hRun⟩⟩ :=
    krealloc_cases hC hHolds hx (Nat.pos_iff_ne_zero.mp hPos) flags
  · refine ⟨c.heap, x.1, hRun, fun _ => rfl, fun _ => ⟨?_, fun _ _ => rfl, fun _ _ _ => ⟨rfl, fun _ _ => rfl⟩, ?_⟩⟩
    · rw [hC.dataSize_eq hb hPtr]
      omega
    · exact List.perm_cons_erase (hC.mem_liveBlocks.mpr ⟨b, hb, hUsed, hPtr⟩)
  · exact ⟨c.heap, 0, hRun, fun _ => rfl, fun hNot => absurd rfl hNot⟩
  obtain ⟨u, bs₁, fl₁, hC₁, huUsed, huPtr, huRoom, hFresh, hMem₁, hData₁⟩ := hC.used_served hAlloc hq
  have hu : u ∈ bs₁ := (hMem₁ u huUsed).mpr (.inr rfl)
  have hb₁ : b ∈ bs₁ := (hMem₁ b hUsed).mpr (.inl hb)
  have hne : b.addr ≠ u.addr := hFresh b hb hUsed
  have hbRoom := hC.rep.room b hb
  have hC₂ := hC₁.copyData hu q x.1 (b.size - headerSize) (Nat.le_of_eq huPtr.symm) (by omega)
  obtain ⟨bs₃, fl₃, hC₃, hMem₃⟩ := hC₂.used_freed hb₁ hUsed
  rw [← hPtr] at hC₃
  -- data outside of the new block is not written by the copy, data in a used block not by the others
  have hFreeData : ∀ d ∈ bs₁, ∀ y, d.HasData y →
      (kfree (copyData h₁ q x.1 (b.size - headerSize)) x.1).mem y = copy h₁.mem q x.1 (b.size - headerSize) y := by
    intro d hd y hy
    have hData := hC₂.kfree_data hb₁ hUsed hd hy
    rwa [← hPtr, copyData_mem] at hData
  have hApart := hC₁.rep.tiles.eq_or_disjoint hb₁ hu
  refine ⟨_, q, hRun, fun hNull => absurd hNull hq, fun _ => ⟨?_, ?_, ?_, ?_⟩⟩
  · have hu₃ : u ∈ bs₃ := (hMem₃ u huUsed).mpr ⟨hu, fun hSame => hne (by rw [hSame])⟩
    rw [hC₃.dataSize_eq hu₃ huPtr]
    omega
  · intro i hi
    have hiOld : i < x.2 := Nat.lt_of_lt_of_le hi (Nat.min_le_left _ _)
    have hiNew : i < newSize := Nat.lt_of_lt_of_le hi (Nat.min_le_right _ _)
    have hCopied : copy h₁.mem q x.1 (b.size - headerSize) (q + i) = h₁.mem (x.1 + i) := by
      obtain hSame | hBefore | hBehind := hApart
      · exact absurd (congrArg Block.addr hSame) hne
      · exact copy_apart (by omega) (by omega)
      · exact copy_inside (by omega) (by omega)
    calc (kfree (copyData h₁ q x.1 (b.size - headerSize)) x.1).mem (q + i)
        = copy h₁.mem q x.1 (b.size - headerSize) (q + i) := hFreeData u hu _ ⟨by omega, by omega⟩
      _ = h₁.mem (x.1 + i) := hCopied
      _ = c.heap.mem (x.1 + i) := hData₁ b hb hUsed _ ⟨by omega, by omega⟩
  · refine Holds.others_kept hC hC₃ hHolds fun d hd hdUsed hdPtr => ?_
    have hd₁ : d ∈ bs₁ := (hMem₁ d hdUsed).mpr (.inl hd)
    have hdb : d ≠ b := by
      rintro rfl
      exact hdPtr hPtr.symm
    refine ⟨(hMem₃ d hdUsed).mpr ⟨hd₁, hdb⟩, fun y hy => ?_⟩
    have hOut : y < q ∨ q + (b.size - headerSize) ≤ y := by
      obtain ⟨hLow, hHigh⟩ := hy
      obtain hSame | hBefore | hBehind := hC₁.rep.tiles.eq_or_disjoint hd₁ hu
      · exact absurd (congrArg Block.addr hSame) (hFresh d hd hdUsed)
      · omega
      · omega
    calc (kfree (copyData h₁ q x.1 (b.size - headerSize)) x.1).mem y
        = copy h₁.mem q x.1 (b.size - headerSize) y := hFreeData d hd₁ y hy
      _ = h₁.mem y := copy_outside hOut
      _ = c.heap.mem y := hData₁ d hd hdUsed y hy
  · have hNew : ∀ d : Block, d.used = true → (d ∈ bs₃ ↔ (d ∈ bs ∧ d ≠ b) ∨ d = u) := by
      intro d hd
      rw [hMem₃ d hd, hMem₁ d hd]
      constructor
      · rintro ⟨hOld | rfl, hdb⟩
        · exact .inl ⟨hOld, hdb⟩
        · exact .inr rfl
      · rintro (⟨hOld, hdb⟩ | rfl)
        · exact ⟨.inl hOld, hdb⟩
        · exact ⟨.inr rfl, fun hSame => hne (by rw [hSame])⟩
    have hPerm := liveBlocks_perm hC hC₃ hb huUsed (fun d hd hdUsed hAddr => absurd hAddr (hFresh d hd hdUsed)) hNew
    rwa [← huPtr, ← hPtr] at hPerm

/-- `krealloc` of a held pointer in any reached heap. It returns a block with room for the new size that holds the old
bytes, in place of the old block, and leaves all others; or `NULL`, and then the heap is as before. -/
theorem krealloc_preserves_content (hBase : 0 < base) (hTop : base + heapSize < 2 ^ 64) (h : Heap)
    {calls : List Call} {c : Client} (hLegal : Legal base (boot base h) calls)
    (hRun : (boot base h).run base calls = some c) {x : Nat × Nat} (hx : x ∈ c.live) {newSize : Nat}
    (hPos : 0 < newSize) (flags : Nat) :
    x.1 ∈ liveBlocks c.heap ∧ ∃ h' q, krealloc base c.heap x.1 newSize flags = some (h', q) ∧
      (q = 0 → h' = c.heap) ∧ (q ≠ 0 → Resized c x newSize h' q) := by
  have hBoot : Sound base (boot base h) :=
    ⟨_, _, kmallocInit_consistent hBase hTop h, ⟨by simp [boot], List.nodup_nil⟩⟩
  obtain ⟨c', hRun', bs, fl, hC, hHolds⟩ := hBoot.run hLegal
  obtain rfl := Option.some.inj (hRun'.symm.trans hRun)
  obtain ⟨b, hb, hUsed, hPtr, -⟩ := hHolds.block x hx
  exact ⟨hC.mem_liveBlocks.mpr ⟨b, hb, hUsed, hPtr⟩, krealloc_content hC hHolds hx hPos flags⟩

theorem krealloc_preserves_content_heapBase :
    ∃ c, (boot 0x42000000 uninitialised).run 0x42000000 [.kmalloc 100 0, .kmalloc 8 0, .write 0x42000030 7] = some c ∧
      ∃ h' q, krealloc 0x42000000 c.heap 0x42000028 400 0 = some (h', q) ∧ (q = 0 → h' = c.heap) ∧
        (q ≠ 0 → Resized c (0x42000028, 100) 400 h' q) := by
  have hLegal : Legal 0x42000000 (boot 0x42000000 uninitialised)
      [.kmalloc 100 0, .kmalloc 8 0, .write 0x42000030 7] := by
    decide +kernel
  have hSome : ((boot 0x42000000 uninitialised).run 0x42000000
      [.kmalloc 100 0, .kmalloc 8 0, .write 0x42000030 7]).isSome := by
    decide +kernel
  have hHeld : (0x42000028, 100) ∈ (Option.get _ hSome).live := by decide +kernel +revert
  have hRun := (Option.some_get hSome).symm
  exact ⟨_, hRun, (krealloc_preserves_content (by decide) (by decide) uninitialised hLegal hRun hHeld (by decide) 0).2⟩

end Realloc

end UnixOS.Kmalloc
