import Mathlib.Order.Interval.Finset.Nat
import UnixOS.Mm.Pmm

/-! # Pages are handed out once

The count of free pages is the number of clear bits, the blocks in use are apart from each other and from
the kernel image, and an allocation fails only where no run of free pages is long enough.
-/

namespace UnixOS.Pmm

open ByteMemory ByteBitmap

/-! ### Addresses and bits -/

theorem totalPages_eq : totalPages = 65536 := rfl

theorem bitmapBits_eq : earlyBitmapSize * 8 = totalPages := rfl

theorem pfnOf_eq {addr i : Nat} (hLow : pageAddr i ≤ addr) (hHigh : addr < pageAddr i + pageSize)
    (hi : i < totalPages) : pfnOf addr = i := by
  unfold pfnOf pageAddr at *
  simp only [memoryStart, memoryBase, pageSize, totalPages_eq] at *
  omega

theorem pfnOf_pageAddr {i : Nat} (hi : i < totalPages) : pfnOf (pageAddr i) = i :=
  pfnOf_eq (Nat.le_refl _) (Nat.lt_add_of_pos_right (by decide)) hi

theorem pageAddr_add (first i : Nat) : pageAddr first + i * pageSize = pageAddr (first + i) := by
  unfold pageAddr
  rw [Nat.add_mul, Nat.add_assoc]

theorem earlyIsFree_pageAddr {bitmap : Mem} {i : Nat} (hi : i < totalPages) :
    earlyIsFree bitmap (pageAddr i) = true ↔ ¬ BitIsSet bitmap i := by
  unfold earlyIsFree
  rw [bitmapBits_eq, pfnOf_pageAddr hi, if_neg (Nat.not_le.mpr hi), decide_eq_true_iff]

theorem bitIsSet_markUsed (addrs : List Nat) (bitmap : Mem) (j : Nat) :
    BitIsSet (addrs.foldl earlyMarkUsed bitmap) j ↔
      BitIsSet bitmap j ∨ j < totalPages ∧ ∃ addr ∈ addrs, pfnOf addr = j := by
  induction addrs generalizing bitmap with
  | nil => simp
  | cons a rest ih =>
    have hFirst : BitIsSet (earlyMarkUsed bitmap a) j ↔
        BitIsSet bitmap j ∨ j < totalPages ∧ pfnOf a = j := by
      unfold earlyMarkUsed
      rw [bitmapBits_eq]
      split
      · next hIn =>
        rw [bitIsSet_setBit, or_comm]
        refine or_congr_right ⟨fun hEq => ⟨hEq ▸ hIn, hEq.symm⟩, fun h => h.2.symm⟩
      · next hOut =>
        refine ⟨Or.inl, fun h => h.resolve_right ?_⟩
        rintro ⟨hj, hEq⟩
        exact hOut (hEq.symm ▸ hj)
    rw [List.foldl_cons, ih, hFirst, or_assoc]
    refine or_congr_right ?_
    simp only [List.mem_cons, exists_eq_or_imp, and_or_left]

theorem bitIsSet_markFree (addrs : List Nat) (bitmap : Mem) (j : Nat) :
    BitIsSet (addrs.foldl earlyMarkFree bitmap) j ↔
      BitIsSet bitmap j ∧ ¬ (j < totalPages ∧ ∃ addr ∈ addrs, pfnOf addr = j) := by
  induction addrs generalizing bitmap with
  | nil => simp
  | cons a rest ih =>
    have hFirst : BitIsSet (earlyMarkFree bitmap a) j ↔
        BitIsSet bitmap j ∧ ¬ (j < totalPages ∧ pfnOf a = j) := by
      unfold earlyMarkFree
      rw [bitmapBits_eq]
      split
      · next hIn =>
        by_cases hEq : pfnOf a = j
        · subst hEq
          exact iff_of_false (not_bitIsSet_clearBit_self _ _) fun h => h.2 ⟨hIn, rfl⟩
        · rw [bitIsSet_clearBit (Ne.symm hEq)]
          exact ⟨fun h => ⟨h, fun h' => hEq h'.2⟩, And.left⟩
      · next hOut =>
        refine ⟨fun h => ⟨h, ?_⟩, And.left⟩
        rintro ⟨hj, hEq⟩
        exact hOut (hEq.symm ▸ hj)
    rw [List.foldl_cons, ih, hFirst, and_assoc]
    refine and_congr_right fun _ => ?_
    simp only [List.mem_cons, exists_eq_or_imp, and_or_left, not_or]

def blockAddrs (addr count : Nat) : List Nat := (List.range count).map fun i => addr + i * pageSize

theorem mem_blockAddrs {first count j : Nat} (hIn : first + count ≤ totalPages) :
    (j < totalPages ∧ ∃ addr ∈ blockAddrs (pageAddr first) count, pfnOf addr = j) ↔
      first ≤ j ∧ j < first + count := by
  simp only [blockAddrs, List.mem_map, List.mem_range, pageAddr_add]
  constructor
  · rintro ⟨-, _, ⟨i, hi, rfl⟩, hEq⟩
    rw [pfnOf_pageAddr (by omega)] at hEq
    omega
  · rintro ⟨hLow, hHigh⟩
    refine ⟨by omega, _, ⟨j - first, by omega, rfl⟩, ?_⟩
    rw [show first + (j - first) = j by omega]
    exact pfnOf_pageAddr (by omega)

/-! ### Counting -/

theorem countFree_eq (bitmap : Mem) (n : Nat) : countFree bitmap n = zeroBits bitmap n := by
  induction n with
  | zero => rfl
  | succ n ih =>
    rw [countFree, ih, zeroBits, zeroBits, Finset.range_add_one, Finset.filter_insert]
    split
    · rfl
    · rw [Finset.card_insert_of_notMem]
      exact fun hMem => absurd (Finset.mem_range.mp (Finset.mem_filter.mp hMem).1) (Nat.lt_irrefl n)

section Counts

variable {bitmap bitmap' : Mem} {first count : Nat}

theorem zeroBits_of_run (hIn : first + count ≤ totalPages)
    (hBits : ∀ j < totalPages, BitIsSet bitmap' j ↔ BitIsSet bitmap j ∨ first ≤ j ∧ j < first + count)
    (hClear : ∀ j, first ≤ j → j < first + count → ¬ BitIsSet bitmap j) :
    zeroBits bitmap' totalPages + count = zeroBits bitmap totalPages := by
  have hSplit : {j ∈ Finset.range totalPages | ¬ BitIsSet bitmap j} =
      {j ∈ Finset.range totalPages | ¬ BitIsSet bitmap' j} ∪ Finset.Ico first (first + count) := by
    ext j
    simp only [Finset.mem_union, Finset.mem_filter, Finset.mem_range, Finset.mem_Ico]
    constructor
    · rintro ⟨hj, hNot⟩
      by_cases hRun : first ≤ j ∧ j < first + count
      · exact Or.inr hRun
      · exact Or.inl ⟨hj, fun hSet => ((hBits j hj).mp hSet).elim hNot hRun⟩
    · rintro (⟨hj, hNot⟩ | ⟨hLow, hHigh⟩)
      · exact ⟨hj, fun hSet => hNot ((hBits j hj).mpr (Or.inl hSet))⟩
      · exact ⟨by omega, hClear j hLow hHigh⟩
  have hApart : Disjoint {j ∈ Finset.range totalPages | ¬ BitIsSet bitmap' j}
      (Finset.Ico first (first + count)) := by
    rw [Finset.disjoint_left]
    intro j hj hRun
    obtain ⟨hLt, hNot⟩ := Finset.mem_filter.mp hj
    exact hNot ((hBits j (Finset.mem_range.mp hLt)).mpr (Or.inr (Finset.mem_Ico.mp hRun)))
  rw [zeroBits, zeroBits, hSplit, Finset.card_union_of_disjoint hApart, Nat.card_Ico,
    Nat.add_sub_cancel_left]

theorem zeroBits_le (bitmap : Mem) (n : Nat) : zeroBits bitmap n ≤ n := by
  refine (Finset.card_filter_le _ _).trans ?_
  rw [Finset.card_range]

end Counts

/-! ### The invariant -/

def Block.size (b : Block) : Nat := orderToPages b.order * pageSize

def Block.Contains (b : Block) (x : Nat) : Prop := b.addr ≤ x ∧ x < b.addr + b.size

structure Block.Proper (b : Block) : Prop where
  aligned : b.addr % pageSize = 0
  above : memoryStart ≤ b.addr
  below : b.addr + b.size ≤ memoryEnd
  order_le : b.order ≤ maxOrder

def Block.Apart (b b' : Block) : Prop := ∀ x, b.Contains x → ¬ b'.Contains x

def Block.Covers (b : Block) (j : Nat) : Prop := b.Contains (pageAddr j)

section Image

variable (kernelStart kernelEnd : Nat)

def InImage (x : Nat) : Prop := kernelStart ≤ x ∧ x < kernelEnd

def Block.OffImage (b : Block) : Prop := ∀ x, b.Contains x → ¬ InImage kernelStart kernelEnd x

structure World.Sound (w : World) : Prop where
  count : w.pmm.freePagesCount = zeroBits w.pmm.earlyBitmap totalPages
  proper : ∀ b ∈ w.live, b.Proper
  offImage : ∀ b ∈ w.live, b.OffImage kernelStart kernelEnd
  apart : w.live.Pairwise Block.Apart
  held : ∀ b ∈ w.live, ∀ j, b.Covers j → BitIsSet w.pmm.earlyBitmap j
  reserved : ∀ j < totalPages, ∀ x, pageAddr j ≤ x → x < pageAddr j + pageSize →
    InImage kernelStart kernelEnd x → BitIsSet w.pmm.earlyBitmap j

end Image

section Blocks

variable {b b' : Block} {first order : Nat}

theorem orderToPages_pos (order : Nat) : 0 < orderToPages order := Nat.two_pow_pos order

theorem Block.Proper.exists_first (h : b.Proper) :
    ∃ first, b.addr = pageAddr first ∧ first + orderToPages b.order ≤ totalPages := by
  have hAligned := h.aligned
  have hAbove := h.above
  have hBelow := h.below
  refine ⟨(b.addr - memoryStart) / pageSize, ?_, ?_⟩
  · unfold pageAddr
    simp only [memoryStart, memoryBase, pageSize] at *
    omega
  · simp only [Block.size, memoryStart, memoryEnd, memoryBase, memorySize, pageSize, totalPages_eq] at *
    omega

theorem covers_iff (j : Nat) :
    Block.Covers ⟨pageAddr first, order⟩ j ↔ first ≤ j ∧ j < first + orderToPages order := by
  unfold Block.Covers Block.Contains Block.size pageAddr
  dsimp only
  simp only [memoryStart, memoryBase, pageSize]
  omega

theorem contains_iff (x : Nat) :
    Block.Contains ⟨pageAddr first, order⟩ x ↔
      ∃ j, first ≤ j ∧ j < first + orderToPages order ∧ pageAddr j ≤ x ∧ x < pageAddr j + pageSize := by
  unfold Block.Contains Block.size pageAddr
  dsimp only
  simp only [pageSize]
  generalize memoryStart = base
  constructor
  · rintro ⟨hLow, hHigh⟩
    obtain ⟨y, rfl⟩ := Nat.exists_eq_add_of_le (Nat.le_of_add_right_le hLow)
    have hPage : base + y / 4096 * 4096 ≤ base + y := Nat.add_le_add_left (Nat.div_mul_le_self y 4096) _
    have hNext : base + y < base + y / 4096 * 4096 + 4096 := by
      rw [Nat.add_assoc]
      exact Nat.add_lt_add_left (Nat.lt_div_mul_add (by decide : 0 < 4096)) _
    exact ⟨y / 4096, by omega, by omega, hPage, hNext⟩
  · rintro ⟨j, hLow, hHigh, hLow', hHigh'⟩
    omega

theorem proper_pageAddr (hIn : first + orderToPages order ≤ totalPages) (hOrder : order ≤ maxOrder) :
    Block.Proper ⟨pageAddr first, order⟩ where
  aligned := by
    unfold pageAddr
    simp only [memoryStart, memoryBase, pageSize]
    omega
  above := Nat.le_add_right _ _
  below := by
    unfold Block.size pageAddr
    dsimp only
    simp only [memoryStart, memoryEnd, memoryBase, memorySize, pageSize, totalPages_eq] at *
    omega
  order_le := hOrder

end Blocks

/-! ### The calls -/

section Calls

variable (s : Pmm) (order : Nat)

def NoFreeRun (bitmap : Mem) (order : Nat) : Prop :=
  ∀ a, a + orderToPages order ≤ totalPages → ∃ j < orderToPages order, BitIsSet bitmap (a + j)

theorem run_iff {bitmap : Mem} {a count : Nat} (hIn : a + count ≤ totalPages) :
    FirstRun.Run (fun i => earlyIsFree bitmap (pageAddr i)) count a ↔
      ∀ j < count, ¬ BitIsSet bitmap (a + j) := by
  refine forall₂_congr fun j hj => ?_
  exact earlyIsFree_pageAddr (by omega)

theorem pmmAllocPages_cases :
    (s.pmmAllocPages order = (s, 0) ∧ (order ≤ maxOrder → NoFreeRun s.earlyBitmap order)) ∨
      ∃ first, first + orderToPages order ≤ totalPages ∧ order ≤ maxOrder ∧
        (∀ j, first ≤ j → j < first + orderToPages order → ¬ BitIsSet s.earlyBitmap j) ∧
        s.pmmAllocPages order =
          (⟨(blockAddrs (pageAddr first) (orderToPages order)).foldl earlyMarkUsed s.earlyBitmap,
            (s.freePagesCount + 2 ^ 64 - orderToPages order) % 2 ^ 64⟩, pageAddr first) := by
  unfold Pmm.pmmAllocPages
  by_cases hOrder : order > maxOrder
  · rw [if_pos hOrder]
    exact Or.inl ⟨rfl, fun hLe => absurd hOrder (Nat.not_lt.mpr hLe)⟩
  rw [if_neg hOrder]
  dsimp only
  cases hScan : FirstRun.scan (fun i => earlyIsFree s.earlyBitmap (pageAddr i)) (orderToPages order)
      totalPages 0 0 0 with
  | none =>
    refine Or.inl ⟨rfl, fun _ a ha => ?_⟩
    have hNone := FirstRun.scan_eq_none (orderToPages_pos order) hScan a ha
    rw [run_iff ha] at hNone
    push Not at hNone
    exact hNone
  | some first =>
    obtain ⟨hIn, hRun, -⟩ := FirstRun.scan_eq_some (orderToPages_pos order) hScan
    rw [run_iff hIn] at hRun
    refine Or.inr ⟨first, hIn, Nat.le_of_not_lt hOrder, ?_, ?_⟩
    · intro j hLow hHigh
      have hFree := hRun (j - first) (by omega)
      rwa [Nat.add_sub_cancel' hLow] at hFree
    · rw [blockAddrs, List.foldl_map]

theorem pmmAllocPages_le (hOrder : order ≤ maxOrder) {a : Nat} (ha : a + orderToPages order ≤ totalPages)
    (hFree : ∀ j < orderToPages order, ¬ BitIsSet s.earlyBitmap (a + j)) :
    (s.pmmAllocPages order).2 ≤ pageAddr a := by
  have hRun := (run_iff ha).mpr hFree
  unfold Pmm.pmmAllocPages
  rw [if_neg (Nat.not_lt.mpr hOrder)]
  dsimp only
  cases hScan : FirstRun.scan (fun i => earlyIsFree s.earlyBitmap (pageAddr i)) (orderToPages order)
      totalPages 0 0 0 with
  | none => exact absurd hRun (FirstRun.scan_eq_none (orderToPages_pos order) hScan a ha)
  | some first =>
    have hFirst := (FirstRun.scan_eq_some (orderToPages_pos order) hScan).2.2 a hRun
    exact Nat.add_le_add_left (Nat.mul_le_mul_right _ hFirst) _

theorem pmmFreePages_eq {b : Block} (h : b.Proper) :
    s.pmmFreePages b.addr b.order =
      ⟨(blockAddrs b.addr (orderToPages b.order)).foldl earlyMarkFree s.earlyBitmap,
        (s.freePagesCount + orderToPages b.order) % 2 ^ 64⟩ := by
  have hNonzero : b.addr ≠ 0 := Nat.ne_of_gt (Nat.lt_of_lt_of_le (by decide) h.above)
  have hOrder : ¬ (b.addr = 0 ∨ b.order > maxOrder) := by
    rintro (hZero | hLarge)
    · exact hNonzero hZero
    · exact absurd h.order_le (Nat.not_le.mpr hLarge)
  rw [Pmm.pmmFreePages, if_neg hOrder, blockAddrs, List.foldl_map]

end Calls

section Steps

variable (kernelStart kernelEnd : Nat) (w : World)

structure Granted (order : Nat) (pmm' : Pmm) (addr : Nat) : Prop where
  proper : Block.Proper ⟨addr, order⟩
  offImage : Block.OffImage kernelStart kernelEnd ⟨addr, order⟩
  apart : ∀ b ∈ w.live, Block.Apart ⟨addr, order⟩ b
  wasFree : ∀ j, Block.Covers ⟨addr, order⟩ j → ¬ BitIsSet w.pmm.earlyBitmap j
  bits : ∀ j, BitIsSet pmm'.earlyBitmap j ↔
    BitIsSet w.pmm.earlyBitmap j ∨ Block.Covers ⟨addr, order⟩ j

/-- An allocation grants a block, or fails for want of a run; a free clears the bits of its block, which
were set. -/
def CallSound : PageCall → Prop
  | .alloc order =>
    (w.pmm.pmmAllocPages order = (w.pmm, 0) ∧
        (order ≤ maxOrder → NoFreeRun w.pmm.earlyBitmap order)) ∨
      ∃ pmm' addr, w.pmm.pmmAllocPages order = (pmm', addr) ∧ addr ≠ 0 ∧
        Granted kernelStart kernelEnd w order pmm' addr
  | .free addr order => ∀ j,
    (BitIsSet (w.pmm.pmmFreePages addr order).earlyBitmap j ↔
      BitIsSet w.pmm.earlyBitmap j ∧ ¬ Block.Covers ⟨addr, order⟩ j) ∧
    (Block.Covers ⟨addr, order⟩ j → BitIsSet w.pmm.earlyBitmap j)

variable {kernelStart kernelEnd w}

theorem proper_addr_ne_zero {b : Block} (h : b.Proper) : b.addr ≠ 0 :=
  Nat.ne_of_gt (Nat.lt_of_lt_of_le (by decide) h.above)

theorem apart_of_covers {b b' : Block} (hb : b.Proper) (hb' : b'.Proper)
    (h : ∀ j, b.Covers j → ¬ b'.Covers j) : b.Apart b' := by
  obtain ⟨addr, order⟩ := b
  obtain ⟨addr', order'⟩ := b'
  obtain ⟨first, rfl, -⟩ := hb.exists_first
  obtain ⟨first', rfl, -⟩ := hb'.exists_first
  intro x hx hx'
  obtain ⟨j, hLow, hHigh, hFrom, hTo⟩ := (contains_iff x).mp hx
  obtain ⟨j', hLow', hHigh', hFrom', hTo'⟩ := (contains_iff x).mp hx'
  have hSame : j = j' := by
    unfold pageAddr at hFrom hTo hFrom' hTo'
    simp only [pageSize] at hFrom hTo hFrom' hTo'
    omega
  subst hSame
  exact h j ((covers_iff j).mpr ⟨hLow, hHigh⟩) ((covers_iff j).mpr ⟨hLow', hHigh'⟩)

theorem World.Sound.granted (h : w.Sound kernelStart kernelEnd) {order first : Nat}
    (hIn : first + orderToPages order ≤ totalPages) (hOrder : order ≤ maxOrder)
    (hFree : ∀ j, first ≤ j → j < first + orderToPages order → ¬ BitIsSet w.pmm.earlyBitmap j)
    (count : Nat) :
    Granted kernelStart kernelEnd w order
      ⟨(blockAddrs (pageAddr first) (orderToPages order)).foldl earlyMarkUsed w.pmm.earlyBitmap, count⟩
      (pageAddr first) where
  proper := proper_pageAddr hIn hOrder
  offImage := by
    intro x hx hImage
    obtain ⟨j, hLow, hHigh, hFrom, hTo⟩ := (contains_iff x).mp hx
    exact hFree j hLow hHigh (h.reserved j (by omega) x hFrom hTo hImage)
  apart := by
    intro b hb
    refine apart_of_covers (proper_pageAddr hIn hOrder) (h.proper b hb) fun j hj hj' => ?_
    obtain ⟨hLow, hHigh⟩ := (covers_iff j).mp hj
    exact hFree j hLow hHigh (h.held b hb j hj')
  wasFree := by
    intro j hj
    obtain ⟨hLow, hHigh⟩ := (covers_iff j).mp hj
    exact hFree j hLow hHigh
  bits := by
    intro j
    rw [bitIsSet_markUsed, mem_blockAddrs hIn, covers_iff]

theorem World.Sound.count_le (h : w.Sound kernelStart kernelEnd) : w.pmm.freePagesCount ≤ 65536 := by
  rw [h.count]
  exact zeroBits_le _ _

theorem orderToPages_le {order : Nat} (h : order ≤ maxOrder) : orderToPages order ≤ 2048 :=
  Nat.pow_le_pow_right (by decide) h

theorem World.Sound.alloc (h : w.Sound kernelStart kernelEnd) {order : Nat} {pmm' : Pmm} {addr : Nat}
    (hGranted : Granted kernelStart kernelEnd w order pmm' addr)
    (hCount : pmm'.freePagesCount = (w.pmm.freePagesCount + 2 ^ 64 - orderToPages order) % 2 ^ 64) :
    World.Sound kernelStart kernelEnd ⟨pmm', ⟨addr, order⟩ :: w.live⟩ where
  count := by
    obtain ⟨first, hAddr, hIn⟩ := hGranted.proper.exists_first
    dsimp only at hAddr hIn
    subst hAddr
    have hZeros : zeroBits pmm'.earlyBitmap totalPages + orderToPages order =
        zeroBits w.pmm.earlyBitmap totalPages := zeroBits_of_run hIn
      (fun j _ => (hGranted.bits j).trans (or_congr_right (covers_iff j)))
      (fun j hLow hHigh => hGranted.wasFree j ((covers_iff j).mpr ⟨hLow, hHigh⟩))
    have hOld := h.count
    have hLe := h.count_le
    have hPages := orderToPages_le hGranted.proper.order_le
    dsimp only at hPages ⊢
    rw [hCount]
    omega
  proper := by
    intro b hb
    rcases List.mem_cons.mp hb with rfl | hOld
    · exact hGranted.proper
    · exact h.proper b hOld
  offImage := by
    intro b hb
    rcases List.mem_cons.mp hb with rfl | hOld
    · exact hGranted.offImage
    · exact h.offImage b hOld
  apart := List.pairwise_cons.mpr ⟨hGranted.apart, h.apart⟩
  held := by
    intro b hb j hj
    rw [hGranted.bits]
    rcases List.mem_cons.mp hb with rfl | hOld
    · exact Or.inr hj
    · exact Or.inl (h.held b hOld j hj)
  reserved := by
    intro j hj x hFrom hTo hImage
    rw [hGranted.bits]
    exact Or.inl (h.reserved j hj x hFrom hTo hImage)

theorem World.Sound.freeBits (h : w.Sound kernelStart kernelEnd) {b : Block} (hb : b ∈ w.live) (j : Nat) :
    BitIsSet (w.pmm.pmmFreePages b.addr b.order).earlyBitmap j ↔
      BitIsSet w.pmm.earlyBitmap j ∧ ¬ b.Covers j := by
  obtain ⟨first, hAddr, hIn⟩ := (h.proper b hb).exists_first
  obtain ⟨addr, order⟩ := b
  dsimp only at hAddr hIn ⊢
  subst hAddr
  rw [pmmFreePages_eq w.pmm (h.proper _ hb), bitIsSet_markFree, mem_blockAddrs hIn, covers_iff]

theorem World.Sound.apart_erase (h : w.Sound kernelStart kernelEnd) {b b' : Block} (hb : b ∈ w.live)
    (hb' : b' ∈ w.live.erase b) : b.Apart b' := by
  have hSwap : ∀ c c' : Block, c.Apart c' → c'.Apart c := fun c c' hApart x hx' hx => hApart x hx hx'
  have hPerm := List.perm_cons_erase hb
  have hPairs := (hPerm.pairwise_iff fun {c c'} => hSwap c c').mp h.apart
  exact (List.pairwise_cons.mp hPairs).1 b' hb'

theorem World.Sound.free (h : w.Sound kernelStart kernelEnd) {b : Block} (hb : b ∈ w.live) :
    World.Sound kernelStart kernelEnd ⟨w.pmm.pmmFreePages b.addr b.order, w.live.erase b⟩ where
  count := by
    have hProper := h.proper b hb
    have hBits := h.freeBits hb
    have hFree := congrArg Pmm.freePagesCount (pmmFreePages_eq w.pmm hProper)
    obtain ⟨first, hAddr, hIn⟩ := hProper.exists_first
    have hCovers : ∀ j, b.Covers j ↔ first ≤ j ∧ j < first + orderToPages b.order := by
      obtain ⟨addr, order⟩ := b
      dsimp only at hAddr ⊢
      subst hAddr
      exact covers_iff
    have hZeros : zeroBits w.pmm.earlyBitmap totalPages + orderToPages b.order =
        zeroBits (w.pmm.pmmFreePages b.addr b.order).earlyBitmap totalPages := by
      refine zeroBits_of_run hIn (fun j _ => ?_) fun j hLow hHigh => ?_
      · rw [hBits j, ← hCovers j]
        constructor
        · intro hSet
          by_cases hHere : b.Covers j
          · exact Or.inr hHere
          · exact Or.inl ⟨hSet, hHere⟩
        · rintro (⟨hSet, -⟩ | hHere)
          · exact hSet
          · exact h.held b hb j hHere
      · rw [hBits j]
        exact fun hBoth => hBoth.2 ((hCovers j).mpr ⟨hLow, hHigh⟩)
    have hOld := h.count
    have hLe := h.count_le
    have hPages := orderToPages_le hProper.order_le
    dsimp only at hFree ⊢
    rw [hFree]
    omega
  proper := fun b' hb' => h.proper b' (List.mem_of_mem_erase hb')
  offImage := fun b' hb' => h.offImage b' (List.mem_of_mem_erase hb')
  apart := h.apart.sublist List.erase_sublist
  held := by
    intro b' hb' j hj
    rw [h.freeBits hb]
    exact ⟨h.held b' (List.mem_of_mem_erase hb') j hj, fun hHere => h.apart_erase hb hb' _ hHere hj⟩
  reserved := by
    intro j hj x hFrom hTo hImage
    rw [h.freeBits hb]
    refine ⟨h.reserved j hj x hFrom hTo hImage, fun hHere => ?_⟩
    obtain ⟨first, hAddr, -⟩ := (h.proper b hb).exists_first
    obtain ⟨addr, order⟩ := b
    dsimp only at hAddr
    subst hAddr
    obtain ⟨hLow, hHigh⟩ := (covers_iff j).mp hHere
    exact h.offImage _ hb x ((contains_iff x).mpr ⟨j, hLow, hHigh, hFrom, hTo⟩) hImage

theorem World.Sound.callSound (h : w.Sound kernelStart kernelEnd) {c : PageCall} (hAllowed : w.Allowed c) :
    CallSound kernelStart kernelEnd w c ∧ (w.next c).Sound kernelStart kernelEnd := by
  cases c with
  | alloc order =>
    rcases pmmAllocPages_cases w.pmm order with ⟨hFail, hNone⟩ | ⟨first, hIn, hOrder, hFree, hRun⟩
    · refine ⟨Or.inl ⟨hFail, hNone⟩, ?_⟩
      rw [World.next, hFail]
      exact h
    · have hGranted := h.granted hIn hOrder hFree
        ((w.pmm.freePagesCount + 2 ^ 64 - orderToPages order) % 2 ^ 64)
      have hAddr : pageAddr first ≠ 0 := proper_addr_ne_zero hGranted.proper
      refine ⟨Or.inr ⟨_, _, hRun, hAddr, hGranted⟩, ?_⟩
      rw [World.next, hRun]
      dsimp only
      rw [if_neg hAddr]
      exact h.alloc hGranted rfl
  | free addr order =>
    have hLive : (⟨addr, order⟩ : Block) ∈ w.live := hAllowed
    exact ⟨fun j => ⟨h.freeBits hLive j, h.held _ hLive j⟩, h.free hLive⟩

end Steps

theorem boot_sound {kernelStart kernelEnd : Nat} (hEnd : kernelEnd + pageSize ≤ 2 ^ 64) :
    (boot kernelStart kernelEnd).Sound kernelStart kernelEnd where
  count := countFree_eq _ _
  proper := nofun
  offImage := nofun
  apart := List.Pairwise.nil
  held := nofun
  reserved := by
    rintro j hj x hFrom hTo ⟨hStart, hBefore⟩
    refine (bitIsSet_markUsed _ _ j).mpr (Or.inr ⟨hj, pageAddr j, ?_, pfnOf_pageAddr hj⟩)
    have hAlign : pageAlign kernelEnd = (kernelEnd + 4095) / 4096 * 4096 := by
      unfold pageAlign
      simp only [pageSize] at hEnd ⊢
      rw [Nat.mod_eq_of_lt (by omega)]
      rfl
    have hPage : pageAddr j = (0x40000 + j) * 4096 := by
      unfold pageAddr
      simp only [memoryStart, memoryBase, pageSize]
      omega
    rw [hPage] at hFrom hTo ⊢
    refine List.mem_map.mpr ⟨0x40000 + j - kernelStart / 4096, List.mem_range.mpr ?_, ?_⟩
    · rw [hAlign]
      simp only [pageAlignDown, pageSize] at hTo ⊢
      omega
    · simp only [pageAlignDown, pageSize] at hTo ⊢
      omega

/-- In every run in which each free names a live block with its own order, the count of free pages is the
number of clear bits, live blocks are runs of pages apart from each other and from the image, and each
call does what it should; an allocation of an order up to `MAX_ORDER` fails only if there is no run. -/
theorem pmm_invariant {kernelStart kernelEnd : Nat} (hEnd : kernelEnd + pageSize ≤ 2 ^ 64)
    {calls : List PageCall} (hAllowed : (boot kernelStart kernelEnd).AllowedAlong calls) (n : Nat) :
    ((boot kernelStart kernelEnd).after (calls.take n)).Sound kernelStart kernelEnd ∧
      ∀ c, calls[n]? = some c →
        CallSound kernelStart kernelEnd ((boot kernelStart kernelEnd).after (calls.take n)) c := by
  have hRun : ∀ (w : World), w.Sound kernelStart kernelEnd → w.AllowedAlong calls →
      (w.after (calls.take n)).Sound kernelStart kernelEnd ∧ ∀ c, calls[n]? = some c →
        CallSound kernelStart kernelEnd (w.after (calls.take n)) c := by
    clear hAllowed
    induction calls generalizing n with
    | nil =>
      intro w hw _
      rw [List.take_nil]
      exact ⟨hw, nofun⟩
    | cons c calls ih =>
      intro w hw hAlong
      obtain ⟨hCall, hNext⟩ := hw.callSound hAlong.1
      cases n with
      | zero =>
        refine ⟨hw, fun c' hc' => ?_⟩
        cases hc'
        exact hCall
      | succ n => exact ih n (w.next c) hNext hAlong.2
  exact hRun _ (boot_sound hEnd) hAllowed

theorem pmm_invariant_two_pages :
    let calls : List PageCall := [.alloc 0, .alloc 0, .free 0x40001000 0]
    (boot 0x40000000 0x40001000).AllowedAlong calls ∧
      ∀ n, ((boot 0x40000000 0x40001000).after (calls.take n)).Sound 0x40000000 0x40001000 := by
  intro calls
  have hAllowed : (boot 0x40000000 0x40001000).AllowedAlong calls := by
    refine ⟨trivial, trivial, ?_, trivial⟩
    show (⟨0x40001000, 0⟩ : Block) ∈ World.live _
    decide +kernel
  exact ⟨hAllowed, fun n => (pmm_invariant (by decide) hAllowed n).1⟩

theorem large_order_refused :
    let w := boot 0x40000000 0x40001000
    (w.pmm.pmmAllocPages 12).2 = 0 ∧ ¬ NoFreeRun w.pmm.earlyBitmap 12 := by
  refine ⟨rfl, fun hNone => ?_⟩
  obtain ⟨j, hj, hSet⟩ := hNone 1 (by decide)
  have hImage := (bitIsSet_markUsed _ _ _).mp hSet
  rcases hImage with hZero | ⟨-, addr, hMem, hPfn⟩
  · exact hZero (UInt8.zero_and)
  · obtain rfl : addr = 0x40000000 := by
      simpa [pageAddrs, pageAlignDown, pageAlign, pageSize] using hMem
    have hFirst : pfnOf 0x40000000 = 0 := rfl
    omega

end UnixOS.Pmm
