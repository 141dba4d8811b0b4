import UnixOS.Loader.ElfPlacement
import UnixOS.Mm.KmallocRep
import UnixOS.Mm.PmmInv

/-! # Who uses the physical memory

The page allocator, the heap and the program loader choose their addresses by constants of their own, on
the layout of every target but x86_64. Only the kernel image is marked in the page bitmap.
-/

namespace UnixOS.MemoryMap

open Pmm Kmalloc Elf

def heapBase : Nat := 0x42000000

structure Machine where
  pages : World
  heap : Heap
  nextLoadAddr : UInt64
  programs : List Placed

inductive MemCall where
  | allocPages (order : Nat)
  | kmalloc (size flags : Nat)
  | processCreate (launch : Launch)

namespace Machine

variable (s : Machine)

/-- A search of the free list that does not end leaves everything as it is. -/
def next : MemCall → Machine
  | .allocPages order => { s with pages := s.pages.next (.alloc order) }
  | .kmalloc size flags =>
    match Kmalloc.kmalloc heapBase s.heap size flags with
    | some (heap, _) => { s with heap }
    | none => s
  | .processCreate launch =>
    match place s.nextLoadAddr launch with
    | some p => { s with nextLoadAddr := p.nextLoadAddr, programs := p :: s.programs }
    | none => s

def after (calls : List MemCall) : Machine := calls.foldl next s

def InHeap (x : Nat) : Prop := s.heap.heapStart ≤ x ∧ x < s.heap.heapEnd

end Machine

def start (kernelStart kernelEnd : Nat) (h : Heap) : Machine where
  pages := boot kernelStart kernelEnd
  heap := kmallocInit heapBase h
  nextLoadAddr := programLoadBase
  programs := []

/-- The four users of the memory do not meet. -/
structure Machine.UsersApart (kernelStart kernelEnd : Nat) (s : Machine) : Prop where
  pages_heap : ∀ b ∈ s.pages.live, ∀ x, b.Contains x → ¬ s.InHeap x
  pages_kernel : ∀ b ∈ s.pages.live, ∀ x, b.Contains x → ¬ Pmm.InImage kernelStart kernelEnd x
  pages_programs : ∀ b ∈ s.pages.live, ∀ p ∈ s.programs, ∀ a ∈ p.written, ¬ b.Contains a.toNat
  heap_kernel : ∀ x, s.InHeap x → ¬ Pmm.InImage kernelStart kernelEnd x
  heap_programs : ∀ p ∈ s.programs, ∀ a ∈ p.written, ¬ s.InHeap a.toNat
  kernel_programs : ∀ p ∈ s.programs, ∀ a ∈ p.written, ¬ Pmm.InImage kernelStart kernelEnd a.toNat

def Machine.Harmless (s : Machine) : MemCall → Prop
  | .allocPages order => order ≤ maxOrder → ∃ a, pageAddr (a + orderToPages order) ≤ heapBase ∧
      ∀ j < orderToPages order, ¬ ByteBitmap.BitIsSet s.pages.pmm.earlyBitmap (a + j)
  | .kmalloc _ _ => True
  | .processCreate launch => elfCalcSize launch.mem launch.data launch.size ≠ 0 → Orderly s.nextLoadAddr launch ∧
      heapBase + heapSize < s.nextLoadAddr.toNat + (aslrExecOffset launch.random).toNat + 0x10000

def Machine.HarmlessAlong (s : Machine) : List MemCall → Prop
  | [] => True
  | c :: calls => s.Harmless c ∧ (s.next c).HarmlessAlong calls

/-! ### The heap stays where it is -/

structure AtBase (h : Heap) : Prop where
  start_eq : h.heapStart = heapBase
  end_eq : h.heapEnd = heapBase + heapSize
  initialized : h.heapInitialized = true

theorem AtBase.of_eq {h h' : Heap} (hAt : AtBase h) (hStart : h'.heapStart = h.heapStart)
    (hEnd : h'.heapEnd = h.heapEnd) (hInit : h'.heapInitialized = h.heapInitialized) : AtBase h' :=
  ⟨hStart.trans hAt.start_eq, hEnd.trans hAt.end_eq, hInit.trans hAt.initialized⟩

theorem AtBase.set {h : Heap} (hAt : AtBase h) {f : HeaderField} {block v : Nat} : AtBase (h.set f block v) :=
  hAt.of_eq rfl rfl rfl

theorem AtBase.ite {h h' : Heap} {c : Prop} [Decidable c] (hAt : AtBase h) (hAt' : AtBase h') :
    AtBase (if c then h else h') := by
  split
  · exact hAt
  · exact hAt'

theorem AtBase.splitBlock {h : Heap} (hAt : AtBase h) (block totalSize : Nat) :
    AtBase (splitBlock h block totalSize) := by
  unfold Kmalloc.splitBlock
  refine AtBase.ite ?_ hAt
  dsimp only
  apply AtBase.set
  apply AtBase.set
  apply AtBase.ite
  · exact hAt.set.set.set.set.set.set.set
  · exact hAt.set.set.set.set.set.set

theorem AtBase.removeFit {h : Heap} (hAt : AtBase h) (block prevFree : Nat) :
    AtBase (removeFit h block prevFree) := by
  unfold Kmalloc.removeFit
  have hFirst : AtBase (if prevFree ≠ 0 then h.set .next prevFree (h.get .next block)
      else { h with freeList := h.get .next block }) := AtBase.ite hAt.set (hAt.of_eq rfl rfl rfl)
  exact AtBase.ite hFirst.set hFirst

theorem AtBase.markUsed {h : Heap} (hAt : AtBase h) (block : Nat) : AtBase (markUsed h block) :=
  hAt.of_eq rfl rfl rfl

theorem AtBase.zeroData {h : Heap} (hAt : AtBase h) (ptr size : Nat) : AtBase (zeroData h ptr size) :=
  hAt.of_eq rfl rfl rfl

theorem AtBase.takeBlock {h : Heap} (hAt : AtBase h) (block prevFree totalSize : Nat) :
    AtBase (takeBlock h block prevFree totalSize) :=
  ((hAt.splitBlock block totalSize).removeFit block prevFree).markUsed block

theorem AtBase.kmalloc {h h' : Heap} (hAt : AtBase h) {size flags ptr : Nat}
    (hCall : kmalloc heapBase h size flags = some (h', ptr)) : AtBase h' := by
  unfold Kmalloc.kmalloc at hCall
  rw [if_pos hAt.initialized] at hCall
  dsimp only at hCall
  split at hCall
  · obtain ⟨rfl, -⟩ := Prod.mk.inj (Option.some.inj hCall)
    exact hAt
  split at hCall
  · cases hCall
  · obtain ⟨rfl, -⟩ := Prod.mk.inj (Option.some.inj hCall)
    exact hAt
  · obtain ⟨rfl, -⟩ := Prod.mk.inj (Option.some.inj hCall)
    exact hAt
  · obtain ⟨rfl, -⟩ := Prod.mk.inj (Option.some.inj hCall)
    exact AtBase.ite ((hAt.takeBlock _ _ _).zeroData _ _) (hAt.takeBlock _ _ _)

/-! ### Runs -/

structure Split (kernelStart kernelEnd : Nat) (s : Machine) : Prop where
  pages : s.pages.Sound kernelStart kernelEnd
  below : ∀ b ∈ s.pages.live, b.addr + b.size ≤ heapBase
  heap : AtBase s.heap
  behind : ∀ p ∈ s.programs, ∀ a ∈ p.written, heapBase + heapSize ≤ a.toNat

section Runs

variable {kernelStart kernelEnd : Nat} {s : Machine}

theorem Split.usersApart (h : Split kernelStart kernelEnd s) (hKernel : kernelEnd ≤ heapBase) :
    s.UsersApart kernelStart kernelEnd where
  pages_heap := by
    rintro b hb x hx ⟨hLow, -⟩
    have hBelow := h.below b hb
    rw [h.heap.start_eq] at hLow
    exact absurd (lt_of_lt_of_le hx.2 hBelow) (Nat.not_lt.mpr hLow)
  pages_kernel := h.pages.offImage
  pages_programs := by
    intro b hb p hp a ha hx
    have hBelow := h.below b hb
    have hBehind := h.behind p hp a ha
    have hEnd := hx.2
    omega
  heap_kernel := by
    rintro x ⟨hLow, -⟩ hImage
    rw [h.heap.start_eq] at hLow
    exact absurd (lt_of_lt_of_le hImage.2 hKernel) (Nat.not_lt.mpr hLow)
  heap_programs := by
    rintro p hp a ha ⟨-, hHigh⟩
    rw [h.heap.end_eq] at hHigh
    exact absurd hHigh (Nat.not_lt.mpr (h.behind p hp a ha))
  kernel_programs := by
    intro p hp a ha hImage
    have hBehind := h.behind p hp a ha
    have hEnd := hImage.2
    omega

theorem split_start (hKernel : kernelEnd ≤ heapBase) (h : Heap) :
    Split kernelStart kernelEnd (start kernelStart kernelEnd h) where
  pages := boot_sound (by unfold heapBase at hKernel; simp only [Pmm.pageSize]; omega)
  below := fun _ hb => absurd hb List.not_mem_nil
  heap := ⟨rfl, rfl, rfl⟩
  behind := fun _ hp => absurd hp List.not_mem_nil

theorem Split.allocPages (h : Split kernelStart kernelEnd s) {order : Nat}
    (hHarmless : s.Harmless (.allocPages order)) : Split kernelStart kernelEnd (s.next (.allocPages order)) := by
  obtain ⟨-, hNext⟩ := h.pages.callSound (c := .alloc order) trivial
  refine ⟨hNext, fun b hb => ?_, h.heap, h.behind⟩
  have hLive : b ∈ if (s.pages.pmm.pmmAllocPages order).2 = 0 then s.pages.live
      else ⟨(s.pages.pmm.pmmAllocPages order).2, order⟩ :: s.pages.live := hb
  split at hLive
  · exact h.below b hLive
  next hSome =>
  rcases List.mem_cons.mp hLive with rfl | hOld
  · -- an order that is too large would have given 0
    have hOrder : order ≤ maxOrder := by
      by_contra hLarge
      rw [Pmm.pmmAllocPages, if_pos (Nat.not_le.mp hLarge)] at hSome
      exact hSome rfl
    obtain ⟨a, hEnd, hFree⟩ := hHarmless hOrder
    have hIn : a + orderToPages order ≤ totalPages := by
      unfold pageAddr memoryStart memoryBase heapBase Pmm.pageSize at hEnd
      rw [totalPages_eq]
      omega
    have hFirst := pmmAllocPages_le s.pages.pmm order hOrder hIn hFree
    rw [← pageAddr_add] at hEnd
    show (s.pages.pmm.pmmAllocPages order).2 + orderToPages order * Pmm.pageSize ≤ heapBase
    omega
  · exact h.below b hOld

theorem Split.processCreate (h : Split kernelStart kernelEnd s) {launch : Launch}
    (hHarmless : s.Harmless (.processCreate launch)) :
    Split kernelStart kernelEnd (s.next (.processCreate launch)) := by
  unfold Machine.next
  dsimp only
  cases hPlace : place s.nextLoadAddr launch with
  | none => exact h
  | some p =>
    refine ⟨h.pages, h.below, h.heap, fun q hq a ha => ?_⟩
    rcases List.mem_cons.mp hq with rfl | hOld
    · have hValid : elfCalcSize launch.mem launch.data launch.size ≠ 0 := by
        intro hZero
        rw [place, if_pos hZero] at hPlace
        cases hPlace
      obtain ⟨hOrderly, hFar⟩ := hHarmless hValid
      obtain ⟨hAddr, hInside, -⟩ := hOrderly.place hPlace
      have hLoad := hOrderly.loadAddr_eq
      have hBegin := (hInside a ha).1
      rw [hAddr, hLoad] at hBegin
      unfold heapBase heapSize at hFar ⊢
      omega
    · exact h.behind q hOld a ha

theorem Split.next (h : Split kernelStart kernelEnd s) {c : MemCall} (hHarmless : s.Harmless c) :
    Split kernelStart kernelEnd (s.next c) := by
  cases c with
  | allocPages order => exact h.allocPages hHarmless
  | kmalloc size flags =>
    unfold Machine.next
    dsimp only
    split
    · next hCall => exact ⟨h.pages, h.below, h.heap.kmalloc hCall, h.behind⟩
    · exact h
  | processCreate launch => exact h.processCreate hHarmless

theorem Split.after {calls : List MemCall} (h : Split kernelStart kernelEnd s) (hAlong : s.HarmlessAlong calls)
    (n : Nat) : Split kernelStart kernelEnd (s.after (calls.take n)) := by
  induction calls generalizing s n with
  | nil =>
    rw [List.take_nil]
    exact h
  | cons c calls ih =>
    cases n with
    | zero => exact h
    | succ n => exact ih (h.next hAlong.1) hAlong.2 n

end Runs

/-- In every run whose calls are all harmless the four users of the memory stay apart. -/
theorem memory_users_apart {kernelStart kernelEnd : Nat} (hKernel : kernelEnd ≤ heapBase) (h : Heap)
    {calls : List MemCall} (hAlong : (start kernelStart kernelEnd h).HarmlessAlong calls) (n : Nat) :
    ((start kernelStart kernelEnd h).after (calls.take n)).UsersApart kernelStart kernelEnd :=
  ((split_start hKernel h).after hAlong n).usersApart hKernel

def noHeap : Heap := ⟨fun _ => 0, 0, 0, 0, 0, 0, false⟩

def farPie : Launch := { smallPie with random := 0x600 }

theorem orderly_farPie : Orderly programLoadBase farPie where
  room := by decide +kernel
  fits :=
    { pie := by decide +kernel
      filesz := by decide +kernel
      bound := by decide +kernel
      header := by decide +kernel
      phdrs := by decide +kernel
      relocs := by
        intro st info hLoad hDynamic
        have hNone : (loadSegments ⟨farPie.mem, []⟩ farPie.data farPie.size
            (farPie.loadAddr programLoadBase)).map Progress.dynamic = some 0 := by decide +kernel
        rw [hLoad] at hNone
        exact absurd (Option.some.inj hNone) hDynamic }

theorem memory_users_apart_three_calls :
    let s := start 0x40000000 0x40001000 noHeap
    let calls : List MemCall := [.processCreate farPie, .allocPages 0, .kmalloc 100 0]
    s.HarmlessAlong calls ∧ (s.after calls).UsersApart 0x40000000 0x40001000 := by
  intro s calls
  have hAlong : s.HarmlessAlong calls := by
    refine ⟨fun _ => ⟨orderly_farPie, by decide +kernel⟩, fun _ => ⟨1, by decide, ?_⟩, trivial, trivial⟩
    decide +kernel
  exact ⟨hAlong, memory_users_apart (by decide) noHeap hAlong 3⟩

theorem program_inside_heap :
    ¬ ((start 0x40000000 0x40001000 noHeap).after [.processCreate smallPie]).UsersApart 0x40000000 0x40001000 := by
  intro hApart
  have hPrograms : ((start 0x40000000 0x40001000 noHeap).after [.processCreate smallPie]).programs =
      [⟨0x44000000, 0x44020000,
        [0x44000007, 0x44000006, 0x44000005, 0x44000004, 0x44000003, 0x44000002, 0x44000001, 0x44000000]⟩] := by
    decide +kernel
  refine hApart.heap_programs _ (hPrograms ▸ List.mem_cons_self) 0x44000007 List.mem_cons_self ?_
  constructor
  · decide +kernel
  · decide +kernel

end UnixOS.MemoryMap
