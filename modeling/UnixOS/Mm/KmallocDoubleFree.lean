import UnixOS.Mm.KmallocClient
import UnixOS.Mm.KmallocWrites

/-! # Freeing twice

`kfree` knows a block by the magic word in its header. The word that a first `kfree` leaves stays in memory
when the block is merged or split; all blocks lie on the same grid of 32 bytes, so no header that is written later
touches it unless it is at the same place.
-/

namespace UnixOS.Kmalloc

open ByteMemory DoublyLinked Tiling

def Harmless (a : Nat) (h h' : Heap) : Prop :=
  h'.get .magic a = blockMagicUsed → h.get .magic a = blockMagicUsed

def SameGrid (a x : Nat) : Prop := x % minAlloc = a % minAlloc

def Gridded (a : Nat) (bs : List Block) : Prop := ∀ b ∈ bs, SameGrid a b.addr ∧ minAlloc ∣ b.size

section Steps

variable {a x : Nat} {h h₁ h₂ h' : Heap}

theorem Harmless.refl (a : Nat) (h : Heap) : Harmless a h h := id

theorem Harmless.trans (h₁₂ : Harmless a h h₁) (h₂₃ : Harmless a h₁ h₂) : Harmless a h h₂ := fun hUsed => h₁₂ (h₂₃ hUsed)

theorem Harmless.of_mem (hMem : h'.mem = h.mem) : Harmless a h h' := by
  intro hUsed
  rwa [Heap.get, hMem] at hUsed

theorem harmless_set {f : HeaderField} {v : Nat} (hGrid : SameGrid a x)
    (hMagic : f = .magic → x = a → v % 256 ^ HeaderField.width .magic ≠ blockMagicUsed) :
    Harmless a h (h.set f x v) := by
  intro hUsed
  by_cases hHere : x = a
  · subst hHere
    by_cases hField : f = .magic
    · subst hField
      rw [Heap.get, Heap.set, load_store_same] at hUsed
      exact absurd hUsed (hMagic rfl rfl)
    · rwa [get_set_field hField] at hUsed
  · have hEnd := field_end f
    have hOffset : HeaderField.offset .magic = 8 := rfl
    have hWidth : HeaderField.width .magic = 4 := rfl
    have hApart : a + 8 + 4 ≤ x + f.offset ∨ x + f.offset + f.width ≤ a + 8 := by
      simp only [SameGrid, minAlloc, headerSize] at hGrid hEnd
      omega
    rwa [Heap.get, Heap.set, hOffset, hWidth, load_store_disjoint hApart] at hUsed

theorem Wrote.harmless {A S : List Nat} (hWrote : Wrote (Permit A S) h h') (hGrid : ∀ x ∈ A, SameGrid a x)
    (hNot : a ∉ S) : Harmless a h h' := by
  induction hWrote with
  | same hMem => exact .of_mem hMem
  | set _ hPermit hMem ih =>
    refine ih.trans (Harmless.trans (harmless_set (hGrid _ hPermit.1) ?_) (.of_mem hMem))
    rintro hField rfl hUsed
    exact hNot (hPermit.2 hField hUsed)

theorem Gridded.addr {bs : List Block} (hGrid : Gridded a bs) (hx : x ∈ addrs bs) : SameGrid a x := by
  obtain ⟨b, hb, rfl⟩ := List.mem_map.mp hx
  exact (hGrid b hb).1

end Steps

section Blocks

variable {a : Nat} {h : Heap} {b : Block} {B₁ B₂ : List Block} {l₁ l₂ : List Nat} {t : Nat}

theorem SameGrid.add {x n : Nat} (hGrid : SameGrid a x) (hn : minAlloc ∣ n) : SameGrid a (x + n) := by
  obtain ⟨k, rfl⟩ := hn
  rwa [SameGrid, Nat.add_mul_mod_self_left]

theorem gridded_append : Gridded a (B₁ ++ b :: B₂) ↔
    Gridded a B₁ ∧ (SameGrid a b.addr ∧ minAlloc ∣ b.size) ∧ Gridded a B₂ := by
  simp only [Gridded, List.forall_mem_append, List.forall_mem_cons]

theorem Gridded.served (hGrid : Gridded a (B₁ ++ b :: B₂)) (ht : minAlloc ∣ t) : Gridded a (served B₁ b B₂ t) := by
  obtain ⟨hLow, ⟨hAddr, hSize⟩, hHigh⟩ := gridded_append.mp hGrid
  rw [Kmalloc.served]
  split
  · refine gridded_append.mpr ⟨hLow, ⟨hAddr, ht⟩, ?_⟩
    intro d hd
    obtain rfl | hd := List.mem_cons.mp hd
    · exact ⟨hAddr.add ht, Nat.dvd_sub hSize ht⟩
    · exact hHigh d hd
  · exact gridded_append.mpr ⟨hLow, ⟨hAddr, hSize⟩, hHigh⟩

theorem Gridded.freed (hGrid : Gridded a (B₁ ++ b :: B₂)) : Gridded a (freed B₁ b B₂) := by
  obtain ⟨hLow, ⟨hAddr, hSize⟩, hHigh⟩ := gridded_append.mp hGrid
  cases B₂ with
  | nil => exact gridded_append.mpr ⟨hLow, ⟨hAddr, hSize⟩, hHigh⟩
  | cons n B₂ =>
    have hNext := hHigh n List.mem_cons_self
    rw [Kmalloc.freed]
    split
    · exact gridded_append.mpr ⟨hLow, ⟨hAddr, hSize⟩, hHigh⟩
    · exact gridded_append.mpr ⟨hLow, ⟨hAddr, Nat.dvd_add hSize hNext.2⟩,
        fun d hd => hHigh d (List.mem_cons_of_mem n hd)⟩

variable {base : Nat} {fl : List Nat}

theorem harmless_takeBlock (c : Consistent base h (B₁ ++ b :: B₂) (l₁ ++ b.addr :: l₂))
    (hGrid : Gridded a (B₁ ++ b :: B₂)) (hFit : headerSize ≤ t) (ht : minAlloc ∣ t)
    (hne : b.addr ≠ a) : Harmless a h (takeBlock h b.addr (l₁.getLastD 0) t) := by
  have hWrote := wrote_takeBlock (A := (b.addr + t) :: addrs (B₁ ++ b :: B₂)) (S := [b.addr]) c hFit
    (fun x hx => List.mem_cons_of_mem _ hx) List.mem_cons_self List.mem_cons_self
  refine hWrote.harmless ?_ fun hMem => hne (List.mem_singleton.mp hMem).symm
  intro x hx
  obtain rfl | hx := List.mem_cons.mp hx
  · exact (gridded_append.mp hGrid).2.1.1.add ht
  · exact hGrid.addr hx

theorem harmless_release (c : Consistent base h (B₁ ++ b :: B₂) fl) (hUsed : b.used = true)
    (hGrid : Gridded a (B₁ ++ b :: B₂)) :
    Harmless a (markFree h b.addr) (kfreeBlockLocked h b.addr) :=
  (wrote_release (S := []) c hUsed).harmless (fun _ => hGrid.addr) List.not_mem_nil

theorem harmless_markFree (hGrid : Gridded a (B₁ ++ b :: B₂)) : Harmless a h (markFree h b.addr) := by
  have hb : b ∈ B₁ ++ b :: B₂ := by simp
  exact (wrote_markFree (S := []) (mem_addrs hb)).harmless (fun _ => hGrid.addr) List.not_mem_nil

end Blocks

section Calls

variable {base a : Nat} {h h' : Heap} {bs bs' : List Block} {fl : List Nat} {live : List (Nat × Nat)}

theorem Gridded.shift (hGrid : Gridded base bs) (ha : SameGrid base a) : Gridded a bs :=
  fun b hb => ⟨(hGrid b hb).1.trans ha.symm, (hGrid b hb).2⟩

def Outside (a : Nat) (u : Block) : Prop := a < u.addr ∨ u.addr + u.size ≤ a

theorem harmless_data {u : Block} (hGrid : SameGrid a u.addr) (hOutside : Outside a u)
    (hMem : ∀ y, y < u.addr ∨ u.addr + u.size ≤ y → h'.mem y = h.mem y) : Harmless a h h' := by
  intro hUsed
  have hOffset : HeaderField.offset .magic = 8 := rfl
  have hWidth : HeaderField.width .magic = 4 := rfl
  rw [Heap.get, load_congr] at hUsed
  · exact hUsed
  · intro y hLow hHigh
    rw [hOffset] at hLow hHigh
    rw [hWidth] at hHigh
    apply hMem
    simp only [SameGrid, minAlloc, Outside] at hGrid hOutside
    omega

theorem kmalloc_harmless (c : Consistent base h bs fl) (hGrid : Gridded base bs) (size flags : Nat) :
    ∃ h' p bs' fl', kmalloc base h size flags = some (h', p) ∧ Consistent base h' bs' fl' ∧ Yields bs bs' p size ∧
      Gridded base bs' ∧ ∀ a, SameGrid base a →
        (∀ u ∈ bs', u.used = true → p = u.addr + headerSize → Outside a u) → Harmless a h h' := by
  obtain ⟨hRun, -⟩ | ⟨t, h', B₁, b, B₂, l₁, l₂, hRun, hServed⟩ := kmalloc_outcome c size flags
  · exact ⟨h, 0, bs, fl, hRun, c, ⟨fun d hd _ => hd, .inl rfl⟩, hGrid, fun a _ _ => .refl a h⟩
  obtain ⟨fl', hC⟩ := c.served_heap hServed
  obtain ⟨rfl, rfl, hFree, hCover, hFits, hAligned, hHeap⟩ := hServed
  refine ⟨h', _, _, fl', hRun, hC, c.yields hFree hCover hFits, hGrid.served hAligned, ?_⟩
  intro a ha hOutside
  have hGridA := hGrid.shift ha
  obtain ⟨u, hu, huAddr, huUsed, huSize⟩ := (mem_served B₁ B₂ hFits).1
  have huOutside := hOutside u hu huUsed (by rw [huAddr])
  have hPos := (hC.rep.tiles.bounds hu).2.1
  have hne : b.addr ≠ a := by
    intro hHere
    rw [Outside, huAddr, hHere] at huOutside
    omega
  have hTake : Harmless a h (takeBlock h b.addr (l₁.getLastD 0) t) :=
    harmless_takeBlock c hGridA (Nat.le_trans (Nat.le_add_left headerSize size) hCover) hAligned hne
  obtain rfl | rfl := hHeap
  · exact hTake
  · have huGrid : SameGrid a u.addr := by
      rw [huAddr]
      exact (gridded_append.mp hGridA).2.1.1
    refine hTake.trans (harmless_data huGrid huOutside ?_)
    intro y hy
    change fill (takeBlock h b.addr (l₁.getLastD 0) t).mem (b.addr + headerSize) size (fun _ => 0) y = _
    exact fill_outside (by omega)

theorem kfree_harmless (c : Consistent base h bs fl) (hHolds : Holds bs live) (hGrid : Gridded base bs) {p : Nat}
    (hp : p = 0 ∨ ∃ x ∈ live, x.1 = p) :
    ∃ bs' fl', Consistent base (kfree h p) bs' fl' ∧ Holds bs' (release live p) ∧ Gridded base bs' ∧
      (∀ d ∈ bs, d.used = true → d.addr + headerSize ≠ p → d ∈ bs') ∧
      ∀ a, SameGrid base a → Harmless a h (kfree h p) ∧
        (p = a + headerSize → (kfree h p).get .magic a ≠ blockMagicUsed) := by
  obtain rfl | ⟨x, hx, rfl⟩ := hp
  · have hSame : kfree h 0 = h := if_pos rfl
    rw [hSame, hHolds.release_null]
    refine ⟨bs, fl, c, hHolds, hGrid, fun d hd _ _ => hd, fun a _ => ⟨.refl a h, ?_⟩⟩
    intro hNull
    simp only [headerSize] at hNull
    omega
  · obtain ⟨b, hb, hUsed, hPtr, -⟩ := hHolds.block x hx
    rw [hPtr, kfree_used c hb hUsed]
    obtain ⟨B₁, B₂, rfl⟩ := List.append_of_mem hb
    obtain ⟨fl', hFreed⟩ := c.freed hUsed
    refine ⟨_, fl', hFreed, hHolds.release fun d hd hdUsed hne => mem_freed hd hdUsed hne, hGrid.freed, ?_, ?_⟩
    · intro d hd hdUsed hne
      exact mem_freed hd hdUsed fun hSame => hne (by rw [hSame])
    · intro a ha
      have hGridA := hGrid.shift ha
      have hRelease := harmless_release c hUsed hGridA
      refine ⟨(harmless_markFree hGridA).trans hRelease, ?_⟩
      intro hHere hStill
      obtain rfl : b.addr = a := Nat.add_right_cancel hHere
      have hMarked : (markFree h b.addr).get .magic b.addr = blockMagicFree := by
        simp only [markFree]
        rw [get_set_field (by decide), get_set_field (by decide), get_set_same magicFree_lt]
      rw [hRelease hStill] at hMarked
      exact absurd hMarked (by decide)

/-- The block of an allocation contains the place where the header of `p` was. -/
def CoversHeader (c : Client) (x : Nat × Nat) (p : Nat) : Prop :=
  x.1 ≤ p ∧ p < x.1 + dataSize c.heap x.1 + headerSize

def Spared (c : Client) (p : Nat) : Prop := ∀ x ∈ c.live, ¬ CoversHeader c x p

def StepSpares (c c' : Client) (p : Nat) : Prop := ∀ x ∈ c'.live, x ∉ c.live → ¬ CoversHeader c' x p

def Grounded (base : Nat) (c : Client) (bs : List Block) (fl : List Nat) : Prop :=
  Consistent base c.heap bs fl ∧ Holds bs c.live ∧ Gridded base bs

variable {c c' : Client} {p : Nat} {x y : Nat × Nat}

theorem coversHeader_block (hC : Consistent base c.heap bs fl) {b : Block} (hb : b ∈ bs)
    (hPtr : x.1 = b.addr + headerSize) : CoversHeader c x p ↔ b.addr + headerSize ≤ p ∧ p < b.addr + b.size + headerSize := by
  have hRoom := hC.rep.room b hb
  rw [CoversHeader, hPtr, dataSize, dataToBlock, Nat.add_sub_cancel, hC.rep.size_eq b hb]
  omega

theorem Grounded.outside (g : Grounded base c bs fl) (hSpared : Spared c (a + headerSize)) {u : Block} (hu : u ∈ bs)
    (hHeld : ∃ x ∈ c.live, x.1 = u.addr + headerSize) : Outside a u := by
  obtain ⟨x, hx, hPtr⟩ := hHeld
  have hNot := hSpared x hx
  rw [coversHeader_block g.1 hu hPtr] at hNot
  rw [Outside]
  omega

theorem Grounded.covers_iff (g : Grounded base c bs fl) (hC' : Consistent base c'.heap bs' fl') (hx : x ∈ c.live)
    (hKeep : ∀ d ∈ bs, d.used = true → d.addr + headerSize = x.1 → d ∈ bs') :
    CoversHeader c' x p ↔ CoversHeader c x p := by
  obtain ⟨b, hb, hUsed, hPtr, -⟩ := g.2.1.block x hx
  rw [coversHeader_block g.1 hb hPtr, coversHeader_block hC' (hKeep b hb hUsed hPtr.symm) hPtr]

theorem Grounded.apart (g : Grounded base c bs fl) (hx : x ∈ c.live) (hy : y ∈ c.live) (hne : x.1 ≠ y.1) :
    ¬ CoversHeader c x y.1 := by
  obtain ⟨b, hb, -, hbPtr, -⟩ := g.2.1.block x hx
  obtain ⟨d, hd, -, hdPtr, -⟩ := g.2.1.block y hy
  have hRoom := g.1.rep.room d hd
  rw [coversHeader_block g.1 hb hbPtr]
  obtain rfl | hLow | hHigh := g.1.rep.tiles.eq_or_disjoint hb hd
  · exact absurd (hbPtr.trans hdPtr.symm) hne
  · omega
  · simp only [headerSize] at *
    omega

/-- What a call does about the magic word at `a`: it brings no USED mark unless its result covers the place, and
takes the mark away when it frees the block there. -/
structure Step (a : Nat) (c c' : Client) : Prop where
  harmless : Spared c' (a + headerSize) → Harmless a c.heap c'.heap
  spares : Spared c (a + headerSize) → StepSpares c c' (a + headerSize) → Spared c' (a + headerSize)
  frees : (∃ x ∈ c.live, x.1 = a + headerSize) → (∀ x ∈ c'.live, x.1 ≠ a + headerSize) →
    c'.heap.get .magic a ≠ blockMagicUsed ∧ Spared c' (a + headerSize)

theorem Spared.step (hSpared : Spared c p) (hStep : StepSpares c c' p)
    (hSame : ∀ x ∈ c.live, x ∈ c'.live → CoversHeader c' x p → CoversHeader c x p) : Spared c' p := by
  intro x hx hCovers
  by_cases hOld : x ∈ c.live
  · exact hSpared x hOld (hSame x hOld hx hCovers)
  · exact hStep x hx hOld hCovers

theorem mem_release {ptr : Nat} : x ∈ release live ptr ↔ x ∈ live ∧ x.1 ≠ ptr := by
  simp only [release, List.mem_filter, decide_eq_true_eq]

theorem mem_hold (hx : x ∈ live) (ptr size : Nat) : x ∈ hold live ptr size := by
  rw [hold]
  split
  · exact hx
  · exact List.mem_cons_of_mem _ hx

theorem Step.of_kept (hHarmless : Spared c' (a + headerSize) → Harmless a c.heap c'.heap)
    (hSame : ∀ x ∈ c.live, x ∈ c'.live → CoversHeader c' x (a + headerSize) → CoversHeader c x (a + headerSize))
    (hKeep : ∀ x ∈ c.live, ∃ y ∈ c'.live, y.1 = x.1) : Step a c c' := by
  refine ⟨hHarmless, fun hSpared hStep => hSpared.step hStep hSame, ?_⟩
  rintro ⟨x, hx, hPtr⟩ hGone
  obtain ⟨y, hy, hEq⟩ := hKeep x hx
  exact absurd (hEq.trans hPtr) (hGone y hy)

theorem Grounded.kmalloc (g : Grounded base c bs fl) (size flags : Nat) :
    ∃ h' p bs' fl', kmalloc base c.heap size flags = some (h', p) ∧
      Grounded base ⟨h', hold c.live p size⟩ bs' fl' ∧
      ∀ a, SameGrid base a → Step a c ⟨h', hold c.live p size⟩ := by
  obtain ⟨hC, hHolds, hGrid⟩ := g
  obtain ⟨h', p, bs', fl', hRun, hC', hYields, hGrid', hHarmless⟩ := kmalloc_harmless hC hGrid size flags
  have g' : Grounded base ⟨h', hold c.live p size⟩ bs' fl' := ⟨hC', hHolds.request hYields, hGrid'⟩
  refine ⟨h', p, bs', fl', hRun, g', ?_⟩
  intro a ha
  refine Step.of_kept ?_ ?_ fun x hx => ⟨x, mem_hold hx p size, rfl⟩
  · intro hSpared
    refine hHarmless a ha ?_
    intro u hu _ hPtr
    refine g'.outside hSpared hu ⟨(p, size), ?_, hPtr⟩
    have hSome : p ≠ 0 := by
      simp only [headerSize] at hPtr
      omega
    rw [hold, if_neg hSome]
    exact List.mem_cons_self
  · intro x hx _
    exact (Grounded.covers_iff ⟨hC, hHolds, hGrid⟩ hC' hx fun d hd hUsed _ => hYields.1 d hd hUsed).mp

theorem Grounded.kfree (g : Grounded base c bs fl) (hHeld : Held c p) :
    ∃ bs' fl', Grounded base ⟨kfree c.heap p, release c.live p⟩ bs' fl' ∧
      (∀ d ∈ bs, d.used = true → d.addr + headerSize ≠ p → d ∈ bs') ∧
      ∀ a, SameGrid base a → Harmless a c.heap (Kmalloc.kfree c.heap p) ∧
        Step a c ⟨Kmalloc.kfree c.heap p, release c.live p⟩ := by
  obtain ⟨bs', fl', hC', hHolds', hGrid', hKeep, hFree⟩ := kfree_harmless g.1 g.2.1 g.2.2 hHeld
  refine ⟨bs', fl', ⟨hC', hHolds', hGrid'⟩, hKeep, ?_⟩
  intro a ha
  obtain ⟨hHarmless, hUnmarks⟩ := hFree a ha
  have hSame : ∀ x ∈ release c.live p, ∀ q,
      CoversHeader ⟨Kmalloc.kfree c.heap p, release c.live p⟩ x q → CoversHeader c x q := by
    intro x hx q
    obtain ⟨hOld, hne⟩ := mem_release.mp hx
    refine (g.covers_iff hC' hOld fun d hd hUsed hPtr => hKeep d hd hUsed ?_).mp
    rwa [hPtr]
  refine ⟨hHarmless, fun _ => hHarmless, ?_, ?_⟩
  · intro hSpared hStep
    exact hSpared.step hStep fun x _ hx => hSame x hx _
  · rintro ⟨x, hx, hPtr⟩ hGone
    -- only the pointer that is freed leaves the list
    have hFreed : p = a + headerSize := by
      by_contra hOther
      exact hGone x (mem_release.mpr ⟨hx, fun hEq => hOther (hEq.symm.trans hPtr)⟩) hPtr
    refine ⟨hUnmarks hFreed, ?_⟩
    intro y hy hCovers
    have hNot := g.apart (mem_release.mp hy).1 hx (by rw [hPtr, ← hFreed]; exact (mem_release.mp hy).2)
    rw [hPtr] at hNot
    exact hNot (hSame y hy _ hCovers)

theorem coversHeader_congr (hSize : dataSize c'.heap x.1 = dataSize c.heap x.1) :
    CoversHeader c' x p ↔ CoversHeader c x p := by
  rw [CoversHeader, CoversHeader, hSize]

theorem Step.of_heap (hHeap : c'.heap = c.heap) (hKeep : ∀ x ∈ c.live, ∃ y ∈ c'.live, y.1 = x.1) : Step a c c' := by
  refine Step.of_kept (fun _ => .of_mem (by rw [hHeap])) ?_ hKeep
  intro x _ _
  exact (coversHeader_congr (by rw [hHeap])).mp

theorem Grounded.move (g : Grounded base c bs fl) {newSize flags : Nat} (hx : x ∈ c.live) {h' : Heap} {q n : Nat}
    (hRun : Kmalloc.kmalloc base c.heap newSize flags = some (h', q)) (hq : q ≠ 0) (hn : n ≤ newSize) :
    ∃ bs' fl', Grounded base ⟨Kmalloc.kfree (copyData h' q x.1 n) x.1, (q, newSize) :: release c.live x.1⟩ bs' fl' ∧
      ∀ a, SameGrid base a →
        Step a c ⟨Kmalloc.kfree (copyData h' q x.1 n) x.1, (q, newSize) :: release c.live x.1⟩ := by
  obtain ⟨hC, hHolds, hGrid⟩ := g
  obtain ⟨h₁, q₁, bs₁, fl₁, hRun₁, hC₁, hYields, hGrid₁, hHarmless₁⟩ := kmalloc_harmless hC hGrid newSize flags
  obtain ⟨rfl, rfl⟩ := Prod.mk.inj (Option.some.inj (hRun₁.symm.trans hRun))
  have hHolds₁ := hHolds.request hYields
  rw [hold, if_neg hq] at hHolds₁
  obtain ⟨u, hu, huUsed, huPtr, huSize, hOwn⟩ := hYields.2.resolve_left hq
  have hCopied := hC₁.copyData hu q₁ x.1 n (by omega) (by omega)
  obtain ⟨b, hb, hUsed, hPtr, -⟩ := hHolds.block x hx
  have hqx : q₁ ≠ x.1 := by
    intro hEq
    apply hOwn b hb hUsed
    omega
  have g₁ : Grounded base ⟨copyData h₁ q₁ x.1 n, (q₁, newSize) :: c.live⟩ bs₁ fl₁ := ⟨hCopied, hHolds₁, hGrid₁⟩
  obtain ⟨bs₂, fl₂, g₂, hKeep, hFree⟩ := g₁.kfree (.inr ⟨x, List.mem_cons_of_mem _ hx, rfl⟩)
  have hLive : release ((q₁, newSize) :: c.live) x.1 = (q₁, newSize) :: release c.live x.1 := by
    rw [release, List.filter_cons_of_pos (by simpa using hqx), release]
  rw [hLive] at g₂ hFree
  refine ⟨bs₂, fl₂, g₂, ?_⟩
  intro a ha
  obtain ⟨hHarmless₂, hStep₂⟩ := hFree a ha
  have hCovers : ∀ y ∈ c.live, y ∈ (q₁, newSize) :: release c.live x.1 →
      CoversHeader ⟨Kmalloc.kfree (copyData h₁ q₁ x.1 n) x.1, (q₁, newSize) :: release c.live x.1⟩ y (a + headerSize) →
      CoversHeader c y (a + headerSize) := by
    intro y hy hyStill
    refine (Grounded.covers_iff ⟨hC, hHolds, hGrid⟩ g₂.1 hy fun d hd hdUsed hdPtr => ?_).mp
    refine hKeep d (hYields.1 d hd hdUsed) hdUsed ?_
    rw [hdPtr]
    obtain rfl | hyOld := List.mem_cons.mp hyStill
    · exact hqx
    · exact (mem_release.mp hyOld).2
  refine ⟨?_, fun hSpared hStep => hSpared.step hStep hCovers, ?_⟩
  · intro hSpared
    have hNew : u ∈ bs₂ := hKeep u hu huUsed (by rwa [← huPtr])
    have hOutside : Outside a u := g₂.outside hSpared hNew ⟨(q₁, newSize), List.mem_cons_self, huPtr⟩
    have hAlloc : Harmless a c.heap h₁ := by
      refine hHarmless₁ a ha fun d hd _ hdPtr => ?_
      have hSame : d = u := hC₁.rep.tiles.eq_of_addr_eq hd hu (Nat.add_right_cancel (hdPtr.symm.trans huPtr))
      rwa [hSame]
    refine (hAlloc.trans (harmless_data ((hGrid₁.shift ha).addr (List.mem_map_of_mem hu)) hOutside ?_)).trans hHarmless₂
    intro y hy
    change copy h₁.mem q₁ x.1 n y = h₁.mem y
    exact copy_outside (by omega)
  · rintro ⟨y, hy, hyPtr⟩ hGone
    exact hStep₂.frees ⟨y, List.mem_cons_of_mem _ hy, hyPtr⟩ hGone

theorem Grounded.krealloc (g : Grounded base c bs fl) (hHeld : Held c p) (newSize flags : Nat) :
    ∃ h' q bs' fl', krealloc base c.heap p newSize flags = some (h', q) ∧
      Grounded base ⟨h', resize c.live p q newSize⟩ bs' fl' ∧
      ∀ a, SameGrid base a → Step a c ⟨h', resize c.live p q newSize⟩ := by
  by_cases hNull : p = 0
  · obtain ⟨h', q, bs', fl', hRun, g', hStep⟩ := g.kmalloc newSize flags
    refine ⟨h', q, bs', fl', by rw [Kmalloc.krealloc, if_pos hNull, hRun], ?_⟩
    rw [resize, if_pos hNull]
    exact ⟨g', hStep⟩
  by_cases hZero : newSize = 0
  · obtain ⟨bs', fl', g', -, hStep⟩ := g.kfree hHeld
    refine ⟨_, 0, bs', fl', by rw [Kmalloc.krealloc, if_neg hNull, if_pos hZero], ?_⟩
    rw [resize, if_neg hNull, if_pos hZero]
    exact ⟨g', fun a ha => (hStep a ha).2⟩
  obtain ⟨x, hx, rfl⟩ := hHeld.resolve_left hNull
  obtain ⟨b, hb, hUsed, hPtr, -, ⟨hFits, hRun⟩ | hRun | ⟨h', q, hGrow, hq, hAlloc, hRun⟩⟩ :=
    krealloc_cases g.1 g.2.1 hx hZero flags
  · refine ⟨c.heap, x.1, bs, fl, hRun, ?_⟩
    rw [resize, if_neg hNull, if_neg hZero, if_neg hNull]
    refine ⟨⟨g.1, g.2.1.resized hb hUsed hPtr hFits, g.2.2⟩, ?_⟩
    intro a _
    refine Step.of_heap rfl fun y hy => ?_
    by_cases hSame : y.1 = x.1
    · exact ⟨(x.1, newSize), List.mem_cons_self, hSame.symm⟩
    · exact ⟨y, List.mem_cons_of_mem _ (mem_release.mpr ⟨hy, hSame⟩), rfl⟩
  · refine ⟨c.heap, 0, bs, fl, hRun, ?_⟩
    rw [resize, if_neg hNull, if_neg hZero, if_pos rfl]
    exact ⟨g, fun a _ => Step.of_heap rfl fun y hy => ⟨y, hy, rfl⟩⟩
  · obtain ⟨bs', fl', g', hStep⟩ := g.move hx hAlloc hq hGrow
    refine ⟨_, q, bs', fl', hRun, ?_⟩
    rw [resize, if_neg hNull, if_neg hZero, if_neg hq]
    exact ⟨g', hStep⟩

theorem Grounded.write (g : Grounded base c bs fl) {addr : Nat} {value : UInt8}
    (hAllowed : ∃ x ∈ c.live, x.1 ≤ addr ∧ addr < x.1 + x.2) :
    Grounded base ⟨{ c.heap with mem := fill c.heap.mem addr 1 (fun _ => value) }, c.live⟩ bs fl ∧
      ∀ a, SameGrid base a →
        Step a c ⟨{ c.heap with mem := fill c.heap.mem addr 1 (fun _ => value) }, c.live⟩ := by
  obtain ⟨x, hx, hLow, hHigh⟩ := hAllowed
  obtain ⟨b, hb, -, hPtr, hSize⟩ := g.2.1.block x hx
  have hMem : ∀ y, y < b.addr + headerSize ∨ b.addr + b.size ≤ y →
      fill c.heap.mem addr 1 (fun _ => value) y = c.heap.mem y := by
    intro y hy
    exact fill_outside (by omega)
  have g' : Grounded base ⟨{ c.heap with mem := fill c.heap.mem addr 1 (fun _ => value) }, c.live⟩ bs fl :=
    ⟨g.1.writeData hb hMem rfl ⟨rfl, rfl, rfl, rfl⟩, g.2.1, g.2.2⟩
  refine ⟨g', ?_⟩
  intro a ha
  refine Step.of_kept ?_ ?_ fun y hy => ⟨y, hy, rfl⟩
  · intro hSpared
    refine harmless_data ((g.2.2.shift ha).addr (List.mem_map_of_mem hb)) (g'.outside hSpared hb ⟨x, hx, hPtr⟩) ?_
    intro y hy
    exact hMem y (by omega)
  · intro y hy _
    exact (g.covers_iff g'.1 hy fun d hd _ _ => hd).mp

theorem Grounded.exec (g : Grounded base c bs fl) {call : Call} (hAllowed : call.Allowed c) :
    ∃ c' bs' fl', c.exec base call = some c' ∧ Grounded base c' bs' fl' ∧ ∀ a, SameGrid base a → Step a c c' := by
  cases call with
  | kmalloc size flags =>
    obtain ⟨h', p, bs', fl', hRun, g', hStep⟩ := g.kmalloc size flags
    exact ⟨⟨h', hold c.live p size⟩, bs', fl', by rw [Client.exec, hRun]; rfl, g', hStep⟩
  | kzalloc size flags =>
    obtain ⟨h', p, bs', fl', hRun, g', hStep⟩ := g.kmalloc size (flags ||| gfpZero)
    exact ⟨⟨h', hold c.live p size⟩, bs', fl', by rw [Client.exec, kzalloc, hRun]; rfl, g', hStep⟩
  | krealloc ptr newSize flags =>
    obtain ⟨h', q, bs', fl', hRun, g', hStep⟩ := g.krealloc hAllowed newSize flags
    exact ⟨⟨h', resize c.live ptr q newSize⟩, bs', fl', by rw [Client.exec, hRun]; rfl, g', hStep⟩
  | kfree ptr =>
    obtain ⟨bs', fl', g', -, hStep⟩ := g.kfree hAllowed
    exact ⟨_, bs', fl', rfl, g', fun a ha => (hStep a ha).2⟩
  | write addr value =>
    obtain ⟨g', hStep⟩ := g.write hAllowed
    exact ⟨_, bs, fl, rfl, g', hStep⟩

end Calls

section Runs

variable {base : Nat} {c c' : Client} {calls : List Call}

/-- No allocation that a call of the run makes covers the old header of `p`. -/
def SparedAlong (base p : Nat) : Client → List Call → Prop
  | _, [] => True
  | c, call :: calls => ∀ c' ∈ c.exec base call, StepSpares c c' p ∧ SparedAlong base p c' calls

instance (c : Client) (x : Nat × Nat) (p : Nat) : Decidable (CoversHeader c x p) :=
  inferInstanceAs (Decidable (_ ∧ _))

instance (c c' : Client) (p : Nat) : Decidable (StepSpares c c' p) :=
  inferInstanceAs (Decidable (∀ x ∈ c'.live, x ∉ c.live → ¬ CoversHeader c' x p))

instance decidableSparedAlong (base p : Nat) : ∀ c calls, Decidable (SparedAlong base p c calls)
  | _, [] => isTrue trivial
  | c, call :: calls =>
    have := fun c' => decidableSparedAlong base p c' calls
    inferInstanceAs (Decidable (∀ c' ∈ c.exec base call, StepSpares c c' p ∧ SparedAlong base p c' calls))

def Unmarked (a : Nat) (c : Client) : Prop :=
  c.heap.get .magic a ≠ blockMagicUsed ∧ Spared c (a + headerSize)

theorem Step.unmarked {a : Nat} (hStep : Step a c c') (hUnmarked : Unmarked a c)
    (hSpares : StepSpares c c' (a + headerSize)) : Unmarked a c' := by
  have hSpared := hStep.spares hUnmarked.2 hSpares
  exact ⟨fun hUsed => hUnmarked.1 (hStep.harmless hSpared hUsed), hSpared⟩

theorem Legal.drop {calls₁ calls₂ : List Call} (hLegal : Legal base c (calls₁ ++ calls₂))
    (hRun : c.run base calls₁ = some c') : Legal base c' calls₂ := by
  induction calls₁ generalizing c with
  | nil =>
    obtain rfl := Option.some.inj hRun
    exact hLegal
  | cons call calls₁ ih =>
    obtain ⟨-, hRest⟩ := hLegal
    rw [Client.run] at hRun
    obtain ⟨c₁, hExec, hRun⟩ := Option.bind_eq_some_iff.mp hRun
    exact ih (hRest c₁ hExec) hRun

theorem Legal.take {calls₁ calls₂ : List Call} (hLegal : Legal base c (calls₁ ++ calls₂)) : Legal base c calls₁ := by
  induction calls₁ generalizing c with
  | nil => trivial
  | cons call calls₁ ih => exact ⟨hLegal.1, fun c₁ hExec => ih (hLegal.2 c₁ hExec)⟩

theorem Grounded.run {bs : List Block} {fl : List Nat} (g : Grounded base c bs fl) (hLegal : Legal base c calls)
    (hRun : c.run base calls = some c') :
    (∃ bs' fl', Grounded base c' bs' fl') ∧ ∀ a, SameGrid base a → SparedAlong base (a + headerSize) c calls →
      Unmarked a c → Unmarked a c' := by
  induction calls generalizing c bs fl with
  | nil =>
    obtain rfl := Option.some.inj hRun
    exact ⟨⟨bs, fl, g⟩, fun _ _ _ hUnmarked => hUnmarked⟩
  | cons call calls ih =>
    obtain ⟨hAllowed, hRest⟩ := hLegal
    obtain ⟨c₁, bs₁, fl₁, hExec, g₁, hStep⟩ := g.exec hAllowed
    rw [Client.run, hExec, Option.bind_some] at hRun
    obtain ⟨hGrounded, hKept⟩ := ih g₁ (hRest c₁ hExec) hRun
    refine ⟨hGrounded, ?_⟩
    intro a ha hSpared hUnmarked
    obtain ⟨hHere, hLater⟩ := hSpared c₁ hExec
    exact hKept a ha hLater ((hStep a ha).unmarked hUnmarked hHere)

theorem boot_grounded (hBase : 0 < base) (hTop : base + heapSize < 2 ^ 64) (h : Heap) :
    ∃ bs fl, Grounded base (boot base h) bs fl := by
  refine ⟨_, _, kmallocInit_consistent hBase hTop h, ⟨by simp [boot], List.nodup_nil⟩, ?_⟩
  intro b hb
  obtain rfl := List.mem_singleton.mp hb
  exact ⟨rfl, (by decide : minAlloc ∣ heapSize)⟩

/-- A pointer that a call has freed is not freed again: unless an allocation since then covers its old header, a
second `kfree` leaves the heap as it is. -/
theorem double_free_rejected (hBase : 0 < base) (hTop : base + heapSize < 2 ^ 64) (h : Heap)
    {calls₁ calls₂ : List Call} {call : Call} {c₁ c₂ c₃ : Client} {p : Nat}
    (hLegal : Legal base (boot base h) (calls₁ ++ call :: calls₂))
    (hBefore : (boot base h).run base calls₁ = some c₁) (hHeld : ∃ x ∈ c₁.live, x.1 = p)
    (hFree : c₁.exec base call = some c₂) (hFreed : ∀ x ∈ c₂.live, x.1 ≠ p)
    (hSince : c₂.run base calls₂ = some c₃) (hSpared : SparedAlong base p c₂ calls₂) :
    kfree c₃.heap p = c₃.heap := by
  obtain ⟨bs₀, fl₀, g₀⟩ := boot_grounded hBase hTop h
  obtain ⟨⟨bs₁, fl₁, g₁⟩, -⟩ := g₀.run hLegal.take hBefore
  have hLegal₁ := hLegal.drop hBefore
  obtain ⟨c₂', bs₂, fl₂, hExec, g₂, hStep⟩ := g₁.exec hLegal₁.1
  obtain rfl := Option.some.inj (hExec.symm.trans hFree)
  obtain ⟨x, hx, rfl⟩ := hHeld
  obtain ⟨b, hb, -, hPtr, -⟩ := g₁.2.1.block x hx
  have hGrid : SameGrid base b.addr := (g₁.2.2 b hb).1
  rw [hPtr] at hSpared hFreed ⊢
  have hUnmarked : Unmarked b.addr c₂' := (hStep b.addr hGrid).frees ⟨x, hx, hPtr⟩ hFreed
  obtain ⟨-, hKept⟩ := g₂.run (hLegal₁.2 c₂' hExec) hSince
  have hStill := (hKept b.addr hGrid hSpared hUnmarked).1
  rw [kfree, dataToBlock, Nat.add_sub_cancel, if_pos hStill, ite_self]

theorem double_free_rejected_heapBase :
    ∃ c₁ c₂ c₃, (boot 0x42000000 uninitialised).run 0x42000000 [.kmalloc 100 0, .kmalloc 8 0] = some c₁ ∧
      c₁.exec 0x42000000 (.kfree 0x420000C8) = some c₂ ∧
      c₂.run 0x42000000 [.kfree 0x42000028, .kmalloc 20 0] = some c₃ ∧ kfree c₃.heap 0x420000C8 = c₃.heap := by
  have hLegal : Legal 0x42000000 (boot 0x42000000 uninitialised)
      ([.kmalloc 100 0, .kmalloc 8 0] ++ .kfree 0x420000C8 :: [.kfree 0x42000028, .kmalloc 20 0]) := by
    decide +kernel
  have h₁ : ((boot 0x42000000 uninitialised).run 0x42000000 [.kmalloc 100 0, .kmalloc 8 0]).isSome := by
    decide +kernel
  have hHeld : ∃ x ∈ (Option.get _ h₁).live, x.1 = 0x420000C8 := by decide +kernel +revert
  have h₂ : ((Option.get _ h₁).exec 0x42000000 (.kfree 0x420000C8)).isSome := by decide +kernel +revert
  have hFreed : ∀ x ∈ (Option.get _ h₂).live, x.1 ≠ 0x420000C8 := by decide +kernel +revert
  have h₃ : ((Option.get _ h₂).run 0x42000000 [.kfree 0x42000028, .kmalloc 20 0]).isSome := by decide +kernel +revert
  have hSpared : SparedAlong 0x42000000 0x420000C8 (Option.get _ h₂) [.kfree 0x42000028, .kmalloc 20 0] := by
    decide +kernel +revert
  have hRun₁ := (Option.some_get h₁).symm
  have hRun₂ := (Option.some_get h₂).symm
  have hRun₃ := (Option.some_get h₃).symm
  exact ⟨_, _, _, hRun₁, hRun₂, hRun₃, double_free_rejected (by decide) (by decide) uninitialised hLegal hRun₁ hHeld
    hRun₂ hFreed hRun₃ hSpared⟩

end Runs

end UnixOS.Kmalloc
