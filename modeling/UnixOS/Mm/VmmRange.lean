import UnixOS.Mm.VmmRuns

/-! # Ranges of the kernel's table

`vmm_map_range` and `vmm_unmap_range` of `kernel/mm/vmm.c`. A call for a range is a run of calls for pages, so what
holds along every run of those holds with ranges too.
-/

namespace UnixOS.Paging

open TableForest BitFields

def pageAlignDown (addr : UInt64) : UInt64 := addr &&& ~~~(pageSize - 1)

def pageAlign (addr : UInt64) : UInt64 := (addr + pageSize - 1) &&& ~~~(pageSize - 1)

namespace Vmm

variable (img : Image) (s : Vmm)

def unmapPages (vaddr : UInt64) : List UInt64 → Vmm → Vmm
  | [], s => s
  | offset :: rest, s => unmapPages vaddr rest (s.vmmUnmapPage img (vaddr + offset)).2

def vmmUnmapRange (vaddr size : UInt64) : Int × Vmm :=
  (0, unmapPages img (pageAlignDown vaddr) (pageAddrs 0 (pageAlign size)) s)

def mapPages (vaddr paddr : UInt64) (flags : UInt32) : List UInt64 → Vmm → Int × Vmm
  | [], s => (0, s)
  | offset :: rest, s =>
    match s.vmmMapPage img (vaddr + offset) (paddr + offset) flags with
    | (ret, s) =>
      if ret < 0 then (ret, (s.vmmUnmapRange img vaddr offset).2) else mapPages vaddr paddr flags rest s

def vmmMapRange (vaddr paddr size : UInt64) (flags : UInt32) : Int × Vmm :=
  mapPages img (pageAlignDown vaddr) (pageAlignDown paddr) flags (pageAddrs 0 (pageAlign size)) s

end Vmm

/-! ### Runs with ranges -/

inductive RangeCall where
  | page (c : Call)
  | mapRange (vaddr paddr size : UInt64) (flags : UInt32)
  | unmapRange (vaddr size : UInt64)

def RangeCall.run (img : Image) (s : Vmm) : RangeCall → Vmm
  | .page c => c.run img s
  | .mapRange vaddr paddr size flags => (s.vmmMapRange img vaddr paddr size flags).2
  | .unmapRange vaddr size => (s.vmmUnmapRange img vaddr size).2

inductive RangeRun (img : Image) : Vmm → Vmm → Prop
  | refl (s : Vmm) : RangeRun img s s
  | call {s t : Vmm} (c : RangeCall) (pages : List UInt64) (before : RangeRun img s t)
      (fresh : Fresh img t.allocated pages) : RangeRun img s (c.run img (t.given pages))

/-- After `vmm_init`, or without it on x86_64, by any calls. -/
def RangeReachable (img : Image) (s : Vmm) : Prop :=
  ∃ mem, RangeRun img (boot img mem) s ∨ RangeRun img (booted img mem) s

section Runs

variable {img : Image} {s s₀ : Vmm}

theorem Run.next (h : Run img s₀ s) (hInv : Inv img s) (c : Call) : Run img s₀ (c.run img s) :=
  Run.call c s.pages h hInv.supply.fresh

theorem Run.unmapPages (h : Run img s₀ s) (hInv : Inv img s) (vaddr : UInt64) (offsets : List UInt64) :
    Run img s₀ (Vmm.unmapPages img vaddr offsets s) := by
  induction offsets generalizing s with
  | nil => exact h
  | cons offset rest ih =>
    exact ih (h.next hInv (.unmapPage (vaddr + offset))) (hInv.run (.unmapPage (vaddr + offset)))

theorem Run.mapPages (h : Run img s₀ s) (hInv : Inv img s) (vaddr paddr : UInt64) (flags : UInt32)
    (offsets : List UInt64) : Run img s₀ (Vmm.mapPages img vaddr paddr flags offsets s).2 := by
  induction offsets generalizing s with
  | nil => exact h
  | cons offset rest ih =>
    have hNext := h.next hInv (.mapPage (vaddr + offset) (paddr + offset) flags)
    have hInv' := hInv.run (.mapPage (vaddr + offset) (paddr + offset) flags)
    rw [Vmm.mapPages]
    dsimp only
    split
    · exact hNext.unmapPages hInv' _ _
    · exact ih hNext hInv'

theorem Run.given (h : Run img s₀ s) (hInv : Inv img s) {pages : List UInt64} (hFresh : Fresh img s.allocated pages) :
    Run img s₀ (s.given pages) := by
  have hNone : (s.given pages).pgd s.mmIndex = none := hInv.slots s.mmIndex (Nat.le_refl _)
  have hCall := h.call (.mapUserPage s.mmIndex 0 0 0) pages hFresh
  rw [Call.run, Vmm.vmmMapUserPage, hNone] at hCall
  exact hCall

theorem Run.range (h : Run img s₀ s) (hInv : Inv img s) (c : RangeCall) : Run img s₀ (c.run img s) := by
  cases c with
  | page c => exact h.next hInv c
  | mapRange vaddr paddr size flags => exact h.mapPages hInv _ _ flags _
  | unmapRange vaddr size => exact h.unmapPages hInv _ _

theorem RangeRun.run (h : RangeRun img s₀ s) (hInv : Inv img s₀) : Run img s₀ s := by
  induction h with
  | refl => exact Run.refl _
  | call c pages _ hFresh ih =>
    have hNow := ih.inv hInv
    exact (ih.given hNow hFresh).range (hNow.given hFresh) c

theorem RangeReachable.reachable (h : RangeReachable img s) : Reachable img s := by
  obtain ⟨mem, hRun | hRun⟩ := h
  · exact ⟨mem, Or.inl (hRun.run (Inv.boot img mem))⟩
  · exact ⟨mem, Or.inr (hRun.run (inv_booted img mem))⟩

end Runs

end UnixOS.Paging
