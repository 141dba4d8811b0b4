import UnixOS.Mm.VmmRuns

/-! # Ranges of an address space

`vmm_add_vma` and `vmm_map_user_range` of `kernel/mm/vmm.c`, with the areas that an address space records and the pages
that the allocator has handed out.
-/

namespace UnixOS.Paging

open TableForest BitFields

def vmaPoolSize : Nat := 256

structure Vma where
  start : UInt64
  stop : UInt64
  flags : UInt32

/-- The tables, and for each place of `mm_pool` the fields `vma_list` and `total_vm`. The pages `live` are allocated and
were not given back; no function reads them. -/
structure UserMemory where
  vmm : Vmm
  vmaIndex : Nat
  vmaList : Nat → List Vma
  totalVm : Nat → UInt64
  live : List UInt64

namespace UserMemory

variable (img : Image) (s : UserMemory)

def vmmAddVma (mm : Nat) (start stop : UInt64) (flags : UInt32) : Int × UserMemory :=
  if s.vmaIndex ≥ vmaPoolSize then (-1, s)
  else
    (0, { s with
      vmaIndex := s.vmaIndex + 1
      vmaList := Function.update s.vmaList mm (⟨start, stop, flags⟩ :: s.vmaList mm)
      totalVm := Function.update s.totalVm mm (s.totalVm mm + (stop - start)) })

def mapUserPages (mm : Nat) (flags : UInt32) : List UInt64 → UserMemory → Int × UserMemory
  | [], s => (0, s)
  | addr :: rest, s =>
    match s.vmm.pmmAllocPage with
    | (paddr, vmm) =>
      if paddr = 0 then (-1, { s with vmm })
      else
        let live := paddr :: s.live
        match vmm.vmmMapUserPage img mm addr paddr flags with
        | (ret, vmm) =>
          if ret ≠ 0 then (ret, { s with vmm, live := live.erase paddr })
          else mapUserPages mm flags rest { s with vmm, live }

def vmmMapUserRange (mm : Nat) (vaddr size : UInt64) (flags : UInt32) : Int × UserMemory :=
  let stop := (vaddr + size + pageSize - 1) &&& ~~~(pageSize - 1)
  let vaddr := vaddr &&& ~~~(pageSize - 1)
  let s := (s.vmmAddVma mm vaddr stop flags).2
  s.mapUserPages img mm flags (pageAddrs vaddr stop)

/-- The state before a call to which the allocator will give `pages`. -/
def given (pages : List UInt64) : UserMemory := { s with vmm := s.vmm.given pages }

end UserMemory

/-! ### What is asked for -/

def InRange (vaddr size u : UInt64) : Prop :=
  vaddr.toNat / 4096 * 4096 ≤ u.toNat ∧ u.toNat < (vaddr.toNat + size.toNat + 4095) / 4096 * 4096

instance (vaddr size u : UInt64) : Decidable (InRange vaddr size u) := inferInstanceAs (Decidable (_ ∧ _))

def Covered (s : UserMemory) (mm : Nat) (vaddr size : UInt64) : Prop :=
  ∃ v ∈ s.vmaList mm, v.start.toNat ≤ vaddr.toNat / 4096 * 4096 ∧
    (vaddr.toNat + size.toNat + 4095) / 4096 * 4096 ≤ v.stop.toNat

/-- A page of the kernel's table or of an address space leads to `p`, other than those of `mm` in the range `out`. -/
def MappedOutside (img : Image) (s : Vmm) (mm : Nat) (out : UInt64 → Prop) (p : UInt64) : Prop :=
  ∃ r a u e, root img s.pgd r = some a ∧ (r ≠ none → u < userVmaEnd) ∧ s.translate a u = some (e, 0) ∧
    pteToPhys e = p ∧ ¬ (r = some mm ∧ out u)

structure NothingDone (s s' : UserMemory) (mm : Nat) : Prop where
  vmas : s'.vmaList mm = s.vmaList mm
  total : s'.totalVm mm = s.totalVm mm
  pgd : s'.vmm.pgd mm = s.vmm.pgd mm
  translations : ∀ a, s.vmm.pgd mm = some a → ∀ u, s'.vmm.translate a u = s.vmm.translate a u
  live : ∀ p ∈ s'.live, p ∈ s.live

structure RangeDone (img : Image) (s s' : UserMemory) (mm : Nat) (vaddr size : UInt64) : Prop where
  covered : Covered s' mm vaddr size
  pages : ∀ u, InRange vaddr size u → ∃ a e, s'.vmm.pgd mm = some a ∧ s'.vmm.translate a u = some (e, 0) ∧
    pteToPhys e ∈ s'.live ∧ pteToPhys e ∉ s.live
  own : ∀ a u v e e', s'.vmm.pgd mm = some a → InRange vaddr size u → InRange vaddr size v →
    s'.vmm.translate a u = some (e, 0) → s'.vmm.translate a v = some (e', 0) → pteToPhys e = pteToPhys e' → SamePage u v
  kept : ∀ a u e, s.vmm.pgd mm = some a → InRange vaddr size u → s.vmm.translate a u = some (e, 0) →
    pteToPhys e ∈ s'.live → MappedOutside img s'.vmm mm (fun _ => False) (pteToPhys e)

def AllOrNothing (img : Image) (s s' : UserMemory) (ret : Int) (mm : Nat) (vaddr size : UInt64) : Prop :=
  (ret ≠ 0 → NothingDone s s' mm) ∧ (ret = 0 → RangeDone img s s' mm vaddr size)

end UnixOS.Paging
