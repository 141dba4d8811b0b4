import UnixOS.Lib.ByteBitmap
import UnixOS.Lib.FirstRun

/-! # The physical page allocator

`kernel/mm/pmm.c` keeps one bit for each page of its range and a count of the clear ones. It never leaves
its early mode, so the buddy lists stay empty and unused. The addresses of the kernel image come from
the linker and are arguments.
-/

namespace UnixOS.Pmm

open ByteMemory ByteBitmap

def maxOrder : Nat := 11
def memoryBase : Nat := 0x40000000
def memorySize : Nat := 256 * 1024 * 1024
def pageSize : Nat := 4096
def earlyBitmapSize : Nat := 64 * 1024 / 8

def memoryStart : Nat := memoryBase
def memoryEnd : Nat := memoryBase + memorySize
def totalPages : Nat := memorySize / pageSize

structure Pmm where
  earlyBitmap : Mem
  freePagesCount : Nat

def orderToPages (order : Nat) : Nat := 2 ^ order

def pfnOf (addr : Nat) : Nat := (addr + 2 ^ 64 - memoryStart) % 2 ^ 64 / pageSize

def earlyMarkUsed (bitmap : Mem) (addr : Nat) : Mem :=
  if pfnOf addr < earlyBitmapSize * 8 then setBit bitmap (pfnOf addr) else bitmap

def earlyMarkFree (bitmap : Mem) (addr : Nat) : Mem :=
  if pfnOf addr < earlyBitmapSize * 8 then clearBit bitmap (pfnOf addr) else bitmap

def earlyIsFree (bitmap : Mem) (addr : Nat) : Bool :=
  if pfnOf addr ≥ earlyBitmapSize * 8 then false else decide (¬ BitIsSet bitmap (pfnOf addr))

def pageAlignDown (addr : Nat) : Nat := addr / pageSize * pageSize

def pageAlign (addr : Nat) : Nat := (addr + pageSize - 1) % 2 ^ 64 / pageSize * pageSize

/-- `for (addr = start; addr < end; addr += PAGE_SIZE)` -/
def pageAddrs (start stop : Nat) : List Nat :=
  (List.range ((stop - start + pageSize - 1) / pageSize)).map fun i => start + i * pageSize

def countFree (bitmap : Mem) : Nat → Nat
  | 0 => 0
  | n + 1 => if BitIsSet bitmap n then countFree bitmap n else countFree bitmap n + 1

def pmmInit (kernelStart kernelEnd : Nat) : Pmm :=
  let bitmap := (pageAddrs (pageAlignDown kernelStart) (pageAlign kernelEnd)).foldl earlyMarkUsed fun _ => 0
  ⟨bitmap, countFree bitmap (min totalPages (earlyBitmapSize * 8))⟩

def pageAddr (i : Nat) : Nat := memoryStart + i * pageSize

namespace Pmm

variable (s : Pmm)

def pmmAllocPages (order : Nat) : Pmm × Nat :=
  if order > maxOrder then (s, 0)
  else
    let count := orderToPages order
    match FirstRun.scan (fun i => earlyIsFree s.earlyBitmap (pageAddr i)) count totalPages 0 0 0 with
    | none => (s, 0)
    | some first =>
      let start := pageAddr first
      (⟨(List.range count).foldl (fun bitmap i => earlyMarkUsed bitmap (start + i * pageSize)) s.earlyBitmap,
        (s.freePagesCount + 2 ^ 64 - count) % 2 ^ 64⟩, start)

def pmmFreePages (addr order : Nat) : Pmm :=
  if addr = 0 ∨ order > maxOrder then s
  else
    let count := orderToPages order
    ⟨(List.range count).foldl (fun bitmap i => earlyMarkFree bitmap (addr + i * pageSize)) s.earlyBitmap,
      (s.freePagesCount + count) % 2 ^ 64⟩

end Pmm

/-! ### Clients -/

structure Block where
  addr : Nat
  order : Nat
deriving DecidableEq

structure World where
  pmm : Pmm
  live : List Block

inductive PageCall where
  | alloc (order : Nat)
  | free (addr order : Nat)

namespace World

variable (w : World)

def next : PageCall → World
  | .alloc order =>
    let (pmm, addr) := w.pmm.pmmAllocPages order
    ⟨pmm, if addr = 0 then w.live else ⟨addr, order⟩ :: w.live⟩
  | .free addr order => ⟨w.pmm.pmmFreePages addr order, w.live.erase ⟨addr, order⟩⟩

def Allowed : PageCall → Prop
  | .alloc _ => True
  | .free addr order => ⟨addr, order⟩ ∈ w.live

def after (calls : List PageCall) : World := calls.foldl next w

def AllowedAlong (w : World) : List PageCall → Prop
  | [] => True
  | c :: calls => w.Allowed c ∧ (w.next c).AllowedAlong calls

end World

def boot (kernelStart kernelEnd : Nat) : World := ⟨pmmInit kernelStart kernelEnd, []⟩

end UnixOS.Pmm
