import Mathlib.Algebra.GroupWithZero.Nat
import UnixOS.Lib.TableForest

/-! # The virtual memory manager

`kernel/mm/vmm.c` on the path that builds tables (every architecture but x86_64, where `vmm_init` leaves
them alone). A table is named by its physical address. The addresses of the static tables come from the
linker; what `pmm_alloc_page` returns during a call is the list `pages`, and `0` when that is used up.
-/

namespace UnixOS.Paging

open TableForest

def pteValid : UInt64 := 1
def pteTable : UInt64 := 2
def pteBlock : UInt64 := 0
def ptePage : UInt64 := 2
def pteUser : UInt64 := 0x40
def pteRdonly : UInt64 := 0x80
def pteAccessed : UInt64 := 0x400
def pteAttrNormal : UInt64 := 0
def pteAttrDevice : UInt64 := 4
def pteShNone : UInt64 := 0
def pteShInner : UInt64 := 0x300
def pteUxn : UInt64 := 0x40000000000000
def ptePxn : UInt64 := 0x20000000000000
def pteAddrMask : UInt64 := 0x0000FFFFFFFFF000

def vmWrite : UInt32 := 2
def vmExec : UInt32 := 4
def vmUser : UInt32 := 8
def vmDevice : UInt32 := 32

def vmmEntries : Nat := 512
def earlyTablesCount : Nat := 4
def mmPoolSize : Nat := 64
def pageSize : UInt64 := 4096
def userVmaEnd : UInt64 := 0x0000800000000000

def levelShift (level : Nat) : UInt64 := UInt64.ofNat (39 - 9 * level)

def pteIndex (vaddr : UInt64) (level : Nat) : Nat := ((vaddr >>> levelShift level) &&& 511).toNat

def pteIsValid (pte : UInt64) : Bool := pte &&& pteValid != 0

def pteIsTable (pte : UInt64) : Bool := pte &&& (pteValid ||| pteTable) == (pteValid ||| pteTable)

def pteToPhys (pte : UInt64) : UInt64 := pte &&& pteAddrMask

def physToPte (paddr flags : UInt64) : UInt64 := (paddr &&& pteAddrMask) ||| flags

def vmFlagsToPte (flags : UInt32) : UInt64 :=
  let pteFlags := pteValid ||| pteTable ||| pteAccessed
  let pteFlags := pteFlags |||
    if flags &&& vmDevice ≠ 0 then pteAttrDevice ||| pteShNone else pteAttrNormal ||| pteShInner
  let pteFlags := if flags &&& vmUser ≠ 0 then pteFlags ||| pteUser else pteFlags
  let pteFlags := if flags &&& vmWrite = 0 then pteFlags ||| pteRdonly else pteFlags
  if flags &&& vmExec = 0 then
    if flags &&& vmUser ≠ 0 then pteFlags ||| pteUxn else pteFlags ||| ptePxn
  else pteFlags

/-- Where the linker put `kernel_pgd` and `early_tables`. -/
structure Image where
  kernelPgd : UInt64
  earlyTables : List UInt64
  count : earlyTables.length = earlyTablesCount
  nodup : (kernelPgd :: earlyTables).Nodup
  aligned : ∀ t ∈ kernelPgd :: earlyTables, t &&& pteAddrMask = t

/-- The static variables and the memory of the tables; `pgd k` is `mm_pool[k].pgd`. The list `allocated`
records what `alloc_page_table` has returned and is read by no function. -/
structure Vmm where
  tables : UInt64 → Nat → UInt64
  earlyTableIndex : Nat
  mmIndex : Nat
  pgd : Nat → Option UInt64
  pages : List UInt64
  allocated : List UInt64

namespace Vmm

variable (img : Image) (s : Vmm)

def write (table : UInt64) (idx : Nat) (pte : UInt64) : Vmm :=
  { s with tables := setEntry s.tables table idx pte }

def pmmAllocPage : UInt64 × Vmm :=
  match s.pages with
  | [] => (0, s)
  | paddr :: pages => (paddr, { s with pages })

def clearTable (table : UInt64) : Vmm :=
  { s with tables := Function.update s.tables table fun _ => 0, allocated := table :: s.allocated }

def allocPageTable : Option UInt64 × Vmm :=
  match img.earlyTables[s.earlyTableIndex]? with
  | some table => (some table, { s.clearTable table with earlyTableIndex := s.earlyTableIndex + 1 })
  | none =>
    let (paddr, s) := s.pmmAllocPage
    if paddr = 0 then (none, s) else (some paddr, s.clearTable paddr)

def walkLevels (allocate : Bool) : List Nat → Vmm → UInt64 → Option UInt64 × Vmm
  | [], s, table => (some table, s)
  | idx :: rest, s, table =>
    let pte := s.tables table idx
    if !pteIsValid pte then
      if !allocate then (none, s)
      else
        match s.allocPageTable img with
        | (none, s) => (none, s)
        | (some newTable, s) =>
          walkLevels allocate rest (s.write table idx (physToPte newTable (pteValid ||| pteTable))) newTable
    else if pteIsTable pte then walkLevels allocate rest s (pteToPhys pte)
    -- a block mapping
    else (none, s)

def walkPageTable (pgd vaddr : UInt64) (allocate : Bool) : Option UInt64 × Vmm :=
  walkLevels img allocate [pteIndex vaddr 0, pteIndex vaddr 1, pteIndex vaddr 2] s pgd

def vmmInit : Int × Vmm :=
  match s.allocPageTable img with
  | (none, s) => (-1, s)
  | (some l1Table, s) =>
    let s := s.write img.kernelPgd (pteIndex 0 0) (physToPte l1Table (pteValid ||| pteTable))
    let s := s.write l1Table 0
      ((0 &&& pteAddrMask) ||| pteValid ||| pteBlock ||| pteAttrDevice ||| pteShNone ||| pteAccessed)
    let s := s.write l1Table 1
      ((0x40000000 &&& pteAddrMask) ||| pteValid ||| pteBlock ||| pteAttrNormal ||| pteShInner |||
        pteAccessed)
    let s := s.write l1Table 256
      ((0x4000000000 &&& pteAddrMask) ||| pteValid ||| pteBlock ||| pteAttrDevice ||| pteShNone |||
        pteAccessed)
    (0, s)

def vmmMapPage (vaddr paddr : UInt64) (flags : UInt32) : Int × Vmm :=
  match s.walkPageTable img img.kernelPgd vaddr true with
  | (none, s) => (-1, s)
  | (some pteTable, s) =>
    let idx := pteIndex vaddr 3
    if pteIsValid (s.tables pteTable idx) then (-1, s)
    else (0, s.write pteTable idx (physToPte paddr (vmFlagsToPte flags)))

def vmmUnmapPage (vaddr : UInt64) : Int × Vmm :=
  match s.walkPageTable img img.kernelPgd vaddr false with
  | (none, s) => (-1, s)
  | (some pteTable, s) =>
    let idx := pteIndex vaddr 3
    if !pteIsValid (s.tables pteTable idx) then (-1, s) else (0, s.write pteTable idx 0)

def vmmVirtToPhys (vaddr : UInt64) : UInt64 :=
  match s.walkPageTable img img.kernelPgd vaddr false with
  | (none, _) => 0
  | (some pteTable, s) =>
    let pte := s.tables pteTable (pteIndex vaddr 3)
    if !pteIsValid pte then 0 else pteToPhys pte ||| (vaddr &&& (pageSize - 1))

/-! ### User address spaces -/

def copyKernelHalf (pgd : UInt64) : Vmm :=
  { s with
    tables := Function.update s.tables pgd fun i =>
      if vmmEntries / 2 ≤ i ∧ i < vmmEntries then s.tables img.kernelPgd i else s.tables pgd i }

/-- The result is a place of `mm_pool`. -/
def vmmCreateAddressSpace : Option Nat × Vmm :=
  if s.mmIndex ≥ mmPoolSize then (none, s)
  else
    let mm := s.mmIndex
    match ({ s with mmIndex := mm + 1 } : Vmm).allocPageTable img with
    | (none, s) => (none, { s with pgd := Function.update s.pgd mm none })
    | (some pgd, s) => (some mm, { s.copyKernelHalf img pgd with pgd := Function.update s.pgd mm (some pgd) })

/-- The three blocks "Walk/create" of `vmm_map_user_page`, which ask only whether an entry is valid. -/
def walkCreate (table : UInt64) (idx : Nat) : Option UInt64 × Vmm :=
  if pteIsValid (s.tables table idx) then (some (pteToPhys (s.tables table idx)), s)
  else
    match s.allocPageTable img with
    | (none, s) => (none, s)
    | (some newTable, s) =>
      let s := s.write table idx ((newTable &&& pteAddrMask) ||| pteValid ||| pteTable)
      (some (pteToPhys (s.tables table idx)), s)

def userPteFlags (flags : UInt32) : UInt64 :=
  let pteFlags := pteValid ||| ptePage ||| pteUser ||| pteAttrNormal ||| pteShInner ||| pteAccessed
  let pteFlags := if flags &&& vmWrite = 0 then pteFlags ||| pteRdonly else pteFlags
  let pteFlags := if flags &&& vmExec = 0 then pteFlags ||| pteUxn else pteFlags
  pteFlags ||| ptePxn

def vmmMapUserPage (mm : Nat) (vaddr paddr : UInt64) (flags : UInt32) : Int × Vmm :=
  match s.pgd mm with
  | none => (-1, s)
  | some l0 =>
    if vaddr ≥ userVmaEnd then (-1, s)
    else
      match s.walkCreate img l0 (pteIndex vaddr 0) with
      | (none, s) => (-1, s)
      | (some l1, s) =>
        match s.walkCreate img l1 (pteIndex vaddr 1) with
        | (none, s) => (-1, s)
        | (some l2, s) =>
          match s.walkCreate img l2 (pteIndex vaddr 2) with
          | (none, s) => (-1, s)
          | (some l3, s) => (0, s.write l3 (pteIndex vaddr 3) ((paddr &&& pteAddrMask) ||| userPteFlags flags))

def mapUserPages (mm : Nat) (flags : UInt32) : List UInt64 → Vmm → Int × Vmm
  | [], s => (0, s)
  | addr :: rest, s =>
    match s.pmmAllocPage with
    | (paddr, s) =>
      if paddr = 0 then (-1, s)
      else
        match s.vmmMapUserPage img mm addr paddr flags with
        | (ret, s) => if ret ≠ 0 then (ret, s) else mapUserPages mm flags rest s

end Vmm

/-- `for (addr = vaddr; addr < end; addr += PAGE_SIZE)` -/
def pageAddrs (vaddr stop : UInt64) : List UInt64 :=
  (List.range ((stop.toNat - vaddr.toNat + 4095) / 4096)).map fun i => vaddr + UInt64.ofNat (i * 4096)

def Vmm.vmmMapUserRange (img : Image) (s : Vmm) (mm : Nat) (vaddr size : UInt64) (flags : UInt32) : Int × Vmm :=
  let stop := (vaddr + size + pageSize - 1) &&& ~~~(pageSize - 1)
  let vaddr := vaddr &&& ~~~(pageSize - 1)
  s.mapUserPages img mm flags (pageAddrs vaddr stop)

/-! ### Translations -/

def tableOf (pte : UInt64) : Option UInt64 := if pteIsTable pte then some (pteToPhys pte) else none

/-- What the hardware finds for `vaddr` below the table `pgd`: the entry, and at how many levels above the
last one. -/
def Vmm.translate (s : Vmm) (pgd vaddr : UInt64) : Option (UInt64 × Nat) :=
  resolve tableOf pteIsValid s.tables pgd [pteIndex vaddr 0, pteIndex vaddr 1, pteIndex vaddr 2]
    (pteIndex vaddr 3)

/-- The physical address and the attributes of `vaddr`; below a block the address has more bits of
`vaddr`. -/
def Vmm.hwTranslate (s : Vmm) (pgd vaddr : UInt64) : Option (UInt64 × UInt64) :=
  (s.translate pgd vaddr).map fun (pte, above) =>
    (pteToPhys pte ||| (vaddr &&& UInt64.ofNat (2 ^ (12 + 9 * above) - 1)),
      pte &&& ~~~(pteAddrMask ||| pteTable))

/-! ### Runs -/

inductive Call where
  | mapPage (vaddr paddr : UInt64) (flags : UInt32)
  | unmapPage (vaddr : UInt64)
  | createAddressSpace
  | mapUserPage (mm : Nat) (vaddr paddr : UInt64) (flags : UInt32)
  | mapUserRange (mm : Nat) (vaddr size : UInt64) (flags : UInt32)

def Call.run (img : Image) (s : Vmm) : Call → Vmm
  | .mapPage vaddr paddr flags => (s.vmmMapPage img vaddr paddr flags).2
  | .unmapPage vaddr => (s.vmmUnmapPage img vaddr).2
  | .createAddressSpace => (s.vmmCreateAddressSpace img).2
  | .mapUserPage mm vaddr paddr flags => (s.vmmMapUserPage img mm vaddr paddr flags).2
  | .mapUserRange mm vaddr size flags => (s.vmmMapUserRange img mm vaddr size flags).2

/-- The allocator hands out whole pages, each once, and none that is a table already. -/
def Fresh (img : Image) (allocated pages : List UInt64) : Prop :=
  pages.Nodup ∧ ∀ page ∈ pages, page ≠ 0 ∧ page &&& pteAddrMask = page ∧ page ∉ allocated ∧
    page ∉ img.kernelPgd :: img.earlyTables

instance (img : Image) (allocated pages : List UInt64) : Decidable (Fresh img allocated pages) :=
  @instDecidableAnd _ _ inferInstance (List.decidableBAll _ pages)

/-- The state before a call to which the allocator will give `pages`. -/
def Vmm.given (s : Vmm) (pages : List UInt64) : Vmm := { s with pages }

inductive Run (img : Image) : Vmm → Vmm → Prop
  | refl (s : Vmm) : Run img s s
  | call {s t : Vmm} (c : Call) (pages : List UInt64) (before : Run img s t)
      (fresh : Fresh img t.allocated pages) : Run img s (c.run img (t.given pages))

/-- The static tables are cleared, the rest of memory is anything. -/
def boot (img : Image) (mem : UInt64 → Nat → UInt64) : Vmm where
  tables := Function.update mem img.kernelPgd fun _ => 0
  earlyTableIndex := 0
  mmIndex := 0
  pgd := fun _ => none
  pages := []
  allocated := []

def booted (img : Image) (mem : UInt64 → Nat → UInt64) : Vmm := ((boot img mem).vmmInit img).2

/-- With the tables that `vmm_init` builds, or without them on x86_64. -/
def Reachable (img : Image) (s : Vmm) : Prop :=
  ∃ mem, Run img (boot img mem) s ∨ Run img (booted img mem) s

end UnixOS.Paging
