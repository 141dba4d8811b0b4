import UnixOS.Lib.Memory

/-! # The kernel heap allocator

A translation of `kernel/mm/kmalloc.c` for the 64-bit targets. Block headers live in the same bytes
as the data they describe, so a stray write would corrupt them here exactly as it would in the
kernel. The heap lock makes every call atomic and is left out; `printk` has no effect on the heap.
-/

namespace UnixOS.Kmalloc

open ByteMemory

def heapSize : Nat := 128 * 1024 * 1024
def minAlloc : Nat := 32
def maxAlloc : Nat := 32 * 1024 * 1024
def blockMagicFree : Nat := 0xDEADBEEF
def blockMagicUsed : Nat := 0xCAFEBABE
def blockFlagFree : Nat := 0x01
def gfpZero : Nat := 0x02

/-- `sizeof(struct block_header)`: four bytes of padding follow `owner`. -/
def headerSize : Nat := 40

inductive HeaderField where
  | size | magic | flags | owner | next | prev
deriving DecidableEq, Repr

def HeaderField.offset : HeaderField → Nat
  | .size => 0
  | .magic => 8
  | .flags => 12
  | .owner => 16
  | .next => 24
  | .prev => 32

def HeaderField.width : HeaderField → Nat
  | .size => 8
  | .magic => 4
  | .flags => 4
  | .owner => 4
  | .next => 8
  | .prev => 8

/-- The static data of the allocator together with the memory it manages. `0` is `NULL`. -/
structure Heap where
  mem : Mem
  heapStart : Nat
  heapEnd : Nat
  freeList : Nat
  heapTotal : Nat
  heapUsed : Nat
  heapInitialized : Bool

def Heap.get (h : Heap) (f : HeaderField) (block : Nat) : Nat :=
  load h.mem f.width (block + f.offset)

def Heap.set (h : Heap) (f : HeaderField) (block v : Nat) : Heap :=
  { h with mem := store h.mem (block + f.offset) f.width v }

def alignUp (val align : Nat) : Nat :=
  (val + align - 1) % 2 ^ 64 &&& (2 ^ 64 - 1 - (align - 1))

def blockData (block : Nat) : Nat := block + headerSize

def dataToBlock (ptr : Nat) : Nat := ptr - headerSize

/-- First half of `kfree_block_locked`: the accounting and the FREE mark. -/
def markFree (h : Heap) (block : Nat) : Heap :=
  let h := { h with heapUsed := (h.heapUsed + 2 ^ 64 - h.get .size block) % 2 ^ 64 }
  let h := h.set .magic block blockMagicFree
  let h := h.set .flags block blockFlagFree
  h.set .owner block 0

def pushFree (h : Heap) (block : Nat) : Heap :=
  let h := h.set .next block h.freeList
  let h := h.set .prev block 0
  let h := if h.freeList ≠ 0 then h.set .prev h.freeList block else h
  { h with freeList := block }

def unlinkFree (h : Heap) (block : Nat) : Heap :=
  let h :=
    if h.get .prev block ≠ 0 then h.set .next (h.get .prev block) (h.get .next block)
    else { h with freeList := h.get .next block }
  if h.get .next block ≠ 0 then h.set .prev (h.get .next block) (h.get .prev block) else h

def mergeNext (h : Heap) (block nextPhysical : Nat) : Heap :=
  let h := h.set .size block ((h.get .size block + h.get .size nextPhysical) % 2 ^ 64)
  let h := h.set .magic nextPhysical 0
  h.set .owner nextPhysical 0

def coalesce (h : Heap) (block : Nat) : Heap :=
  let nextPhysical := block + h.get .size block
  if nextPhysical < h.heapEnd ∧ h.get .magic nextPhysical = blockMagicFree then
    mergeNext (unlinkFree h nextPhysical) block nextPhysical
  else h

def kfreeBlockLocked (h : Heap) (block : Nat) : Heap :=
  coalesce (pushFree (markFree h block) block) block

/-- `base` is the address of the heap region: `HEAP_BASE`, or the static array on x86-64. -/
def kmallocInit (base : Nat) (h : Heap) : Heap :=
  let h := { h with
    heapStart := base, heapEnd := base + heapSize, heapTotal := heapSize, heapUsed := 0,
    freeList := base }
  let h := h.set .size h.freeList heapSize
  let h := h.set .magic h.freeList blockMagicFree
  let h := h.set .flags h.freeList blockFlagFree
  let h := h.set .owner h.freeList 0
  let h := h.set .next h.freeList 0
  let h := h.set .prev h.freeList 0
  { h with heapInitialized := true }

inductive FirstFit where
  | corrupted
  | unfit
  | found (block prevFree : Nat)
  | diverges
deriving DecidableEq, Repr

/-- The first-fit loop of `_kmalloc`. A list longer than the fuel is reported as `diverges`. -/
def firstFit (h : Heap) (totalSize : Nat) : Nat → Nat → Nat → FirstFit
  | 0, _, _ => .diverges
  | fuel + 1, block, prevFree =>
    if block = 0 then .unfit
    else if h.get .magic block ≠ blockMagicFree then .corrupted
    else if totalSize ≤ h.get .size block then .found block prevFree
    else firstFit h totalSize fuel (h.get .next block) block

def splitBlock (h : Heap) (block totalSize : Nat) : Heap :=
  if totalSize + headerSize + minAlloc ≤ h.get .size block then
    let newBlock := block + totalSize
    let h := h.set .size newBlock ((h.get .size block + 2 ^ 64 - totalSize) % 2 ^ 64)
    let h := h.set .magic newBlock blockMagicFree
    let h := h.set .flags newBlock blockFlagFree
    let h := h.set .owner newBlock 0
    let h := h.set .next newBlock (h.get .next block)
    let h := h.set .prev newBlock block
    let h := if h.get .next block ≠ 0 then h.set .prev (h.get .next block) newBlock else h
    let h := h.set .size block totalSize
    h.set .next block newBlock
  else h

def removeFit (h : Heap) (block prevFree : Nat) : Heap :=
  let h :=
    if prevFree ≠ 0 then h.set .next prevFree (h.get .next block)
    else { h with freeList := h.get .next block }
  if h.get .next block ≠ 0 then h.set .prev (h.get .next block) prevFree else h

def markUsed (h : Heap) (block : Nat) : Heap :=
  let h := h.set .magic block blockMagicUsed
  let h := h.set .flags block 0
  let h := h.set .owner block 0
  let h := h.set .next block 0
  { h with heapUsed := (h.heapUsed + h.get .size block) % 2 ^ 64 }

def takeBlock (h : Heap) (block prevFree totalSize : Nat) : Heap :=
  markUsed (removeFit (splitBlock h block totalSize) block prevFree) block

def zeroData (h : Heap) (ptr size : Nat) : Heap :=
  { h with mem := fill h.mem ptr size (fun _ => 0) }

/-- `_kmalloc`. The result is `none` only when the first-fit loop does not end. -/
def kmalloc (base : Nat) (h : Heap) (size flags : Nat) : Option (Heap × Nat) :=
  let h := if h.heapInitialized then h else kmallocInit base h
  if size = 0 ∨ maxAlloc < size then some (h, 0)
  else
    let totalSize := alignUp (size + headerSize) minAlloc
    match firstFit h totalSize heapSize h.freeList 0 with
    | .diverges => none
    | .corrupted => some (h, 0)
    | .unfit => some (h, 0)
    | .found block prevFree =>
      let h := takeBlock h block prevFree totalSize
      let ptr := blockData block
      some (if flags &&& gfpZero ≠ 0 then zeroData h ptr size else h, ptr)

def kzalloc (base : Nat) (h : Heap) (size flags : Nat) : Option (Heap × Nat) :=
  kmalloc base h size (flags ||| gfpZero)

def kfree (h : Heap) (ptr : Nat) : Heap :=
  if ptr = 0 then h
  else if h.get .magic (dataToBlock ptr) ≠ blockMagicUsed then h
  else kfreeBlockLocked h (dataToBlock ptr)

def copyData (h : Heap) (dst src n : Nat) : Heap := { h with mem := copy h.mem dst src n }

/-- `kmalloc_set_owner` ignores its arguments in this allocator, so the call is left out. -/
def krealloc (base : Nat) (h : Heap) (ptr newSize flags : Nat) : Option (Heap × Nat) :=
  if ptr = 0 then kmalloc base h newSize flags
  else if newSize = 0 then some (kfree h ptr, 0)
  else
    let oldSize := (h.get .size (dataToBlock ptr) + 2 ^ 64 - headerSize) % 2 ^ 64
    if newSize ≤ oldSize then some (h, ptr)
    else
      match kmalloc base h newSize flags with
      | none => none
      | some (h, newPtr) =>
        if newPtr = 0 then some (h, 0)
        else some (kfree (copyData h newPtr ptr oldSize) ptr, newPtr)

end UnixOS.Kmalloc
