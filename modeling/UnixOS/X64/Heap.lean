import UnixOS.Lib.Records

/-! # The heap of the x86-64 kernel

A translation of `os-x86_64/kernel/mm/kmalloc.c`. All blocks are on one list, used and free ones, and their headers
lie in the same bytes as the data. Sizes are stored in 32 bits and computed in 64.
-/

namespace UnixOS.X64Heap

open ByteMemory Records

def heapSize : Nat := 64 * 1024 * 1024
def minBlockSize : Nat := 64
def blockMagic : Nat := 0xDEADBEEF

inductive BlockField where
  | magic | size | free | next | prev
deriving DecidableEq, Repr

/-- `sizeof(block_t)`: four bytes of padding follow `free`. -/
def headerSize : Nat := 32

def block : Layout BlockField where
  offset
    | .magic => 0
    | .size => 4
    | .free => 8
    | .next => 16
    | .prev => 24
  width
    | .magic => 4
    | .size => 4
    | .free => 4
    | .next => 8
    | .prev => 8
  size := headerSize
  inside f := by cases f <;> decide
  disjoint f g hfg := by cases f <;> cases g <;> first | exact absurd rfl hfg | decide

/-- The static data of the allocator together with the memory it manages. `0` is `NULL`. -/
structure Heap where
  mem : Mem
  freeList : Nat
  heapInitialized : Bool
  heapUsed : Nat

def Heap.get (h : Heap) (f : BlockField) (a : Nat) : Nat := block.get h.mem f a

def Heap.set (h : Heap) (f : BlockField) (a v : Nat) : Heap := { h with mem := block.set h.mem f a v }

/-- `base` is the address of `heap_memory`. -/
def kmallocInit (base : Nat) (h : Heap) : Heap :=
  if h.heapInitialized then h
  else
    let h := { h with freeList := base }
    let h := h.set .magic h.freeList blockMagic
    let h := h.set .size h.freeList heapSize
    let h := h.set .free h.freeList 1
    let h := h.set .next h.freeList 0
    let h := h.set .prev h.freeList 0
    { h with heapInitialized := true, heapUsed := headerSize }

/-- The loop of `find_free_block`; `0` when no block fits. A list longer than the fuel has no result. -/
def findFreeBlock (h : Heap) (size : Nat) : Nat → Nat → Option Nat
  | 0, _ => none
  | fuel + 1, a =>
    if a = 0 then some 0
    else if h.get .free a ≠ 0 ∧ (size + headerSize) % 2 ^ 64 ≤ h.get .size a then some a
    else findFreeBlock h size fuel (h.get .next a)

def splitBlock (h : Heap) (a size : Nat) : Heap :=
  let totalNeeded := (size + headerSize) % 2 ^ 64
  if (totalNeeded + minBlockSize + headerSize) % 2 ^ 64 ≤ h.get .size a then
    let newBlock := a + totalNeeded
    let h := h.set .magic newBlock blockMagic
    let h := h.set .size newBlock ((h.get .size a + 2 ^ 64 - totalNeeded) % 2 ^ 64)
    let h := h.set .free newBlock 1
    let h := h.set .next newBlock (h.get .next a)
    let h := h.set .prev newBlock a
    let h := if h.get .next a ≠ 0 then h.set .prev (h.get .next a) newBlock else h
    let h := h.set .size a totalNeeded
    h.set .next a newBlock
  else h

/-- First half of `coalesce`: a free block behind is taken in. -/
def mergeNext (h : Heap) (a : Nat) : Heap :=
  if h.get .next a ≠ 0 ∧ h.get .free (h.get .next a) ≠ 0 then
    let h := h.set .size a (h.get .size a + h.get .size (h.get .next a))
    let h := h.set .next a (h.get .next (h.get .next a))
    if h.get .next a ≠ 0 then h.set .prev (h.get .next a) a else h
  else h

/-- Second half of `coalesce`: the block is given to a free one before it. -/
def mergePrev (h : Heap) (a : Nat) : Heap :=
  if h.get .prev a ≠ 0 ∧ h.get .free (h.get .prev a) ≠ 0 then
    let h := h.set .size (h.get .prev a) (h.get .size (h.get .prev a) + h.get .size a)
    let h := h.set .next (h.get .prev a) (h.get .next a)
    if h.get .next a ≠ 0 then h.set .prev (h.get .next a) (h.get .prev a) else h
  else h

def coalesce (h : Heap) (a : Nat) : Heap := mergePrev (mergeNext h a) a

def markUsed (h : Heap) (a : Nat) : Heap :=
  let h := h.set .free a 0
  { h with heapUsed := (h.heapUsed + h.get .size a) % 2 ^ 64 }

def markFree (h : Heap) (a : Nat) : Heap :=
  let h := h.set .free a 1
  { h with heapUsed := (h.heapUsed + 2 ^ 64 - h.get .size a) % 2 ^ 64 }

def alignSize (size : Nat) : Nat := (size + 15) % 2 ^ 64 &&& (2 ^ 64 - 1 - 15)

/-- `kmalloc`. There is no result only when the search does not end. -/
def kmalloc (base : Nat) (h : Heap) (size : Nat) : Option (Heap × Nat) :=
  let h := if h.heapInitialized then h else kmallocInit base h
  if size = 0 then some (h, 0)
  else
    let size := alignSize size
    match findFreeBlock h size heapSize h.freeList with
    | none => none
    | some a =>
      if a = 0 then some (h, 0)
      else some (markUsed (splitBlock h a size) a, a + headerSize)

def zeroData (h : Heap) (ptr n : Nat) : Heap := { h with mem := fill h.mem ptr n (fun _ => 0) }

def copyData (h : Heap) (dst src n : Nat) : Heap := { h with mem := copy h.mem dst src n }

def kzalloc (base : Nat) (h : Heap) (size : Nat) : Option (Heap × Nat) :=
  (kmalloc base h size).map fun r => if r.2 ≠ 0 then (zeroData r.1 r.2 size, r.2) else r

def kfree (h : Heap) (ptr : Nat) : Heap :=
  if ptr = 0 then h
  else if h.get .magic (ptr - headerSize) ≠ blockMagic then h
  else coalesce (markFree h (ptr - headerSize)) (ptr - headerSize)

def krealloc (base : Nat) (h : Heap) (ptr newSize : Nat) : Option (Heap × Nat) :=
  if ptr = 0 then kmalloc base h newSize
  else if newSize = 0 then some (kfree h ptr, 0)
  else
    let oldSize := (h.get .size (ptr - headerSize) + 2 ^ 64 - headerSize) % 2 ^ 64
    if newSize ≤ oldSize then some (h, ptr)
    else
      match kmalloc base h newSize with
      | none => none
      | some (h, newPtr) =>
        if newPtr ≠ 0 then some (kfree (copyData h newPtr ptr oldSize) ptr, newPtr)
        else some (h, newPtr)

end UnixOS.X64Heap
