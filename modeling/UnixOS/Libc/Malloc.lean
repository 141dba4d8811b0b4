import Mathlib.Data.List.Pairwise
import UnixOS.Lib.BitFields
import UnixOS.Lib.Memory

/-! # The heap of the C library

`malloc`, `calloc`, `realloc` and `free` of `libc/src/stdlib.c`. A pointer is its offset in `heap`, and 0 is
`NULL`: no block begins at the start of the array, where the first header lies. Nothing is ever used again,
so the blocks lie in the order of the requests, up to `heap_used`.
-/

namespace UnixOS.Malloc

open ByteMemory

def heapSize : Nat := 16 * 1024 * 1024

/-- `sizeof(struct malloc_header)`: the size in 8 bytes, the mark in 4, and 4 bytes of padding. -/
def headerSize : Nat := 16

def align (x : UInt64) : UInt64 := (x + 15) &&& ~~~15

structure Heap where
  mem : Mem
  heapUsed : UInt64

def total (size : UInt64) : UInt64 := align (16 + size)

def Heap.Grants (h : Heap) (size : UInt64) : Prop := size ≠ 0 ∧ (h.heapUsed + total size).toNat ≤ heapSize

instance (h : Heap) (size : UInt64) : Decidable (h.Grants size) := inferInstanceAs (Decidable (_ ∧ _))

def Heap.size (h : Heap) (ptr : Nat) : Nat := load h.mem 8 (ptr - headerSize)

def malloc (h : Heap) (size : UInt64) : Heap × Nat :=
  if size = 0 then (h, 0)
  else if heapSize < (h.heapUsed + total size).toNat then (h, 0)
  else
    let hdr := h.heapUsed.toNat
    let mem := store h.mem hdr 8 size.toNat
    let mem := store mem (hdr + 8) 4 1
    (⟨mem, h.heapUsed + total size⟩, hdr + headerSize)

def calloc (h : Heap) (nmemb size : UInt64) : Heap × Nat :=
  let r := malloc h (nmemb * size)
  if r.2 ≠ 0 then ({ r.1 with mem := fill r.1.mem r.2 (nmemb * size).toNat fun _ => 0 }, r.2) else r

def free (h : Heap) (ptr : Nat) : Heap :=
  if ptr = 0 then h else { h with mem := store h.mem (ptr - headerSize + 8) 4 0 }

def realloc (h : Heap) (ptr : Nat) (size : UInt64) : Heap × Nat :=
  if ptr = 0 then malloc h size
  else if size = 0 then (free h ptr, 0)
  else if size.toNat ≤ h.size ptr then (h, ptr)
  else
    let r := malloc h size
    if r.2 ≠ 0 then (free { r.1 with mem := copy r.1.mem r.2 ptr (r.1.size ptr) } ptr, r.2) else r

/-! ### Runs -/

/-- The heap, and the blocks that were returned and not freed, each with the number of bytes asked for. -/
structure Client where
  heap : Heap
  live : List (Nat × Nat)

inductive Call where
  | malloc (size : UInt64)
  | calloc (nmemb size : UInt64)
  | realloc (ptr : Nat) (size : UInt64)
  | free (ptr : Nat)
  | write (addr : Nat) (value : UInt8)
deriving DecidableEq

def hold (live : List (Nat × Nat)) (ptr n : Nat) : List (Nat × Nat) :=
  if ptr = 0 then live else (ptr, n) :: live

def release (live : List (Nat × Nat)) (ptr : Nat) : List (Nat × Nat) := live.filter fun x => x.1 ≠ ptr

def resize (live : List (Nat × Nat)) (ptr newPtr n : Nat) : List (Nat × Nat) :=
  if n = 0 ∨ newPtr ≠ 0 then hold (release live ptr) newPtr n else live

def Client.exec (c : Client) : Call → Client × Nat
  | .malloc size =>
    let r := Malloc.malloc c.heap size
    (⟨r.1, hold c.live r.2 size.toNat⟩, r.2)
  | .calloc nmemb size =>
    let r := Malloc.calloc c.heap nmemb size
    (⟨r.1, hold c.live r.2 (nmemb.toNat * size.toNat)⟩, r.2)
  | .realloc ptr size =>
    let r := Malloc.realloc c.heap ptr size
    (⟨r.1, resize c.live ptr r.2 size.toNat⟩, r.2)
  | .free ptr => (⟨Malloc.free c.heap ptr, release c.live ptr⟩, 0)
  | .write addr value => (⟨{ c.heap with mem := fill c.heap.mem addr 1 fun _ => value }, c.live⟩, 0)

def Client.Held (c : Client) (ptr : Nat) : Prop := ptr = 0 ∨ ∃ x ∈ c.live, x.1 = ptr

/-- Callers pass on only what they hold, and write only inside what they asked for. -/
def Call.Allowed (c : Client) : Call → Prop
  | .malloc _ => True
  | .calloc _ _ => True
  | .realloc ptr _ => c.Held ptr
  | .free ptr => c.Held ptr
  | .write addr _ => ∃ x ∈ c.live, x.1 ≤ addr ∧ addr < x.1 + x.2

structure Client.Placed (c : Client) : Prop where
  inside : ∀ x ∈ c.live, x.1 + x.2 ≤ heapSize
  apart : c.live.Pairwise fun x y => x.1 + x.2 ≤ y.1 ∨ y.1 + y.2 ≤ x.1

/-- What a result other than `NULL` begins with. -/
def Call.Begins (c : Client) (mem : Mem) (ptr : Nat) : Call → Prop
  | .calloc nmemb size => ∀ i < nmemb.toNat * size.toNat, mem (ptr + i) = 0
  | .realloc old size => ∀ x ∈ c.live, x.1 = old → ∀ i < min x.2 size.toNat, mem (ptr + i) = c.heap.mem (old + i)
  | _ => True

structure Call.Sound (c : Client) (call : Call) : Prop where
  placed : (c.exec call).1.Placed
  begins : (c.exec call).2 ≠ 0 → call.Begins c (c.exec call).1.heap.mem (c.exec call).2
  grows : c.heap.heapUsed.toNat ≤ (c.exec call).1.heap.heapUsed.toNat
  bounded : (c.exec call).1.heap.heapUsed.toNat ≤ heapSize

def taken (n : Nat) : Nat := (headerSize + n + 15) / 16 * 16

def Heap.Fits (h : Heap) (n : Nat) : Prop := h.Grants (UInt64.ofNat n) → h.heapUsed.toNat + taken n < 2 ^ 64

def Call.Fits (c : Client) : Call → Prop
  | .malloc size => c.heap.Fits size.toNat
  | .calloc nmemb size => c.heap.Fits (nmemb.toNat * size.toNat)
  | .realloc ptr size => ptr = 0 ∨ (size ≠ 0 ∧ c.heap.size ptr < size.toNat) → c.heap.Fits size.toNat
  | .free _ => True
  | .write _ _ => True

def Along (P : Client → Call → Prop) : Client → List Call → Prop
  | _, [] => True
  | c, call :: calls => P c call ∧ Along P (c.exec call).1 calls

def boot (mem : Mem) : Client := ⟨⟨mem, 0⟩, []⟩

/-! ### Requests -/

variable {h : Heap} {c : Client} {size : UInt64} {n ptr : Nat}

theorem malloc_refused (hNot : ¬ h.Grants size) : malloc h size = (h, 0) := by
  rw [malloc]
  split
  · rfl
  · rename_i hSize
    rw [if_pos]
    exact Nat.lt_of_not_le fun hLe => hNot ⟨hSize, hLe⟩

def granted (h : Heap) (size : UInt64) : Heap :=
  ⟨store (store h.mem h.heapUsed.toNat 8 size.toNat) (h.heapUsed.toNat + 8) 4 1, h.heapUsed + total size⟩

theorem malloc_granted (hGrants : h.Grants size) :
    malloc h size = (granted h size, h.heapUsed.toNat + headerSize) := by
  rw [malloc, if_neg hGrants.1, if_neg (Nat.not_lt.mpr hGrants.2)]
  rfl

theorem total_toNat (hSmall : taken size.toNat < 2 ^ 64) : (total size).toNat = taken size.toNat := by
  have hMask : (~~~15 : UInt64).toNat = (2 ^ (64 - 4) - 1) * 2 ^ 4 := by decide
  have hSum : (16 + size + 15 : UInt64).toNat = headerSize + size.toNat + 15 := by
    rw [UInt64.toNat_add, UInt64.toNat_add, show (16 : UInt64).toNat = 16 from rfl,
      show (15 : UInt64).toNat = 15 from rfl, headerSize]
    rw [taken, headerSize] at hSmall
    omega
  rw [total, align, BitFields.toNat_and_not_low _ (by decide) hMask, hSum]
  rfl

theorem le_taken (n : Nat) : headerSize + n ≤ taken n := by
  rw [taken]
  omega

def Heap.Apart (h : Heap) (x y : Nat × Nat) : Prop :=
  x.1 + h.size x.1 + headerSize ≤ y.1 ∨ y.1 + h.size y.1 + headerSize ≤ x.1

instance (h : Heap) : Std.Symm h.Apart := ⟨fun _ _ hApart => Or.symm hApart⟩

/-- The invariant behind the blocks: each lies with its header below `heap_used`, and is as long as the header
says. -/
structure Client.Inv (c : Client) : Prop where
  used_le : c.heap.heapUsed.toNat ≤ heapSize
  block : ∀ x ∈ c.live, headerSize ≤ x.1 ∧ x.2 ≤ c.heap.size x.1 ∧
    x.1 + c.heap.size x.1 ≤ c.heap.heapUsed.toNat
  apart : c.live.Pairwise c.heap.Apart

theorem Client.Inv.placed (h : c.Inv) : c.Placed := by
  constructor
  · intro x hx
    obtain ⟨-, hSize, hEnd⟩ := h.block x hx
    have hUsed := h.used_le
    omega
  · refine h.apart.imp_of_mem fun {x y} hx hy hApart => ?_
    obtain ⟨-, hxSize, -⟩ := h.block x hx
    obtain ⟨-, hySize, -⟩ := h.block y hy
    rw [Heap.Apart] at hApart
    omega

theorem Client.Inv.keep (hInv : c.Inv) {h' : Heap} {live : List (Nat × Nat)} (hSub : live.Sublist c.live)
    (hUsed : c.heap.heapUsed.toNat ≤ h'.heapUsed.toNat) (hLe : h'.heapUsed.toNat ≤ heapSize)
    (hSize : ∀ x ∈ live, h'.size x.1 = c.heap.size x.1) : Client.Inv ⟨h', live⟩ := by
  constructor
  · exact hLe
  · intro x hx
    obtain ⟨hLow, hFits, hEnd⟩ := hInv.block x (hSub.subset hx)
    change _ ∧ x.2 ≤ h'.size x.1 ∧ x.1 + h'.size x.1 ≤ h'.heapUsed.toNat
    rw [hSize x hx]
    exact ⟨hLow, hFits, hEnd.trans hUsed⟩
  · refine (hInv.apart.sublist hSub).imp_of_mem fun {x y} hx hy hApart => ?_
    rw [Heap.Apart, hSize x hx, hSize y hy]
    exact hApart

theorem Client.Inv.write (hInv : c.Inv) {x : Nat × Nat} (hx : x ∈ c.live) (mem : Mem)
    (hSame : ∀ a, a < x.1 ∨ x.1 + c.heap.size x.1 ≤ a → mem a = c.heap.mem a) :
    Client.Inv ⟨{ c.heap with mem }, c.live⟩ := by
  refine hInv.keep (List.Sublist.refl _) (Nat.le_refl _) hInv.used_le fun y hy => load_congr fun a hLow hHigh => ?_
  have hyLow := (hInv.block y hy).1
  apply hSame
  rw [headerSize] at hyLow hLow hHigh
  by_cases hEq : y = x
  · subst hEq
    left
    omega
  · rcases hInv.apart.forall hx hy (Ne.symm hEq) with hApart | hApart
    · right
      rw [headerSize] at hApart
      omega
    · left
      rw [headerSize] at hApart
      omega

theorem Client.Inv.free (hInv : c.Inv) (hHeld : c.Held ptr) : Client.Inv ⟨Malloc.free c.heap ptr, release c.live ptr⟩ := by
  rw [Malloc.free]
  split
  · rename_i hNull
    exact hInv.keep List.filter_sublist (Nat.le_refl _) hInv.used_le fun _ _ => rfl
  · rename_i hPtr
    obtain ⟨x, hx, rfl⟩ := hHeld.resolve_left hPtr
    refine hInv.keep List.filter_sublist (Nat.le_refl _) hInv.used_le fun y hy => load_congr fun a hLow hHigh => ?_
    obtain ⟨hy, hOther⟩ := List.mem_filter.mp hy
    have hNe : x ≠ y := by
      rintro rfl
      simp at hOther
    have hxLow := (hInv.block x hx).1
    have hyLow := (hInv.block y hy).1
    have hApart := hInv.apart.forall hx hy hNe
    rw [Heap.Apart] at hApart
    rw [headerSize] at hxLow hyLow hLow hHigh
    change store c.heap.mem (x.1 - headerSize + 8) 4 0 a = c.heap.mem a
    rw [store_eq_fill, fill_outside]
    rw [headerSize] at hApart ⊢
    omega

theorem granted_used (hFits : h.heapUsed.toNat + taken size.toNat < 2 ^ 64) :
    (granted h size).heapUsed.toNat = h.heapUsed.toNat + taken size.toNat := by
  have hTotal := total_toNat (show taken size.toNat < 2 ^ 64 by omega)
  change (h.heapUsed + total size).toNat = _
  rw [UInt64.toNat_add, hTotal, Nat.mod_eq_of_lt hFits]

theorem granted_below {a : Nat} (hBelow : a < h.heapUsed.toNat) : (granted h size).mem a = h.mem a := by
  change store (store h.mem h.heapUsed.toNat 8 size.toNat) (h.heapUsed.toNat + 8) 4 1 a = h.mem a
  rw [store_eq_fill, fill_outside (by omega), store_eq_fill, fill_outside (by omega)]

theorem granted_size : (granted h size).size (h.heapUsed.toNat + headerSize) = size.toNat := by
  rw [Heap.size, Nat.add_sub_cancel]
  change load (store (store h.mem h.heapUsed.toNat 8 size.toNat) (h.heapUsed.toNat + 8) 4 1) 8 _ = _
  rw [load_store_disjoint (by omega), load_store_same_of_lt]
  exact size.toNat_lt

theorem Client.Inv.request (hInv : c.Inv) (hGrants : c.heap.Grants size)
    (hFits : c.heap.heapUsed.toNat + taken size.toNat < 2 ^ 64) (hn : n ≤ size.toNat) :
    Client.Inv ⟨granted c.heap size, (c.heap.heapUsed.toNat + headerSize, n) :: c.live⟩ := by
  have hUsed := granted_used hFits
  have hTaken := le_taken size.toNat
  have hLe : (granted c.heap size).heapUsed.toNat ≤ heapSize := hGrants.2
  have hKeep : ∀ x ∈ c.live, (granted c.heap size).size x.1 = c.heap.size x.1 := by
    intro x hx
    refine load_congr fun a hLow hHigh => granted_below ?_
    obtain ⟨hxLow, -, hEnd⟩ := hInv.block x hx
    rw [headerSize] at hxLow hLow hHigh
    omega
  obtain ⟨-, hBlock, hApart⟩ := hInv.keep (List.Sublist.refl _) (by omega) hLe hKeep
  constructor
  · exact hLe
  · intro x hx
    rcases List.mem_cons.mp hx with rfl | hx
    · change _ ∧ n ≤ (granted c.heap size).size _ ∧ _
      rw [granted_size]
      exact ⟨Nat.le_add_left _ _, hn, by rw [hUsed]; omega⟩
    · exact hBlock x hx
  · refine List.pairwise_cons.mpr ⟨fun x hx => ?_, hApart⟩
    right
    change x.1 + (granted c.heap size).size x.1 + headerSize ≤ c.heap.heapUsed.toNat + headerSize
    rw [hKeep x hx]
    have hEnd := (hInv.block x hx).2.2
    omega

/-! ### One call -/

theorem ofNat_mul (nmemb size : UInt64) : UInt64.ofNat (nmemb.toNat * size.toNat) = nmemb * size := by
  rw [← UInt64.toNat_inj, UInt64.toNat_ofNat', UInt64.toNat_mul]

theorem Call.sound_of_refused (hInv : c.Inv) {call : Call} (hExec : c.exec call = (c, 0)) :
    call.Sound c ∧ (c.exec call).1.Inv := by
  refine ⟨⟨?_, ?_, ?_, ?_⟩, ?_⟩
  · rw [hExec]
    exact hInv.placed
  · rw [hExec]
    exact fun hNull => absurd rfl hNull
  · rw [hExec]
  · rw [hExec]
    exact hInv.used_le
  · rw [hExec]
    exact hInv

theorem Call.sound_of_inv {call : Call} (hInv : (c.exec call).1.Inv)
    (hGrows : c.heap.heapUsed.toNat ≤ (c.exec call).1.heap.heapUsed.toNat)
    (hBegins : (c.exec call).2 ≠ 0 → call.Begins c (c.exec call).1.heap.mem (c.exec call).2) :
    call.Sound c ∧ (c.exec call).1.Inv :=
  ⟨⟨hInv.placed, hBegins, hGrows, hInv.used_le⟩, hInv⟩

theorem Client.Inv.malloc_sound (hInv : c.Inv) (hFits : c.heap.Fits size.toNat) :
    (Call.malloc size).Sound c ∧ (c.exec (.malloc size)).1.Inv := by
  rw [Heap.Fits, UInt64.ofNat_toNat] at hFits
  by_cases hGrants : c.heap.Grants size
  · have hExec : c.exec (.malloc size) = (⟨granted c.heap size, (c.heap.heapUsed.toNat + headerSize, size.toNat) ::
        c.live⟩, c.heap.heapUsed.toNat + headerSize) := by
      simp [Client.exec, malloc_granted hGrants, hold, headerSize]
    have hNew := hInv.request hGrants (hFits hGrants) (Nat.le_refl _)
    have hUsed := granted_used (hFits hGrants)
    apply Call.sound_of_inv
    · rw [hExec]
      exact hNew
    · rw [hExec]
      change _ ≤ (granted c.heap size).heapUsed.toNat
      omega
    · exact fun _ => trivial
  · apply Call.sound_of_refused hInv
    simp [Client.exec, malloc_refused hGrants, hold]

theorem Client.Inv.calloc_sound (hInv : c.Inv) {nmemb : UInt64} (hFits : c.heap.Fits (nmemb.toNat * size.toNat)) :
    (Call.calloc nmemb size).Sound c ∧ (c.exec (.calloc nmemb size)).1.Inv := by
  rw [Heap.Fits, ofNat_mul] at hFits
  by_cases hGrants : c.heap.Grants (nmemb * size)
  · have hRange := hFits hGrants
    have hTaken := le_taken (nmemb.toNat * size.toNat)
    have hProduct : (nmemb * size).toNat = nmemb.toNat * size.toNat := by
      rw [UInt64.toNat_mul, Nat.mod_eq_of_lt (by omega)]
    rw [← hProduct] at hRange
    have hNew := hInv.request hGrants hRange (Nat.le_of_eq hProduct.symm)
    have hUsed := granted_used hRange
    have hExec : c.exec (.calloc nmemb size) = (⟨{ granted c.heap (nmemb * size) with
        mem := fill (granted c.heap (nmemb * size)).mem (c.heap.heapUsed.toNat + headerSize) (nmemb * size).toNat
          fun _ => 0 }, (c.heap.heapUsed.toNat + headerSize, nmemb.toNat * size.toNat) :: c.live⟩,
        c.heap.heapUsed.toNat + headerSize) := by
      simp [Client.exec, calloc, malloc_granted hGrants, hold, headerSize]
    have hOutside : ∀ a, a < c.heap.heapUsed.toNat + headerSize ∨ c.heap.heapUsed.toNat + headerSize +
        (granted c.heap (nmemb * size)).size (c.heap.heapUsed.toNat + headerSize) ≤ a →
        fill (granted c.heap (nmemb * size)).mem (c.heap.heapUsed.toNat + headerSize) (nmemb * size).toNat
          (fun _ => 0) a = (granted c.heap (nmemb * size)).mem a := by
      intro a ha
      rw [granted_size] at ha
      exact fill_outside ha
    have hZeroed := hNew.write List.mem_cons_self _ hOutside
    apply Call.sound_of_inv
    · rw [hExec]
      exact hZeroed
    · rw [hExec]
      change _ ≤ (granted c.heap (nmemb * size)).heapUsed.toNat
      omega
    · intro _ i hi
      rw [← hProduct] at hi
      rw [hExec]
      change fill _ (c.heap.heapUsed.toNat + headerSize) (nmemb * size).toNat (fun _ => 0) (_ + i) = 0
      exact fill_inside hi
  · apply Call.sound_of_refused hInv
    simp [Client.exec, calloc, malloc_refused hGrants, hold]

/-- The heap before a `realloc` that moves gives the old block back. -/
def moved (h : Heap) (size : UInt64) (old : Nat) : Heap :=
  { granted h size with mem := copy (granted h size).mem (h.heapUsed.toNat + headerSize) old (h.size old) }

theorem Client.Inv.move (hInv : c.Inv) {x : Nat × Nat} (hGrants : c.heap.Grants size)
    (hFits : c.heap.heapUsed.toNat + taken size.toNat < 2 ^ 64) (hMore : c.heap.size x.1 < size.toNat) :
    Client.Inv ⟨moved c.heap size x.1, (c.heap.heapUsed.toNat + headerSize, size.toNat) :: c.live⟩ := by
  have hNew := hInv.request hGrants hFits (Nat.le_refl _)
  have hOutside : ∀ a, a < c.heap.heapUsed.toNat + headerSize ∨ c.heap.heapUsed.toNat + headerSize +
      (granted c.heap size).size (c.heap.heapUsed.toNat + headerSize) ≤ a →
      copy (granted c.heap size).mem (c.heap.heapUsed.toNat + headerSize) x.1 (c.heap.size x.1) a =
        (granted c.heap size).mem a := by
    intro a ha
    rw [granted_size] at ha
    exact copy_outside (by omega)
  rw [moved]
  exact hNew.write List.mem_cons_self _ hOutside

theorem Client.Inv.granted_size_old (hInv : c.Inv) {x : Nat × Nat} (hx : x ∈ c.live) :
    (granted c.heap size).size x.1 = c.heap.size x.1 := by
  refine load_congr fun a hLow hHigh => granted_below ?_
  obtain ⟨hxLow, -, hEnd⟩ := hInv.block x hx
  rw [headerSize] at hxLow hLow hHigh
  omega

theorem Client.Inv.shorten (hInv : c.Inv) {x : Nat × Nat} (hx : x ∈ c.live) (hn : n ≤ c.heap.size x.1) :
    Client.Inv ⟨c.heap, (x.1, n) :: release c.live x.1⟩ := by
  have hKept : Client.Inv ⟨c.heap, release c.live x.1⟩ :=
    hInv.keep List.filter_sublist (Nat.le_refl _) hInv.used_le fun _ _ => rfl
  obtain ⟨-, hBlock, hApart⟩ := hKept
  obtain ⟨hLow, -, hEnd⟩ := hInv.block x hx
  constructor
  · exact hInv.used_le
  · intro y hy
    rcases List.mem_cons.mp hy with rfl | hy
    · exact ⟨hLow, hn, hEnd⟩
    · exact hBlock y hy
  · refine List.pairwise_cons.mpr ⟨fun y hy => ?_, hApart⟩
    obtain ⟨hy, hOther⟩ := List.mem_filter.mp hy
    have hNe : x ≠ y := by
      rintro rfl
      simp at hOther
    exact hInv.apart.forall hx hy hNe

theorem Client.Inv.realloc_sound (hInv : c.Inv) (hHeld : c.Held ptr) (hPtr : ptr ≠ 0)
    (hFits : size ≠ 0 ∧ c.heap.size ptr < size.toNat → c.heap.Fits size.toNat) :
    (Call.realloc ptr size).Sound c ∧ (c.exec (.realloc ptr size)).1.Inv := by
  obtain ⟨x, hx, rfl⟩ := hHeld.resolve_left hPtr
  obtain ⟨hxLow, hxSize, hxEnd⟩ := hInv.block x hx
  by_cases hZero : size = 0
  · -- the block is given back
    have hExec : c.exec (.realloc x.1 size) = (⟨Malloc.free c.heap x.1, release c.live x.1⟩, 0) := by
      simp [Client.exec, realloc, hPtr, hZero, resize, hold]
    have hFree := hInv.free (.inr ⟨x, hx, rfl⟩)
    apply Call.sound_of_inv
    · rw [hExec]
      exact hFree
    · rw [hExec, Malloc.free, if_neg hPtr]
    · rw [hExec]
      exact fun hNull => absurd rfl hNull
  have hPos : size.toNat ≠ 0 := fun hNat => hZero (UInt64.toNat_inj.mp hNat)
  by_cases hLess : size.toNat ≤ c.heap.size x.1
  · -- the block is long enough
    have hExec : c.exec (.realloc x.1 size) = (⟨c.heap, (x.1, size.toNat) :: release c.live x.1⟩, x.1) := by
      simp [Client.exec, realloc, hPtr, hZero, hLess, resize, hold]
    apply Call.sound_of_inv
    · rw [hExec]
      exact hInv.shorten hx hLess
    · rw [hExec]
    · intro _ y hy hEq i hi
      rw [hExec]
  have hRequest := hFits ⟨hZero, Nat.lt_of_not_le hLess⟩
  rw [Heap.Fits, UInt64.ofNat_toNat] at hRequest
  by_cases hGrants : c.heap.Grants size
  · -- the block is copied
    have hRange := hRequest hGrants
    have hMoved := hInv.move (x := x) hGrants hRange (Nat.lt_of_not_le hLess)
    have hNe : c.heap.heapUsed.toNat + headerSize ≠ x.1 := by
      rw [headerSize]
      omega
    have hExec : c.exec (.realloc x.1 size) = (⟨Malloc.free (moved c.heap size x.1) x.1,
        release ((c.heap.heapUsed.toNat + headerSize, size.toNat) :: c.live) x.1⟩,
        c.heap.heapUsed.toNat + headerSize) := by
      have hRelease : release ((c.heap.heapUsed.toNat + headerSize, size.toNat) :: c.live) x.1 =
          (c.heap.heapUsed.toNat + headerSize, size.toNat) :: release c.live x.1 := by
        simp [release, hNe]
      have hNull : c.heap.heapUsed.toNat + headerSize ≠ 0 := by simp [headerSize]
      simp only [Client.exec, realloc, if_neg hPtr, if_neg hZero, if_neg hLess, malloc_granted hGrants,
        if_pos hNull, hInv.granted_size_old hx, resize, hold, if_neg hNull, if_pos (Or.inr hNull), hRelease]
      rfl
    have hUsed := granted_used hRange
    apply Call.sound_of_inv
    · rw [hExec]
      exact hMoved.free (.inr ⟨x, List.mem_cons_of_mem _ hx, rfl⟩)
    · rw [hExec, Malloc.free, if_neg hPtr]
      change _ ≤ (granted c.heap size).heapUsed.toNat
      omega
    · intro _ y hy hEq i hi
      have hi' : i < c.heap.size x.1 := by
        have hySize := (hInv.block y hy).2.1
        rw [hEq] at hySize
        omega
      have hMem : (Malloc.free (moved c.heap size x.1) x.1).mem =
          store (moved c.heap size x.1).mem (x.1 - headerSize + 8) 4 0 := by rw [Malloc.free, if_neg hPtr]
      have hCopied : (moved c.heap size x.1).mem (c.heap.heapUsed.toNat + headerSize + i) =
          (granted c.heap size).mem (x.1 + i) := by
        rw [moved]
        dsimp only
        rw [copy_apart (by omega) hi']
      rw [hExec]
      dsimp only
      rw [hMem, store_eq_fill, fill_outside (by rw [headerSize] at *; omega), hCopied,
        granted_below (by omega)]
  · apply Call.sound_of_refused hInv
    simp [Client.exec, realloc, hPtr, hZero, hLess, malloc_refused hGrants, resize, hPos]

theorem Client.Inv.exec_realloc_null (hInv : c.Inv) (size : UInt64) :
    c.exec (.realloc 0 size) = c.exec (.malloc size) := by
  have hRelease : release c.live 0 = c.live := by
    refine List.filter_eq_self.mpr fun x hx => ?_
    have hLow := (hInv.block x hx).1
    rw [headerSize] at hLow
    exact decide_eq_true (by omega)
  simp only [Client.exec, realloc, if_true, resize, hRelease, hold]
  split
  · rfl
  · rename_i hNull
    have hZero : (malloc c.heap size).2 = 0 := by
      by_contra hPtr
      exact hNull (.inr hPtr)
    rw [if_pos hZero]

theorem Client.Inv.write_sound (hInv : c.Inv) {addr : Nat} {value : UInt8}
    (hAllowed : (Call.write addr value).Allowed c) :
    (Call.write addr value).Sound c ∧ (c.exec (.write addr value)).1.Inv := by
  obtain ⟨x, hx, hLow, hHigh⟩ := hAllowed
  have hSize := (hInv.block x hx).2.1
  have hNew := hInv.write hx (fill c.heap.mem addr 1 fun _ => value) fun a ha => fill_outside (by omega)
  exact Call.sound_of_inv hNew (Nat.le_refl _) fun hNull => absurd rfl hNull

theorem Client.Inv.free_sound (hInv : c.Inv) (hHeld : c.Held ptr) :
    (Call.free ptr).Sound c ∧ (c.exec (.free ptr)).1.Inv := by
  refine Call.sound_of_inv (hInv.free hHeld) ?_ fun hNull => absurd rfl hNull
  change c.heap.heapUsed.toNat ≤ (Malloc.free c.heap ptr).heapUsed.toNat
  rw [Malloc.free]
  split <;> exact Nat.le_refl _

theorem Call.sound_of_fits (hInv : c.Inv) {call : Call} (hAllowed : call.Allowed c) (hFits : call.Fits c) :
    call.Sound c ∧ (c.exec call).1.Inv := by
  cases call with
  | malloc size => exact hInv.malloc_sound hFits
  | calloc nmemb size => exact hInv.calloc_sound hFits
  | realloc ptr size =>
    by_cases hPtr : ptr = 0
    · subst hPtr
      obtain ⟨hSound, hInv'⟩ := hInv.malloc_sound (hFits (.inl rfl))
      rw [← hInv.exec_realloc_null] at hInv'
      refine Call.sound_of_inv hInv' ?_ fun _ x hx hNull => ?_
      · rw [hInv.exec_realloc_null]
        exact hSound.grows
      · have hLow := (hInv.block x hx).1
        rw [headerSize] at hLow
        omega
    · exact hInv.realloc_sound hAllowed hPtr fun hMore => hFits (.inr hMore)
  | free ptr => exact hInv.free_sound hAllowed
  | write addr value => exact hInv.write_sound hAllowed

/-! ### Requests that wrap around -/

theorem Call.fits_of_held {call : Call} (hSound : call.Sound c)
    (hHeld : c.heap.Grants (UInt64.ofNat n) → ∃ live, (c.exec call).1.live =
      (c.heap.heapUsed.toNat + headerSize, n) :: live) : c.heap.Fits n := by
  intro hGrants
  obtain ⟨live, hLive⟩ := hHeld hGrants
  have hInside := hSound.placed.inside (c.heap.heapUsed.toNat + headerSize, n) (by simp [hLive])
  rw [taken]
  rw [heapSize] at hInside
  dsimp only at hInside
  omega

theorem Call.fits_of_sound (hInv : c.Inv) {call : Call} (hAllowed : call.Allowed c) (hSound : call.Sound c) :
    call.Fits c := by
  have hMalloc : ∀ size, c.heap.Grants (UInt64.ofNat size.toNat) → ∃ live, (c.exec (.malloc size)).1.live =
      (c.heap.heapUsed.toNat + headerSize, size.toNat) :: live := by
    intro size hGrants
    rw [UInt64.ofNat_toNat] at hGrants
    exact ⟨c.live, by simp [Client.exec, malloc_granted hGrants, hold, headerSize]⟩
  cases call with
  | malloc size => exact Call.fits_of_held hSound (hMalloc size)
  | calloc nmemb size =>
    refine Call.fits_of_held hSound fun hGrants => ⟨c.live, ?_⟩
    rw [ofNat_mul] at hGrants
    simp [Client.exec, Malloc.calloc, malloc_granted hGrants, hold, headerSize]
  | realloc ptr size =>
    intro hCase
    by_cases hPtr : ptr = 0
    · subst hPtr
      refine Call.fits_of_held hSound fun hGrants => ?_
      rw [hInv.exec_realloc_null]
      exact hMalloc size hGrants
    · obtain ⟨hZero, hMore⟩ := hCase.resolve_left hPtr
      refine Call.fits_of_held hSound fun hGrants => ⟨release c.live ptr, ?_⟩
      rw [UInt64.ofNat_toNat] at hGrants
      simp [Client.exec, Malloc.realloc, hPtr, hZero, Nat.not_le.mpr hMore, malloc_granted hGrants, resize, hold,
        headerSize]
  | free ptr => exact trivial
  | write addr value => exact trivial

theorem boot_inv (mem : Mem) : (boot mem).Inv := by
  constructor
  · exact Nat.zero_le _
  · intro x hx
    cases hx
  · exact List.Pairwise.nil

theorem along_sound_iff (hInv : c.Inv) {calls : List Call} (hAllowed : Along (fun c call => call.Allowed c) c calls) :
    Along (fun c call => call.Sound c) c calls ↔ Along (fun c call => call.Fits c) c calls := by
  induction calls generalizing c with
  | nil => exact Iff.rfl
  | cons call calls ih =>
    obtain ⟨hCall, hRest⟩ := hAllowed
    constructor
    · rintro ⟨hSound, hSounds⟩
      have hFits := Call.fits_of_sound hInv hCall hSound
      exact ⟨hFits, (ih (Call.sound_of_fits hInv hCall hFits).2 hRest).mp hSounds⟩
    · rintro ⟨hFits, hAll⟩
      obtain ⟨hSound, hInv'⟩ := Call.sound_of_fits hInv hCall hFits
      exact ⟨hSound, (ih hInv' hRest).mpr hAll⟩

/-- The calls of a run do what they should exactly if no request wraps around and is granted. -/
theorem heap_safe_iff (mem : Mem) (calls : List Call)
    (hAllowed : Along (fun c call => call.Allowed c) (boot mem) calls) :
    Along (fun c call => call.Sound c) (boot mem) calls ↔ Along (fun c call => call.Fits c) (boot mem) calls :=
  along_sound_iff (boot_inv mem) hAllowed

def sampleRun : List Call := [.malloc 1, .calloc 2 3, .realloc 16 40, .free 48]

theorem heap_safe_iff_sample_run : Along (fun c call => call.Sound c) (boot fun _ => 0) sampleRun := by
  have hAllowed : Along (fun c call => call.Allowed c) (boot fun _ => 0) sampleRun := by
    refine ⟨trivial, trivial, .inr ⟨(16, 1), ?_, rfl⟩, .inr ⟨(48, 6), ?_, rfl⟩, trivial⟩
    · decide +kernel
    · decide +kernel
  refine (heap_safe_iff (fun _ => 0) sampleRun hAllowed).mpr ⟨?_, ?_, ?_, trivial, trivial⟩
  · exact fun _ => by decide +kernel
  · exact fun _ => by decide +kernel
  · exact fun _ _ => by decide +kernel

/-- The request and the header wrap around to 0 bytes, so the request is granted and its block ends past the heap. -/
theorem malloc_wraps : ¬ Along (fun c call => call.Sound c) (boot fun _ => 0) [.malloc (0 - 16)] := by
  rintro ⟨hSound, -⟩
  have hInside := hSound.placed.inside (16, 2 ^ 64 - 16) (by decide +kernel)
  exact absurd hInside (by decide)

end UnixOS.Malloc
