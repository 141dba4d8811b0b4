import Mathlib.Data.List.Chain
import UnixOS.Mm.KmallocClient

/-! # Using freed memory again

`kfree_block_locked` merges the block it frees with the next one, never with the one before it. As long
as no block is freed right above a free one, no two free blocks touch, and a heap of which nothing is held
is a single block again.
-/

namespace UnixOS.Kmalloc

open ByteMemory DoublyLinked Tiling

def headersFrom (h : Heap) : Nat → Nat → List Nat
  | 0, _ => []
  | fuel + 1, a => if a < h.heapEnd then a :: headersFrom h fuel (a + h.get .size a) else []

def headers (h : Heap) : List Nat := headersFrom h heapSize h.heapStart

def NoFreeBelow (h : Heap) (block : Nat) : Prop :=
  ∀ a ∈ headers h, a + h.get .size a = block → h.get .magic a ≠ blockMagicFree

def Call.Merging (c : Client) : Call → Prop
  | .kmalloc _ _ => True
  | .kzalloc _ _ => True
  | .krealloc _ _ _ => False
  | .kfree ptr => ptr = 0 ∨ NoFreeBelow c.heap (dataToBlock ptr)
  | .write _ _ => True

def MergingAlong (base : Nat) : Client → List Call → Prop
  | _, [] => True
  | c, call :: calls => call.Merging c ∧ ∀ c' ∈ c.exec base call, MergingAlong base c' calls

instance (h : Heap) (block : Nat) : Decidable (NoFreeBelow h block) :=
  inferInstanceAs (Decidable (∀ a ∈ headers h, a + h.get .size a = block → h.get .magic a ≠ blockMagicFree))

instance (c : Client) : DecidablePred (Call.Merging c)
  | .kmalloc _ _ => isTrue trivial
  | .kzalloc _ _ => isTrue trivial
  | .krealloc _ _ _ => isFalse id
  | .kfree ptr => inferInstanceAs (Decidable (ptr = 0 ∨ NoFreeBelow c.heap (dataToBlock ptr)))
  | .write _ _ => isTrue trivial

instance decidableMergingAlong (base : Nat) : ∀ c calls, Decidable (MergingAlong base c calls)
  | _, [] => isTrue trivial
  | c, call :: calls =>
    have := fun c' => decidableMergingAlong base c' calls
    inferInstanceAs (Decidable (call.Merging c ∧ ∀ c' ∈ c.exec base call, MergingAlong base c' calls))

section Blocks

variable {b : Block} {B₁ B₂ : List Block}

def Separated (bs : List Block) : Prop := bs.IsChain fun b d => b.used = true ∨ d.used = true

theorem separated_iff : Separated (B₁ ++ b :: B₂) ↔ Separated B₁ ∧ Separated B₂ ∧
    (∀ a ∈ B₁.getLast?, a.used = true ∨ b.used = true) ∧
    ∀ n ∈ B₂.head?, b.used = true ∨ n.used = true := by
  rw [Separated, List.isChain_append, List.isChain_cons]
  constructor
  · rintro ⟨hLow, ⟨hAbove, hHigh⟩, hBelow⟩
    exact ⟨hLow, hHigh, fun a ha => hBelow a ha b rfl, hAbove⟩
  · rintro ⟨hLow, hHigh, hBelow, hAbove⟩
    refine ⟨hLow, ⟨hAbove, hHigh⟩, fun a ha n hn => ?_⟩
    cases hn
    exact hBelow a ha

theorem separated_served {t : Nat} (h : Separated (B₁ ++ b :: B₂)) (hFree : b.used = false) :
    Separated (served B₁ b B₂ t) := by
  obtain ⟨hLow, hHigh, hBelow, hAbove⟩ := separated_iff.mp h
  have hUsed : ∀ n ∈ B₂.head?, n.used = true := fun n hn =>
    (hAbove n hn).resolve_left (by rw [hFree]; exact Bool.false_ne_true)
  rw [served]
  split
  case isTrue hBig =>
    refine separated_iff.mpr ⟨hLow, List.isChain_cons.mpr ⟨fun n hn => Or.inr (hUsed n hn), hHigh⟩,
      fun _ _ => Or.inr rfl, fun _ _ => Or.inl rfl⟩
  case isFalse hSmall =>
    exact separated_iff.mpr ⟨hLow, hHigh, fun _ _ => Or.inr rfl, fun _ _ => Or.inl rfl⟩

theorem separated_freed (h : Separated (B₁ ++ b :: B₂)) (hBelow : ∀ a ∈ B₁.getLast?, a.used = true) :
    Separated (freed B₁ b B₂) := by
  obtain ⟨hLow, hHigh, -, -⟩ := separated_iff.mp h
  have hKept : ∀ d : Block, ∀ a ∈ B₁.getLast?, a.used = true ∨ d.used = true :=
    fun _ a ha => Or.inl (hBelow a ha)
  cases B₂ with
  | nil => exact separated_iff.mpr ⟨hLow, List.isChain_nil, hKept _, fun n hn => (nomatch hn)⟩
  | cons n B₂ =>
    rw [freed]
    split
    case isTrue hn =>
      refine separated_iff.mpr ⟨hLow, hHigh, hKept _, fun d hd => ?_⟩
      cases hd
      exact Or.inr hn
    case isFalse hn =>
      obtain ⟨hNext, hRest⟩ := List.isChain_cons.mp hHigh
      exact separated_iff.mpr ⟨hLow, hRest, hKept _, fun d hd => Or.inr ((hNext d hd).resolve_left hn)⟩

theorem used_of_served {t : Nat} {d : Block} (hd : d ∈ served B₁ b B₂ t) (hUsed : d.used = true) :
    d.addr = b.addr ∨ d ∈ B₁ ∨ d ∈ B₂ := by
  rw [served] at hd
  split at hd
  case isTrue hBig =>
    rcases mem_split hd with rfl | hd | hd
    · exact Or.inl rfl
    · exact Or.inr (Or.inl hd)
    · obtain rfl | hd := List.mem_cons.mp hd
      · cases hUsed
      · exact Or.inr (Or.inr hd)
  case isFalse hSmall =>
    rcases mem_split hd with rfl | hd
    · exact Or.inl rfl
    · exact Or.inr hd

theorem used_of_freed {d : Block} (hd : d ∈ freed B₁ b B₂) (hUsed : d.used = true) :
    d ∈ B₁ ∨ d ∈ B₂ := by
  cases B₂ with
  | nil =>
    rcases mem_split hd with rfl | hd
    · cases hUsed
    · exact hd
  | cons n B₂ =>
    rw [freed] at hd
    split at hd
    case isTrue hn =>
      rcases mem_split hd with rfl | hd
      · cases hUsed
      · exact hd
    case isFalse hn =>
      rcases mem_split hd with rfl | hd | hd
      · cases hUsed
      · exact Or.inl hd
      · exact Or.inr (List.mem_cons_of_mem n hd)

end Blocks

section Heaps

variable {base : Nat} {h : Heap} {bs : List Block} {fl : List Nat} {live : List (Nat × Nat)}

theorem headersFrom_eq {a fuel : Nat} (hTiles : Tiles Block.addr Block.size a bs h.heapEnd)
    (hSize : ∀ b ∈ bs, h.get .size b.addr = b.size) (hFuel : bs.length < fuel) :
    headersFrom h fuel a = addrs bs := by
  induction bs generalizing a fuel with
  | nil =>
    obtain rfl : a = h.heapEnd := hTiles
    obtain ⟨fuel, rfl⟩ := Nat.exists_eq_succ_of_ne_zero (Nat.ne_zero_of_lt hFuel)
    rw [headersFrom, if_neg (Nat.lt_irrefl _)]
    rfl
  | cons b bs ih =>
    obtain ⟨fuel, rfl⟩ := Nat.exists_eq_succ_of_ne_zero (Nat.ne_zero_of_lt hFuel)
    obtain ⟨rfl, hPos, hRest⟩ := hTiles
    have hBelow : b.addr < h.heapEnd := by
      have hLe := hRest.le
      omega
    rw [headersFrom, if_pos hBelow, hSize b List.mem_cons_self,
      ih hRest (fun d hd => hSize d (List.mem_cons_of_mem b hd)) (Nat.lt_of_succ_lt_succ hFuel)]
    rfl

theorem Consistent.headers_eq (c : Consistent base h bs fl) : headers h = addrs bs := by
  refine headersFrom_eq c.rep.tiles c.rep.size_eq ?_
  have hRoom := length_mul_le c.rep.room
  rw [c.total] at hRoom
  simp only [headerSize, heapSize] at *
  omega

theorem Consistent.used_below {B₁ B₂ : List Block} {b : Block} (c : Consistent base h (B₁ ++ b :: B₂) fl)
    (hNone : NoFreeBelow h b.addr) : ∀ a ∈ B₁.getLast?, a.used = true := by
  intro a ha
  obtain ⟨B₀, rfl⟩ := List.getLast?_eq_some_iff.mp ha
  have hMem : a ∈ (B₀ ++ [a]) ++ b :: B₂ := by simp
  have hNext : a.addr + a.size = b.addr := by
    obtain ⟨m, hLow, hb, -⟩ := Tiles.append_iff.mp c.rep.tiles
    obtain ⟨m', -, haAddr, -, hEnd⟩ := Tiles.append_iff.mp hLow
    have hStop : m' + a.size = m := hEnd
    omega
  have hFound := hNone a.addr (by rw [c.headers_eq]; exact mem_addrs hMem)
    (by rw [c.rep.size_eq a hMem, hNext])
  rw [c.rep.magic_eq a hMem, Block.magic] at hFound
  cases hUsed : a.used with
  | true => rfl
  | false =>
    rw [hUsed] at hFound
    exact absurd rfl hFound

def Covered (bs : List Block) (live : List (Nat × Nat)) : Prop :=
  ∀ b ∈ bs, b.used = true → ∃ x ∈ live, x.1 = b.addr + headerSize

theorem Covered.served {B₁ B₂ : List Block} {b : Block} (hCovered : Covered (B₁ ++ b :: B₂) live)
    (t size : Nat) : Covered (served B₁ b B₂ t) (hold live (b.addr + headerSize) size) := by
  have hPtr : b.addr + headerSize ≠ 0 := by
    simp only [headerSize]
    omega
  intro d hd hUsed
  rw [hold, if_neg hPtr]
  rcases used_of_served hd hUsed with hAddr | hOld
  · exact ⟨_, List.mem_cons_self, by rw [hAddr]⟩
  · obtain ⟨x, hx, hEq⟩ := hCovered d (mem_of_others hOld) hUsed
    exact ⟨x, List.mem_cons_of_mem _ hx, hEq⟩

theorem Covered.freed {B₁ B₂ : List Block} {b : Block} (hCovered : Covered (B₁ ++ b :: B₂) live)
    (c : Consistent base h (B₁ ++ b :: B₂) fl) :
    Covered (freed B₁ b B₂) (release live (b.addr + headerSize)) := by
  intro d hd hUsed
  have hOld := used_of_freed hd hUsed
  obtain ⟨x, hx, hEq⟩ := hCovered d (mem_of_others hOld) hUsed
  have hNe := c.rep.tiles.addr_ne hOld
  refine ⟨x, List.mem_filter.mpr ⟨hx, ?_⟩, hEq⟩
  rw [hEq, decide_eq_true_iff]
  omega

structure Tidy (base : Nat) (c : Client) (bs : List Block) (fl : List Nat) : Prop where
  consistent : Consistent base c.heap bs fl
  holds : Holds bs c.live
  covered : Covered bs c.live
  separated : Separated bs

theorem Tidy.kmalloc {c : Client} (hTidy : Tidy base c bs fl) (size flags : Nat) :
    ∃ h' p bs' fl', kmalloc base c.heap size flags = some (h', p) ∧
      Tidy base ⟨h', hold c.live p size⟩ bs' fl' := by
  have hC := hTidy.consistent
  obtain ⟨h', p, bs', fl', hRun, hC', hCases⟩ := kmalloc_cases hC size flags
  refine ⟨h', p, bs', fl', hRun, ?_⟩
  rcases hCases with ⟨rfl, rfl, -⟩ | ⟨B₁, b, B₂, t, rfl, hFree, rfl, hCover, hSize, rfl⟩
  · have hSame : hold c.live 0 size = c.live := if_pos rfl
    rw [hSame]
    exact ⟨hC', hTidy.holds, hTidy.covered, hTidy.separated⟩
  · exact ⟨hC', hTidy.holds.request (hC.yields hFree hCover hSize), hTidy.covered.served t size,
      separated_served hTidy.separated hFree⟩

theorem Tidy.kfree {c : Client} (hTidy : Tidy base c bs fl) {p : Nat} (hHeld : Held c p)
    (hBelow : p = 0 ∨ NoFreeBelow c.heap (dataToBlock p)) :
    ∃ bs' fl', Tidy base ⟨kfree c.heap p, release c.live p⟩ bs' fl' := by
  by_cases hNull : p = 0
  · subst hNull
    refine ⟨bs, fl, ?_⟩
    rw [Kmalloc.kfree, if_pos rfl, hTidy.holds.release_null]
    exact hTidy
  obtain ⟨x, hx, rfl⟩ := hHeld.resolve_left hNull
  obtain ⟨b, hb, hUsed, hPtr, -⟩ := hTidy.holds.block x hx
  have hBlock : dataToBlock x.1 = b.addr := by
    rw [hPtr, dataToBlock, Nat.add_sub_cancel]
  have hMagic : c.heap.get .magic b.addr = blockMagicUsed := by
    rw [hTidy.consistent.rep.magic_eq b hb, Block.magic, if_pos hUsed]
  obtain ⟨B₁, B₂, rfl⟩ := List.append_of_mem hb
  obtain ⟨fl', hFreed⟩ := hTidy.consistent.freed hUsed
  have hNone := hTidy.consistent.used_below (hBlock ▸ hBelow.resolve_left hNull)
  have hRun : Kmalloc.kfree c.heap x.1 = kfreeBlockLocked c.heap b.addr := by
    rw [Kmalloc.kfree, if_neg hNull, hBlock, if_neg (not_not_intro hMagic)]
  rw [hRun, hPtr]
  exact ⟨_, fl', hFreed, hTidy.holds.release fun d hd hdUsed hne => mem_freed hd hdUsed hne,
    hTidy.covered.freed hTidy.consistent, separated_freed hTidy.separated hNone⟩

theorem Tidy.exec {c : Client} (hTidy : Tidy base c bs fl) {call : Call} (hAllowed : call.Allowed c)
    (hMerging : call.Merging c) :
    ∃ c' bs' fl', c.exec base call = some c' ∧ Tidy base c' bs' fl' := by
  cases call with
  | kmalloc size flags =>
    obtain ⟨h', p, bs', fl', hRun, hTidy'⟩ := hTidy.kmalloc size flags
    exact ⟨_, bs', fl', by rw [Client.exec, hRun]; rfl, hTidy'⟩
  | kzalloc size flags =>
    obtain ⟨h', p, bs', fl', hRun, hTidy'⟩ := hTidy.kmalloc size (flags ||| gfpZero)
    exact ⟨_, bs', fl', by rw [Client.exec, kzalloc, hRun]; rfl, hTidy'⟩
  | krealloc ptr newSize flags => exact hMerging.elim
  | kfree ptr =>
    obtain ⟨bs', fl', hTidy'⟩ := hTidy.kfree hAllowed hMerging
    exact ⟨_, bs', fl', rfl, hTidy'⟩
  | write addr value =>
    obtain ⟨x, hx, hLow, hHigh⟩ := hAllowed
    obtain ⟨b, hb, -, hPtr, hSize⟩ := hTidy.holds.block x hx
    refine ⟨_, bs, fl, rfl, hTidy.consistent.writeData hb ?_ rfl ⟨rfl, rfl, rfl, rfl⟩, hTidy.holds,
      hTidy.covered, hTidy.separated⟩
    intro y hy
    change fill c.heap.mem addr 1 (fun _ => value) y = c.heap.mem y
    exact fill_outside (by omega)

theorem Tidy.run {c : Client} (hTidy : Tidy base c bs fl) {calls : List Call} (hLegal : Legal base c calls)
    (hMerging : MergingAlong base c calls) :
    ∃ c' bs' fl', c.run base calls = some c' ∧ Tidy base c' bs' fl' := by
  induction calls generalizing c bs fl with
  | nil => exact ⟨c, bs, fl, rfl, hTidy⟩
  | cons call calls ih =>
    obtain ⟨c', bs', fl', hExec, hTidy'⟩ := hTidy.exec hLegal.1 hMerging.1
    obtain ⟨c'', bs'', fl'', hRun, hFinal⟩ := ih hTidy' (hLegal.2 c' hExec) (hMerging.2 c' hExec)
    exact ⟨c'', bs'', fl'', by rw [Client.run, hExec]; exact hRun, hFinal⟩

theorem tidy_boot (hBase : 0 < base) (hTop : base + heapSize < 2 ^ 64) (h : Heap) :
    Tidy base (boot base h) [⟨base, heapSize, false⟩] [base] where
  consistent := kmallocInit_consistent hBase hTop h
  holds := ⟨by simp [boot], List.nodup_nil⟩
  covered := by simp [Covered]
  separated := List.isChain_singleton _

theorem Tidy.single {c : Client} (hTidy : Tidy base c bs fl) (hNone : c.live = []) :
    ∃ b, bs = [b] ∧ b.used = false ∧ b.size = heapSize := by
  have hFree : ∀ b ∈ bs, b.used = false := by
    intro b hb
    by_contra hUsed
    obtain ⟨x, hx, -⟩ := hTidy.covered b hb (Bool.not_eq_false _ ▸ hUsed)
    rw [hNone] at hx
    cases hx
  have hTotal := hTidy.consistent.total
  match bs, hFree, hTidy.separated, hTotal with
  | [], _, _, hTotal => cases hTotal
  | [b], hFree, _, hTotal => exact ⟨b, rfl, hFree b List.mem_cons_self, hTotal⟩
  | b :: d :: bs, hFree, hApart, _ =>
    obtain hUsed | hUsed := (List.isChain_cons_cons.mp hApart).1
    · rw [hFree b (by simp)] at hUsed
      cases hUsed
    · rw [hFree d (by simp)] at hUsed
      cases hUsed

end Heaps

/-- In a run that never frees a block right above a free one, all memory can be had again once
everything was freed. -/
theorem freed_heap_reusable (base : Nat) (hBase : 0 < base) (hTop : base + heapSize < 2 ^ 64) (h : Heap)
    (calls : List Call) (hLegal : Legal base (boot base h) calls)
    (hMerging : MergingAlong base (boot base h) calls) :
    ∃ c, (boot base h).run base calls = some c ∧ (c.live = [] → ∀ size flags, 0 < size → size ≤ maxAlloc →
      ∃ h' p, kmalloc base c.heap size flags = some (h', p) ∧ p ≠ 0) := by
  obtain ⟨c, bs, fl, hRun, hTidy⟩ := (tidy_boot hBase hTop h).run hLegal hMerging
  refine ⟨c, hRun, fun hNone size flags hPos hMax => ?_⟩
  obtain ⟨b, rfl, hFree, hSize⟩ := hTidy.single hNone
  obtain ⟨h', p, bs', fl', hRequest, -, hCases⟩ := kmalloc_cases hTidy.consistent size flags
  refine ⟨h', p, hRequest, ?_⟩
  rcases hCases with ⟨-, -, hTooLarge⟩ | ⟨B₁, d, B₂, t, -, -, rfl, -⟩
  · have hLess := hTooLarge hPos hMax b List.mem_cons_self hFree
    rw [hSize, alignUp_eq (by simp only [maxAlloc, headerSize] at *; omega)] at hLess
    simp only [maxAlloc, headerSize, heapSize] at *
    omega
  · simp only [headerSize]
    omega

theorem freed_heap_reusable_downwards :
    let calls : List Call := [.kmalloc 33554392 0, .kmalloc 33554392 0, .kmalloc 100 0,
      .kfree 0x46000028, .kfree 0x44000028, .kfree 0x42000028]
    Legal 0x42000000 (boot 0x42000000 uninitialised) calls ∧
      MergingAlong 0x42000000 (boot 0x42000000 uninitialised) calls ∧
      ((boot 0x42000000 uninitialised).run 0x42000000 calls).map Client.live = some [] ∧
      ∃ c, (boot 0x42000000 uninitialised).run 0x42000000 calls = some c ∧
        (c.live = [] → ∀ size flags, 0 < size → size ≤ maxAlloc →
          ∃ h' p, kmalloc 0x42000000 c.heap size flags = some (h', p) ∧ p ≠ 0) := by
  intro calls
  have hLegal : Legal 0x42000000 (boot 0x42000000 uninitialised) calls := by decide +kernel
  have hMerging : MergingAlong 0x42000000 (boot 0x42000000 uninitialised) calls := by decide +kernel
  exact ⟨hLegal, hMerging, by decide +kernel, freed_heap_reusable 0x42000000 (by decide) (by decide)
    uninitialised calls hLegal hMerging⟩

theorem upward_frees_fragment_heap :
    let calls : List Call := [.kmalloc 33554392 0, .kmalloc 33554392 0, .kmalloc 33554392 0,
      .kmalloc 33554392 0, .kfree 0x42000028, .kfree 0x44000028, .kfree 0x46000028, .kfree 0x48000028]
    Legal 0x42000000 (boot 0x42000000 uninitialised) calls ∧
      ((boot 0x42000000 uninitialised).run 0x42000000 calls).map Client.live = some [] ∧
      (((boot 0x42000000 uninitialised).run 0x42000000 calls).bind fun c =>
        (kmalloc 0x42000000 c.heap maxAlloc 0).map Prod.snd) = some 0 := by
  refine ⟨?_, ?_, ?_⟩ <;> decide +kernel

end UnixOS.Kmalloc
