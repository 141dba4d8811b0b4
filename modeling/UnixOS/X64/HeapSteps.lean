import Mathlib.Data.List.Induction
import UnixOS.Lib.BitFields
import UnixOS.X64.HeapBlocks

/-! # Splitting, merging and searching in the x86-64 heap

What each piece of the allocator does to a heap whose headers describe the blocks `bs`. Only bytes of headers
change, so the data of used blocks is kept.
-/

namespace UnixOS.X64Heap

open ByteMemory Records DoublyLinked Tiling

structure Rep (base : Nat) (h : Heap) (bs : List Block) : Prop where
  shape : Shape base h.get bs
  head_eq : h.freeList = base
  initialized : h.heapInitialized = true

structure SameGlobals (h' h : Heap) : Prop where
  freeList : h'.freeList = h.freeList
  initialized : h'.heapInitialized = h.heapInitialized
  used : h'.heapUsed = h.heapUsed

def HeadersOnly (bs : List Block) (h h' : Heap) : Prop := ∀ x, (∀ a ∈ addrs bs, block.Off a x) → h'.mem x = h.mem x

section Pieces

variable {base : Nat} {h h' : Heap} {bs B₁ B₂ : List Block} {b n : Block}

theorem SameGlobals.refl (h : Heap) : SameGlobals h h := ⟨rfl, rfl, rfl⟩

theorem Rep.of_edited (r : Rep base h bs) {A : List Nat} {bs' : List Block} {hd : BlockField → Nat → Nat}
    (hShape : Shape base hd bs') (hEdited : Edited block A h.mem h'.mem hd) (hSub : ∀ a ∈ addrs bs', a ∈ A)
    (hGlobals : SameGlobals h' h) : Rep base h' bs' where
  shape := hShape.congr fun g a ha => hEdited.agree g a (hSub a ha)
  head_eq := hGlobals.freeList.trans r.head_eq
  initialized := hGlobals.initialized.trans r.initialized

theorem off_of_data {a e : Nat} (hTiles : Tiles Block.addr Block.size a bs e) (hRoom : ∀ b ∈ bs, headerSize ≤ b.size)
    (hb : b ∈ bs) {x : Nat} (hLow : b.addr + headerSize ≤ x) (hHigh : x < b.addr + b.size) :
    ∀ y ∈ addrs bs, block.Off y x := by
  intro y hy
  obtain ⟨c, hc, rfl⟩ := List.mem_map.mp hy
  have hcRoom := hRoom c hc
  change x < c.addr ∨ c.addr + headerSize ≤ x
  obtain rfl | hBefore | hBehind := hTiles.eq_or_disjoint hc hb <;> omega

theorem Rep.fits_addr (r : Rep base h bs) {f : BlockField} (hf : f = .next ∨ f = .prev) {a : Nat}
    (ha : a < base + heapSize) : block.Fits f a := by
  have hEnd := r.shape.end_lt
  have hWidth : 256 ^ block.width f = 2 ^ 64 := by
    obtain rfl | rfl := hf <;> rfl
  rw [Layout.Fits, hWidth]
  omega

theorem fits_magic : block.Fits .magic blockMagic := by
  change blockMagic < 256 ^ 4
  decide

theorem fits_mark (b : Block) : block.Fits .free b.mark := by
  change b.mark < 256 ^ 4
  rw [Block.mark]
  split <;> decide

theorem fits_size {v : Nat} (hv : v ≤ heapSize) : block.Fits .size v := by
  have hWidth : 256 ^ block.width .size = 2 ^ 32 := rfl
  rw [Layout.Fits, hWidth]
  simp only [heapSize] at hv
  omega

theorem Rep.head_lt (r : Rep base h bs) {A : List Block} (hA : ∀ c ∈ A, c ∈ bs) :
    (addrs A).headD 0 < base + heapSize := by
  have hStart := r.shape.start_pos
  obtain hZero | hMem := headD_eq_or_mem (addrs A) 0
  · rw [hZero]
    omega
  · obtain ⟨c, hc, hAddr⟩ := List.mem_map.mp hMem
    have hBounds := r.shape.tiles.bounds (hA c hc)
    omega

theorem Rep.next_eq (r : Rep base h (B₁ ++ b :: B₂)) : h.get .next b.addr = (addrs B₂).headD 0 := r.shape.around.2

theorem Rep.prev_eq (r : Rep base h (B₁ ++ b :: B₂)) : h.get .prev b.addr = (addrs B₁).getLastD 0 := r.shape.around.1

theorem Rep.splitBlock (r : Rep base h (B₁ ++ b :: B₂)) {size : Nat}
    (hBig : size + headerSize + minBlockSize + headerSize ≤ b.size) :
    Rep base (splitBlock h b.addr size) (B₁ ++ b.front (size + headerSize) :: b.back (size + headerSize) :: B₂) ∧
      SameGlobals (splitBlock h b.addr size) h ∧
      HeadersOnly (B₁ ++ b.front (size + headerSize) :: b.back (size + headerSize) :: B₂) h
        (splitBlock h b.addr size) := by
  have hBounds := r.shape.bounds (b := b) (by simp)
  have hSize := (r.shape.header b (by simp)).size
  have hNext := r.next_eq
  have hEnd := r.shape.end_lt
  have hHeader : headerSize = 32 := rfl
  have hHeap : heapSize = 67108864 := rfl
  have hMin : minBlockSize = 64 := rfl
  generalize ht : size + headerSize = t at *
  have hTotal : (size + headerSize) % 2 ^ 64 = t := by omega
  have hFits : (t + minBlockSize + headerSize) % 2 ^ 64 = t + minBlockSize + headerSize := by omega
  have hRest : (b.size + 2 ^ 64 - t) % 2 ^ 64 = b.size - t := by omega
  have sNew := r.shape.split (t := t) (by omega) (by omega)
  have hSpaced := sNew.spaced
  have hHeadLt := r.head_lt (A := B₂) fun c hc => mem_of_others (.inr hc)
  have hb : b.addr ∈ addrs (B₁ ++ b.front t :: b.back t :: B₂) := by simp
  have hn : b.addr + t ∈ addrs (B₁ ++ b.front t :: b.back t :: B₂) := by simp
  have hne : b.addr ≠ b.addr + t := by omega
  have hApart : block.Apart (b.addr + t) b.addr := .inr (by change b.addr + headerSize ≤ b.addr + t; omega)
  have hNew := ((((Edited.refl (addrs (B₁ ++ b.front t :: b.back t :: B₂)) h.mem).set hSpaced hn
    fits_magic).set hSpaced hn (fits_size (v := b.size - t) (by omega))).set hSpaced hn
    (fits_mark (b.back t))).set hSpaced hn (r.fits_addr (.inl rfl) hHeadLt)
  have hBack := hNew.set hSpaced hn (r.fits_addr (.inr rfl) (a := b.addr) (by omega))
  have hGet : ∀ (m : Mem) f g v, block.get (block.set m f (b.addr + t) v) g b.addr = block.get m g b.addr :=
    fun m f g v => get_set_apart hApart
  have hSizeMem : block.get h.mem .size b.addr = b.size := hSize
  have hNextMem : block.get h.mem .next b.addr = (addrs B₂).headD 0 := hNext
  have hEdited : Edited block (addrs (B₁ ++ b.front t :: b.back t :: B₂)) h.mem
      (X64Heap.splitBlock h b.addr size).mem (splitHeaders h.get b ((addrs B₂).headD 0) t) := by
    simp only [X64Heap.splitBlock, hTotal, hFits, hBig, if_true, Heap.get, Heap.set, hGet, hSizeMem, hNextMem,
      hRest, splitHeaders]
    split
    · rename_i hSome
      have hHead : (addrs B₂).headD 0 ∈ addrs (B₁ ++ b.front t :: b.back t :: B₂) := by
        have hMem := (headD_eq_or_mem (addrs B₂) 0).resolve_left hSome
        rw [addrs_append]
        exact List.mem_append_right _ (List.mem_cons_of_mem _ (List.mem_cons_of_mem _ hMem))
      exact ((hBack.set hSpaced hHead (r.fits_addr (.inr rfl) (by omega))).set hSpaced hb
        (fits_size (by omega))).set hSpaced hb (r.fits_addr (.inl rfl) (by omega))
    · exact (hBack.set hSpaced hb (fits_size (by omega))).set hSpaced hb (r.fits_addr (.inl rfl) (by omega))
  have hGlobals : SameGlobals (X64Heap.splitBlock h b.addr size) h := by
    simp only [X64Heap.splitBlock]
    split
    · split <;> exact ⟨rfl, rfl, rfl⟩
    · exact .refl h
  exact ⟨r.of_edited sNew hEdited (fun a ha => ha) hGlobals, hGlobals, hEdited.outside⟩

theorem Rep.marked (r : Rep base h (B₁ ++ b :: B₂)) (used : Bool) (h' : Heap)
    (hMem : h'.mem = block.set h.mem .free b.addr (b.marked used).mark) (hFree : h'.freeList = h.freeList)
    (hInit : h'.heapInitialized = h.heapInitialized) :
    Rep base h' (B₁ ++ b.marked used :: B₂) ∧ HeadersOnly (B₁ ++ b :: B₂) h h' := by
  have hb : b.addr ∈ addrs (B₁ ++ b :: B₂) := by simp
  have hEdited := (Edited.refl (addrs (B₁ ++ b :: B₂)) h.mem).set r.shape.spaced hb (fits_mark (b.marked used))
  rw [← hMem] at hEdited
  refine ⟨⟨?_, hFree.trans r.head_eq, hInit.trans r.initialized⟩, hEdited.outside⟩
  refine (r.shape.mark used).congr fun g a ha => hEdited.agree g a ?_
  simpa using ha

theorem Rep.markUsed (r : Rep base h (B₁ ++ b :: B₂)) :
    Rep base (markUsed h b.addr) (B₁ ++ b.marked true :: B₂) ∧ HeadersOnly (B₁ ++ b :: B₂) h (markUsed h b.addr) ∧
      (X64Heap.markUsed h b.addr).heapUsed = (h.heapUsed + b.size) % 2 ^ 64 := by
  obtain ⟨rNew, hOnly⟩ := r.marked true (X64Heap.markUsed h b.addr) rfl rfl rfl
  refine ⟨rNew, hOnly, ?_⟩
  have hSize : (h.set .free b.addr 0).get .size b.addr = h.get .size b.addr := get_set_field (by decide)
  rw [X64Heap.markUsed, hSize, (r.shape.header b (by simp)).size]
  rfl

theorem Rep.markFree (r : Rep base h (B₁ ++ b :: B₂)) :
    Rep base (markFree h b.addr) (B₁ ++ b.marked false :: B₂) ∧ HeadersOnly (B₁ ++ b :: B₂) h (markFree h b.addr) ∧
      (X64Heap.markFree h b.addr).heapUsed = (h.heapUsed + 2 ^ 64 - b.size) % 2 ^ 64 := by
  obtain ⟨rNew, hOnly⟩ := r.marked false (X64Heap.markFree h b.addr) rfl rfl rfl
  refine ⟨rNew, hOnly, ?_⟩
  have hSize : (h.set .free b.addr 1).get .size b.addr = h.get .size b.addr := get_set_field (by decide)
  rw [X64Heap.markFree, hSize, (r.shape.header b (by simp)).size]
  rfl

/-- The writes of both merges: the block at `a` gets the size and the successor of the pair. -/
def mergeMem (m : Mem) (a size head : Nat) : Mem :=
  let m := block.set m .size a size
  let m := block.set m .next a head
  if head ≠ 0 then block.set m .prev head a else m

theorem Rep.merged (r : Rep base h (B₁ ++ b :: n :: B₂)) {h' : Heap} (hGlobals : SameGlobals h' h)
    (hMem : h'.mem = mergeMem h.mem b.addr (b.size + n.size) ((addrs B₂).headD 0)) :
    Rep base h' (B₁ ++ b.joined n :: B₂) ∧ HeadersOnly (B₁ ++ b :: n :: B₂) h h' := by
  have hTiles := tiles_merge r.shape.tiles
  have hJoined := hTiles.bounds (b := b.joined n) (by simp)
  have hJoinedSize : (b.joined n).size = b.size + n.size := rfl
  rw [joined_addr, hJoinedSize] at hJoined
  have hHeadLt := r.head_lt (A := B₂) fun c hc => by simp [hc]
  have hb : b.addr ∈ addrs (B₁ ++ b :: n :: B₂) := by simp
  have hBounds := r.shape.bounds (b := b) (by simp)
  have hPair := ((Edited.refl (addrs (B₁ ++ b :: n :: B₂)) h.mem).set r.shape.spaced hb
    (fits_size (v := b.size + n.size) (by omega))).set r.shape.spaced hb (r.fits_addr (.inl rfl) hHeadLt)
  have hEdited : Edited block (addrs (B₁ ++ b :: n :: B₂)) h.mem h'.mem
      (mergeHeaders h.get b.addr (b.size + n.size) ((addrs B₂).headD 0)) := by
    rw [hMem]
    simp only [mergeMem, mergeHeaders]
    split
    · rename_i hSome
      have hHead : (addrs B₂).headD 0 ∈ addrs (B₁ ++ b :: n :: B₂) := by
        have hMem := (headD_eq_or_mem (addrs B₂) 0).resolve_left hSome
        rw [addrs_append]
        exact List.mem_append_right _ (List.mem_cons_of_mem _ (List.mem_cons_of_mem _ hMem))
      exact hPair.set r.shape.spaced hHead (r.fits_addr (.inr rfl) (by omega))
    · exact hPair
  refine ⟨r.of_edited r.shape.merge hEdited ?_ hGlobals, hEdited.outside⟩
  intro a ha
  simp only [addrs_append, addrs_cons, joined_addr, List.mem_append, List.mem_cons] at ha ⊢
  obtain ha | ha | ha := ha
  · exact .inl ha
  · exact .inr (.inl ha)
  · exact .inr (.inr (.inr ha))

theorem mergeNext_globals (h : Heap) (a : Nat) : SameGlobals (mergeNext h a) h := by
  simp only [mergeNext]
  split
  · split <;> exact ⟨rfl, rfl, rfl⟩
  · exact .refl h

theorem mergePrev_globals (h : Heap) (a : Nat) : SameGlobals (mergePrev h a) h := by
  simp only [mergePrev]
  split
  · split <;> exact ⟨rfl, rfl, rfl⟩
  · exact .refl h

theorem Rep.apart (r : Rep base h bs) {c d : Block} (hc : c ∈ bs) (hd : d ∈ bs) (hne : c.addr ≠ d.addr) :
    block.Apart c.addr d.addr := (r.shape.spaced _ (mem_addrs hc) _ (mem_addrs hd)).resolve_left hne

theorem Rep.pair_ne (r : Rep base h (B₁ ++ b :: n :: B₂)) : n.addr ≠ b.addr :=
  r.shape.tiles.addr_ne (.inr List.mem_cons_self)

theorem Rep.mergeNext_mem (r : Rep base h (B₁ ++ b :: n :: B₂)) (hn : n.used = false) :
    (mergeNext h b.addr).mem = mergeMem h.mem b.addr (b.size + n.size) ((addrs B₂).headD 0) := by
  have hAssoc : B₁ ++ b :: n :: B₂ = (B₁ ++ [b]) ++ n :: B₂ := by simp
  have hSome : n.addr ≠ 0 := Nat.pos_iff_ne_zero.mp (r.shape.addr_pos (b := n) (by simp))
  have hNextMem : block.get h.mem .next b.addr = n.addr := r.next_eq
  have hAfter : block.get h.mem .next n.addr = (addrs B₂).headD 0 := (hAssoc ▸ r).next_eq
  have hMark : block.get h.mem .free n.addr = 1 := by
    have hFree := (r.shape.header n (by simp)).free
    rwa [Block.mark, hn] at hFree
  have hSize : block.get h.mem .size b.addr = b.size := (r.shape.header b (by simp)).size
  have hSizeN : block.get h.mem .size n.addr = n.size := (r.shape.header n (by simp)).size
  have hApart := r.apart (c := b) (d := n) (by simp) (by simp) r.pair_ne.symm
  have hHeadFits := r.fits_addr (f := .next) (.inl rfl) (r.head_lt (A := B₂) fun c hc => by simp [hc])
  have hOther : ∀ (m : Mem) v, block.get (block.set m .size b.addr v) .next b.addr = block.get m .next b.addr :=
    fun m v => get_set_field (by decide)
  have hFar : ∀ (m : Mem) f g v, block.get (block.set m f b.addr v) g n.addr = block.get m g n.addr :=
    fun m f g v => get_set_apart hApart
  have hWritten : ∀ m : Mem, block.get (block.set m .next b.addr ((addrs B₂).headD 0)) .next b.addr =
      (addrs B₂).headD 0 := fun m => get_set_same hHeadFits
  simp only [mergeNext, mergeMem, Heap.get, Heap.set, hNextMem, hMark, hSize, hSizeN, hOther, hFar, hAfter, hWritten]
  rw [if_pos ⟨hSome, Nat.one_ne_zero⟩]
  split <;> rfl

theorem Rep.mergePrev_mem {p : Block} (r : Rep base h (B₁ ++ p :: b :: B₂)) (hp : p.used = false) :
    (mergePrev h b.addr).mem = mergeMem h.mem p.addr (p.size + b.size) ((addrs B₂).headD 0) := by
  have hAssoc : B₁ ++ p :: b :: B₂ = (B₁ ++ [p]) ++ b :: B₂ := by simp
  have hSome : p.addr ≠ 0 := Nat.pos_iff_ne_zero.mp (r.shape.addr_pos (b := p) (by simp))
  have hLast : (addrs (B₁ ++ [p])).getLastD 0 = p.addr := by
    rw [addrs_append]
    exact getLastD_append_cons (addrs B₁) [] p.addr 0
  have hPrev : block.get h.mem .prev b.addr = p.addr := ((hAssoc ▸ r).prev_eq).trans hLast
  have hAfter : block.get h.mem .next b.addr = (addrs B₂).headD 0 := (hAssoc ▸ r).next_eq
  have hMark : block.get h.mem .free p.addr = 1 := by
    have hFree := (r.shape.header p (by simp)).free
    rwa [Block.mark, hp] at hFree
  have hSize : block.get h.mem .size b.addr = b.size := (r.shape.header b (by simp)).size
  have hSizeP : block.get h.mem .size p.addr = p.size := (r.shape.header p (by simp)).size
  have hApart := r.apart (c := p) (d := b) (by simp) (by simp) r.pair_ne.symm
  have hFar : ∀ (m : Mem) f g v, block.get (block.set m f p.addr v) g b.addr = block.get m g b.addr :=
    fun m f g v => get_set_apart hApart
  simp only [mergePrev, mergeMem, Heap.get, Heap.set, hPrev, hMark, hSize, hSizeP, hFar, hAfter]
  rw [if_pos ⟨hSome, Nat.one_ne_zero⟩]
  split <;> rfl

theorem Rep.mark_eq (r : Rep base h bs) {c : Block} (hc : c ∈ bs) : h.get .free c.addr ≠ 0 ↔ c.used = false := by
  rw [(r.shape.header c hc).free, Block.mark]
  cases c.used <;> simp

def takeNext (b : Block) : List Block → List Block
  | [] => [b]
  | n :: B₂ => if n.used then b :: n :: B₂ else b.joined n :: B₂

theorem Rep.mergeNext (r : Rep base h (B₁ ++ b :: B₂)) :
    Rep base (mergeNext h b.addr) (B₁ ++ takeNext b B₂) ∧ HeadersOnly (B₁ ++ b :: B₂) h (mergeNext h b.addr) := by
  cases B₂ with
  | nil =>
    have hSame : X64Heap.mergeNext h b.addr = h := if_neg fun hBoth => hBoth.1 r.next_eq
    rw [hSame]
    exact ⟨r, fun x _ => rfl⟩
  | cons n B₂ =>
    rw [takeNext]
    split
    case isTrue hUsed =>
      have hMark := (r.mark_eq (c := n) (by simp)).not.mpr (by simp [hUsed])
      have hSame : X64Heap.mergeNext h b.addr = h := by
        apply if_neg
        rw [r.next_eq]
        exact fun hBoth => hMark hBoth.2
      rw [hSame]
      exact ⟨r, fun x _ => rfl⟩
    case isFalse hFree =>
      exact r.merged (mergeNext_globals h b.addr) (r.mergeNext_mem (by simpa using hFree))

def givePrev (b : Block) : List Block → List Block
  | [] => [b]
  | [p] => if p.used then [p, b] else [p.joined b]
  | c :: d :: B₁ => c :: givePrev b (d :: B₁)

theorem givePrev_snoc (b p : Block) (B₁ : List Block) :
    givePrev b (B₁ ++ [p]) = B₁ ++ if p.used then [p, b] else [p.joined b] := by
  induction B₁ with
  | nil => rfl
  | cons c B₁ ih =>
    cases B₁ with
    | nil => rfl
    | cons d B₁ => exact congrArg (c :: ·) ih

theorem Rep.mergePrev (r : Rep base h (B₁ ++ b :: B₂)) :
    Rep base (mergePrev h b.addr) (givePrev b B₁ ++ B₂) ∧ HeadersOnly (B₁ ++ b :: B₂) h (mergePrev h b.addr) := by
  induction B₁ using List.reverseRecOn with
  | nil =>
    have hSame : X64Heap.mergePrev h b.addr = h := if_neg fun hBoth => hBoth.1 r.prev_eq
    rw [hSame]
    exact ⟨r, fun x _ => rfl⟩
  | append_singleton B₁ p =>
    have hAssoc : (B₁ ++ [p]) ++ b :: B₂ = B₁ ++ p :: b :: B₂ := by simp
    rw [givePrev_snoc]
    split
    case isTrue hUsed =>
      have hLast : (addrs (B₁ ++ [p])).getLastD 0 = p.addr := by
        rw [addrs_append]
        exact getLastD_append_cons (addrs B₁) [] p.addr 0
      have hMark := (r.mark_eq (c := p) (by simp)).not.mpr (by simp [hUsed])
      have hSame : X64Heap.mergePrev h b.addr = h := by
        apply if_neg
        rw [r.prev_eq, hLast]
        exact fun hBoth => hMark hBoth.2
      rw [hSame]
      exact ⟨by simpa using r, fun x _ => rfl⟩
    case isFalse hFree =>
      rw [hAssoc] at r ⊢
      rw [List.append_assoc]
      exact r.merged (mergePrev_globals h b.addr) (r.mergePrev_mem (by simpa using hFree))

end Pieces

section Search

variable {base : Nat} {h : Heap}

theorem findFreeBlock_spec (size : Nat) {B₁ B₂ : List Block} {fuel : Nat} (r : Rep base h (B₁ ++ B₂)) (hFuel : B₂.length < fuel) :
    (findFreeBlock h size fuel ((addrs B₂).headD 0) = some 0 ∧
        ∀ b ∈ B₂, b.used = false → b.size < (size + headerSize) % 2 ^ 64) ∨
      ∃ C₁ b C₂, B₂ = C₁ ++ b :: C₂ ∧ b.used = false ∧ (size + headerSize) % 2 ^ 64 ≤ b.size ∧
        findFreeBlock h size fuel ((addrs B₂).headD 0) = some b.addr := by
  induction B₂ generalizing B₁ fuel with
  | nil =>
    obtain ⟨fuel, rfl⟩ := Nat.exists_eq_add_one_of_ne_zero (Nat.ne_of_gt hFuel)
    exact .inl ⟨rfl, by simp⟩
  | cons b B₂ ih =>
    obtain ⟨fuel, rfl⟩ := Nat.exists_eq_add_one_of_ne_zero (Nat.ne_of_gt (Nat.lt_of_le_of_lt (Nat.zero_le _) hFuel))
    have hb : b ∈ B₁ ++ b :: B₂ := by simp
    have hSome : b.addr ≠ 0 := Nat.pos_iff_ne_zero.mp (r.shape.addr_pos hb)
    have hSize := (r.shape.header b hb).size
    rw [addrs_cons, List.headD_cons, findFreeBlock, if_neg hSome]
    by_cases hFits : h.get .free b.addr ≠ 0 ∧ (size + headerSize) % 2 ^ 64 ≤ h.get .size b.addr
    · refine .inr ⟨[], b, B₂, rfl, (r.mark_eq hb).mp hFits.1, ?_, if_pos hFits⟩
      rw [← hSize]
      exact hFits.2
    · rw [if_neg hFits, r.next_eq]
      have hRest : Rep base h ((B₁ ++ [b]) ++ B₂) := by simpa using r
      have hFuel' : B₂.length < fuel := by simpa using hFuel
      obtain ⟨hNone, hAll⟩ | ⟨C₁, c, C₂, rfl, hFree, hLarge, hFound⟩ := ih hRest hFuel'
      · refine .inl ⟨hNone, ?_⟩
        intro c hc hFree
        obtain rfl | hc := List.mem_cons.mp hc
        · by_contra hLarge
          exact hFits ⟨(r.mark_eq hb).mpr hFree, by rw [hSize]; omega⟩
        · exact hAll c hc hFree
      · exact .inr ⟨b :: C₁, c, C₂, rfl, hFree, hLarge, hFound⟩

theorem Rep.length_lt {bs : List Block} (r : Rep base h bs) : bs.length < heapSize := by
  have hTotal := r.shape.tiles.sum_size
  have hEach : bs.length * headerSize ≤ (bs.map Block.size).sum := by
    have hRoom := r.shape.room
    clear hTotal r
    induction bs with
    | nil => exact Nat.le_of_eq (Nat.zero_mul headerSize)
    | cons b bs ih =>
      have hb := hRoom b List.mem_cons_self
      have hRest := ih fun c hc => hRoom c (List.mem_cons_of_mem b hc)
      rw [List.length_cons, List.map_cons, List.sum_cons, Nat.succ_mul]
      omega
  simp only [headerSize, heapSize] at *
  omega

theorem alignSize_eq {n : Nat} (hn : n + 15 < 2 ^ 64) : alignSize n = (n + 15) / 16 * 16 := by
  have hMask : 2 ^ 64 - 1 - 15 = (2 ^ 60 - 1) * 2 ^ 4 := by decide
  have hAll : 2 ^ (4 + 60) = 2 ^ 64 := rfl
  rw [alignSize, hMask, BitFields.and_field, hAll, Nat.mod_mod, Nat.mod_eq_of_lt hn]
  rfl

end Search

end UnixOS.X64Heap
