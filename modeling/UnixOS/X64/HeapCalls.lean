import Mathlib.Data.List.Chain
import UnixOS.X64.HeapSteps

/-! # The calls of the x86-64 heap

A call that is served changes which blocks are used by one block, keeps the data of all others, and leaves no two
free blocks side by side.
-/

namespace UnixOS.X64Heap

open ByteMemory Records DoublyLinked Tiling

def usedSize (bs : List Block) : Nat := (bs.map fun b => if b.used then b.size else 0).sum

def NoFreePair (bs : List Block) : Prop := bs.IsChain fun b c => b.used = true ∨ c.used = true

structure Consistent (base : Nat) (h : Heap) (bs : List Block) : Prop where
  rep : Rep base h bs
  apart : NoFreePair bs
  used_eq : h.heapUsed = headerSize + usedSize bs

def Block.HasData (d : Block) (x : Nat) : Prop := d.addr + headerSize ≤ x ∧ x < d.addr + d.size

section Lists

variable {bs bs' B₁ B₂ : List Block} {b c n : Block}

@[simp] theorem usedSize_append (xs ys : List Block) : usedSize (xs ++ ys) = usedSize xs + usedSize ys := by
  simp [usedSize]

@[simp] theorem usedSize_cons (b : Block) (bs : List Block) :
    usedSize (b :: bs) = (if b.used then b.size else 0) + usedSize bs := by
  simp [usedSize]

@[simp] theorem usedSize_nil : usedSize [] = 0 := rfl

theorem usedSize_le (bs : List Block) : usedSize bs ≤ (bs.map Block.size).sum := by
  induction bs with
  | nil => exact Nat.le_refl 0
  | cons b bs ih =>
    rw [usedSize_cons, List.map_cons, List.sum_cons]
    split <;> omega

theorem NoFreePair.congr (hMarks : bs'.map Block.used = bs.map Block.used) (h : NoFreePair bs) : NoFreePair bs' := by
  have hMap := (List.isChain_map (R := fun u v : Bool => u = true ∨ v = true) Block.used).mpr h
  rw [← hMarks] at hMap
  exact (List.isChain_map Block.used).mp hMap

theorem noFreePair_split :
    NoFreePair (B₁ ++ b :: B₂) ↔ NoFreePair (B₁ ++ [b]) ∧ NoFreePair (b :: B₂) := List.isChain_split

theorem NoFreePair.tail (h : NoFreePair (b :: bs)) : NoFreePair bs := List.IsChain.of_cons h

theorem NoFreePair.init (h : NoFreePair (B₁ ++ [b])) : NoFreePair B₁ := h.left_of_append

theorem NoFreePair.cons_used (h : NoFreePair bs) (hUsed : b.used = true) : NoFreePair (b :: bs) := by
  cases bs with
  | nil => exact List.isChain_singleton b
  | cons c bs => exact List.isChain_cons_cons.mpr ⟨.inl hUsed, h⟩

theorem NoFreePair.snoc_used (h : NoFreePair bs) (hUsed : b.used = true) : NoFreePair (bs ++ [b]) := by
  refine List.isChain_append.mpr ⟨h, List.isChain_singleton b, ?_⟩
  intro x _ y hy
  obtain rfl := Option.some.inj hy
  exact .inr hUsed

theorem takeNext_spec (hFree : b.used = false) (B₂ : List Block) :
    ∃ c B₃, takeNext b B₂ = c :: B₃ ∧ c.addr = b.addr ∧ c.used = false ∧ usedSize B₃ = usedSize B₂ ∧
      (∀ d : Block, d.used = true → (d ∈ B₃ ↔ d ∈ B₂)) ∧ (NoFreePair B₂ → NoFreePair (c :: B₃)) := by
  cases B₂ with
  | nil => exact ⟨b, [], rfl, rfl, hFree, rfl, fun _ _ => Iff.rfl, fun _ => List.isChain_singleton b⟩
  | cons n B₂ =>
    rw [takeNext]
    split
    case isTrue hUsed =>
      exact ⟨b, n :: B₂, rfl, rfl, hFree, rfl, fun _ _ => Iff.rfl,
        fun hApart => List.isChain_cons_cons.mpr ⟨.inr hUsed, hApart⟩⟩
    case isFalse hNot =>
      have hn : n.used = false := by simpa using hNot
      refine ⟨b.joined n, B₂, rfl, rfl, hFree, by simp [hn], ?_, ?_⟩
      · intro d hd
        have hne : d ≠ n := by
          rintro rfl
          rw [hn] at hd
          cases hd
        simp [hne]
      · intro hApart
        refine NoFreePair.congr ?_ hApart
        simp [Block.joined, hFree, hn]

theorem givePrev_spec (hFree : c.used = false) (B₁ : List Block) :
    usedSize (givePrev c B₁) = usedSize B₁ ∧ (∀ d : Block, d.used = true → (d ∈ givePrev c B₁ ↔ d ∈ B₁)) ∧
      ∀ B₃, NoFreePair B₁ → NoFreePair (c :: B₃) → NoFreePair (givePrev c B₁ ++ B₃) := by
  have hOther : ∀ d : Block, d.used = true → d ≠ c := by
    rintro d hd rfl
    rw [hFree] at hd
    cases hd
  induction B₁ using List.reverseRecOn with
  | nil =>
    refine ⟨by simp [givePrev, hFree], ?_, fun B₃ _ hApart => hApart⟩
    intro d hd
    simp [givePrev, hOther d hd]
  | append_singleton P p =>
    rw [givePrev_snoc]
    split
    case isTrue hUsed =>
      refine ⟨by simp [hFree], ?_, ?_⟩
      · intro d hd
        simp [hOther d hd]
      · intro B₃ hLeft hRight
        have hAssoc : P ++ [p, c] ++ B₃ = P ++ p :: c :: B₃ := by simp
        rw [hAssoc]
        exact noFreePair_split.mpr ⟨hLeft, hRight.cons_used hUsed⟩
    case isFalse hNot =>
      have hp : p.used = false := by simpa using hNot
      have hJoined : (p.joined c).used = false := hp
      refine ⟨by simp [hp, hJoined], ?_, ?_⟩
      · intro d hd
        have hne : d ≠ p := by
          rintro rfl
          rw [hp] at hd
          cases hd
        have hne' : d ≠ p.joined c := by
          rintro rfl
          rw [hJoined] at hd
          cases hd
        simp [hne, hne']
      · intro B₃ hLeft hRight
        have hAssoc : P ++ [p.joined c] ++ B₃ = P ++ p.joined c :: B₃ := by simp
        rw [hAssoc]
        refine noFreePair_split.mpr ⟨hLeft.congr (by simp [Block.joined]), hRight.congr ?_⟩
        simp [hJoined, hFree]

end Lists

section Calls

variable {base : Nat} {h h' : Heap} {bs bs' B₁ B₂ : List Block} {b : Block}

theorem Consistent.total (c : Consistent base h bs) : (bs.map Block.size).sum = heapSize := by
  have hSum := c.rep.shape.tiles.sum_size
  omega

theorem Consistent.used_le (c : Consistent base h bs) : h.heapUsed ≤ headerSize + heapSize := by
  rw [c.used_eq, ← c.total]
  exact Nat.add_le_add_left (usedSize_le bs) headerSize

theorem Rep.data_kept (r : Rep base h bs) (hOnly : HeadersOnly bs h h') {d : Block} (hd : d ∈ bs) {x : Nat}
    (hx : d.HasData x) : h'.mem x = h.mem x :=
  hOnly x (off_of_data r.shape.tiles r.shape.room hd hx.1 hx.2)

theorem Consistent.mem_others (c : Consistent base h (B₁ ++ b :: B₂)) {d : Block} :
    d ∈ B₁ ++ b :: B₂ ∧ d ≠ b ↔ d ∈ B₁ ∨ d ∈ B₂ := by
  constructor
  · rintro ⟨hd, hne⟩
    exact (mem_split hd).resolve_left hne
  · intro hd
    refine ⟨mem_of_others hd, ?_⟩
    rintro rfl
    exact c.rep.shape.tiles.addr_ne hd rfl

theorem Consistent.freed (c : Consistent base h (B₁ ++ b :: B₂)) (hUsed : b.used = true) :
    ∃ bs', Consistent base (coalesce (markFree h b.addr) b.addr) bs' ∧
      (∀ d : Block, d.used = true → (d ∈ bs' ↔ d ∈ B₁ ++ b :: B₂ ∧ d ≠ b)) ∧
      ∀ d ∈ bs', d.used = true → ∀ x, d.HasData x →
        (coalesce (markFree h b.addr) b.addr).mem x = h.mem x := by
  obtain ⟨r₁, hOnly₁, hUsed₁⟩ := c.rep.markFree
  obtain ⟨r₂, hOnly₂⟩ := r₁.mergeNext
  obtain ⟨n, B₃, hTake, hAddr, hFree, hSize₂, hMem₂, hApart₂⟩ := takeNext_spec (b := b.marked false) rfl B₂
  obtain ⟨hSize₃, hMem₃, hApart₃⟩ := givePrev_spec hFree B₁
  rw [hTake, marked_addr] at r₂
  rw [marked_addr] at hOnly₂ hAddr
  obtain ⟨r₃, hOnly₃⟩ := r₂.mergePrev
  rw [hAddr] at r₃ hOnly₃
  have hGlobals₂ := mergeNext_globals (X64Heap.markFree h b.addr) b.addr
  have hGlobals₃ := mergePrev_globals (X64Heap.mergeNext (X64Heap.markFree h b.addr) b.addr) b.addr
  obtain ⟨hLeft, hRight⟩ := noFreePair_split.mp c.apart
  have hMem : ∀ d : Block, d.used = true → (d ∈ givePrev n B₁ ++ B₃ ↔ d ∈ B₁ ∨ d ∈ B₂) := by
    intro d hd
    rw [List.mem_append, hMem₃ d hd, hMem₂ d hd]
  refine ⟨givePrev n B₁ ++ B₃, ⟨r₃, hApart₃ B₃ hLeft.init (hApart₂ hRight.tail), ?_⟩, ?_, ?_⟩
  · have hAccount := c.used_eq
    have hBound := c.used_le
    have hHeader : headerSize = 32 := rfl
    have hHeap : heapSize = 67108864 := rfl
    simp only [usedSize_append, usedSize_cons, hUsed, if_true] at hAccount
    rw [coalesce, hGlobals₃.used, hGlobals₂.used, hUsed₁, usedSize_append, hSize₃, hSize₂]
    omega
  · intro d hd
    rw [hMem d hd, c.mem_others]
  · intro d hd hdUsed x hx
    have hOthers := (hMem d hdUsed).mp hd
    have hd₃ : d ∈ B₁ ++ n :: B₃ := mem_of_others (hOthers.imp_right (hMem₂ d hdUsed).mpr)
    have hd₁ : d ∈ B₁ ++ b.marked false :: B₂ := mem_of_others hOthers
    rw [coalesce, r₂.data_kept hOnly₃ hd₃ hx, r₁.data_kept hOnly₂ hd₁ hx,
      c.rep.data_kept hOnly₁ (mem_of_others hOthers) hx]

def served (b : Block) (B₂ : List Block) (size : Nat) : List Block :=
  if size + headerSize + minBlockSize + headerSize ≤ b.size then
    (b.front (size + headerSize)).marked true :: b.back (size + headerSize) :: B₂
  else b.marked true :: B₂

theorem served_cons (b : Block) (B₂ : List Block) {size : Nat} (hFits : size + headerSize ≤ b.size) :
    ∃ u B₃, served b B₂ size = u :: B₃ ∧ u.addr = b.addr ∧ u.used = true ∧ size + headerSize ≤ u.size ∧
      u.size ≤ b.size ∧ usedSize B₃ = usedSize B₂ ∧ (∀ d : Block, d.used = true → (d ∈ B₃ ↔ d ∈ B₂)) ∧
      (NoFreePair (b :: B₂) → b.used = false → NoFreePair B₃) := by
  rw [served]
  split
  · refine ⟨(b.front (size + headerSize)).marked true, b.back (size + headerSize) :: B₂, rfl, rfl, rfl,
      Nat.le_refl _, hFits, by simp [Block.back], ?_, ?_⟩
    · intro d hd
      have hne : d ≠ b.back (size + headerSize) := by
        rintro rfl
        cases hd
      simp [hne]
    · intro hApart hFree
      exact hApart.congr (by simp [Block.back, hFree])
  · exact ⟨b.marked true, B₂, rfl, rfl, rfl, hFits, Nat.le_refl _, rfl, fun _ _ => Iff.rfl, fun hApart _ => hApart.tail⟩

theorem Consistent.taken (c : Consistent base h (B₁ ++ b :: B₂)) (hFree : b.used = false) {size : Nat}
    (hFits : size + headerSize ≤ b.size) :
    Consistent base (markUsed (splitBlock h b.addr size) b.addr) (B₁ ++ served b B₂ size) ∧
      ∀ d ∈ B₁ ++ b :: B₂, d.used = true → ∀ x, d.HasData x →
        (markUsed (splitBlock h b.addr size) b.addr).mem x = h.mem x := by
  have hHeader : headerSize = 32 := rfl
  have hHeap : heapSize = 67108864 := rfl
  have hMin : minBlockSize = 64 := rfl
  have hAccount := c.used_eq
  have hBound := c.used_le
  have hBlock := c.rep.shape.bounds (b := b) (by simp)
  simp only [usedSize_append, usedSize_cons, hFree, if_neg Bool.false_ne_true] at hAccount
  obtain ⟨hLeft, hRight⟩ := noFreePair_split.mp c.apart
  obtain ⟨u, B₃, hServed, -, hUsed, -, hLe, hSize, hMem, hApart⟩ := served_cons b B₂ hFits
  have hWhole : NoFreePair (B₁ ++ served b B₂ size) := by
    rw [hServed]
    exact noFreePair_split.mpr ⟨hLeft.init.snoc_used hUsed, (hApart hRight hFree).cons_used hUsed⟩
  have hOther : ∀ d ∈ B₁ ++ b :: B₂, d.used = true → d ∈ B₁ ∨ d ∈ B₂ := by
    intro d hd hdUsed
    refine (mem_split hd).resolve_left ?_
    rintro rfl
    rw [hFree] at hdUsed
    cases hdUsed
  rw [served] at hWhole ⊢
  by_cases hBig : size + headerSize + minBlockSize + headerSize ≤ b.size
  · rw [if_pos hBig] at hWhole ⊢
    obtain ⟨r₁, hGlobals₁, hOnly₁⟩ := c.rep.splitBlock hBig
    obtain ⟨r₂, hOnly₂, hUsed₂⟩ := Rep.markUsed (b := b.front (size + headerSize)) r₁
    rw [front_addr] at r₂ hOnly₂ hUsed₂
    refine ⟨⟨r₂, hWhole, ?_⟩, ?_⟩
    · have hFrontSize : (b.front (size + headerSize)).size = size + headerSize := rfl
      have hBackUsed : (b.back (size + headerSize)).used = false := rfl
      simp only [hUsed₂, hGlobals₁.used, usedSize_append, usedSize_cons, marked_used, marked_size, hBackUsed, if_true,
        if_neg Bool.false_ne_true, hFrontSize]
      omega
    · intro d hd hdUsed x hx
      have hIn : d ∈ B₁ ++ b.front (size + headerSize) :: b.back (size + headerSize) :: B₂ :=
        mem_of_others ((hOther d hd hdUsed).imp_right (List.mem_cons_of_mem _))
      rw [r₁.data_kept hOnly₂ hIn hx]
      exact hOnly₁ x (off_of_data r₁.shape.tiles r₁.shape.room hIn hx.1 hx.2)
  · rw [if_neg hBig] at hWhole ⊢
    have hSame : X64Heap.splitBlock h b.addr size = h := by
      have hTotal : (size + headerSize) % 2 ^ 64 = size + headerSize := by omega
      rw [X64Heap.splitBlock, hTotal]
      refine if_neg ?_
      rw [(c.rep.shape.header b (by simp)).size]
      omega
    obtain ⟨r₂, hOnly₂, hUsed₂⟩ := c.rep.markUsed
    rw [hSame]
    refine ⟨⟨r₂, hWhole, ?_⟩, fun d hd _ x hx => c.rep.data_kept hOnly₂ hd hx⟩
    simp only [hUsed₂, usedSize_append, usedSize_cons, marked_used, marked_size, if_true]
    omega

def Yields (bs bs' : List Block) (p size : Nat) : Prop :=
  (p = 0 ∧ bs' = bs ∧ (0 < size → ∀ b ∈ bs, b.used = false → b.size < (size + 15) / 16 * 16 + headerSize)) ∨
    ∃ u, u.used = true ∧ p = u.addr + headerSize ∧ size + headerSize ≤ u.size ∧
      (∀ d ∈ bs, d.used = true → d.addr ≠ u.addr) ∧ ∀ d : Block, d.used = true → (d ∈ bs' ↔ d ∈ bs ∨ d = u)

theorem kmalloc_spec (c : Consistent base h bs) {size : Nat} (hSize : size + 47 < 2 ^ 64) :
    ∃ h' p bs', kmalloc base h size = some (h', p) ∧ Consistent base h' bs' ∧ Yields bs bs' p size ∧
      ∀ d ∈ bs, d.used = true → ∀ x, d.HasData x → h'.mem x = h.mem x := by
  have hReady : (if h.heapInitialized then h else kmallocInit base h) = h := if_pos c.rep.initialized
  by_cases hZero : size = 0
  · refine ⟨h, 0, bs, by simp only [kmalloc, hReady, if_pos hZero], c, .inl ⟨rfl, rfl, ?_⟩, fun _ _ _ _ _ => rfl⟩
    omega
  have hAlign : alignSize size = (size + 15) / 16 * 16 := alignSize_eq (by omega)
  have hTotal : (alignSize size + headerSize) % 2 ^ 64 = (size + 15) / 16 * 16 + headerSize := by
    rw [hAlign]
    simp only [headerSize]
    omega
  have hHead : h.freeList = (addrs bs).headD 0 := by
    have hNonempty : bs ≠ [] := by
      rintro rfl
      have hEmpty : base = base + heapSize := c.rep.shape.tiles
      simp only [heapSize] at hEmpty
      omega
    obtain ⟨b, B, rfl⟩ := List.exists_cons_of_ne_nil hNonempty
    exact c.rep.head_eq.trans c.rep.shape.tiles.1.symm
  have rAll : Rep base h ([] ++ bs) := c.rep
  have hSearch := findFreeBlock_spec (alignSize size) rAll c.rep.length_lt
  rw [← hHead, hTotal] at hSearch
  obtain ⟨hNone, hAll⟩ | ⟨B₁, b, B₂, rfl, hFree, hLarge, hFound⟩ := hSearch
  · refine ⟨h, 0, bs, by simp only [kmalloc, hReady, if_neg hZero, hNone, if_true], c, .inl ⟨rfl, rfl, fun _ => hAll⟩,
      fun _ _ _ _ _ => rfl⟩
  · rw [← hAlign] at hLarge
    have hSome : b.addr ≠ 0 := Nat.pos_iff_ne_zero.mp (c.rep.shape.addr_pos (b := b) (by simp))
    obtain ⟨cNew, hData⟩ := c.taken hFree hLarge
    obtain ⟨u, B₃, hServed, hAddr, hUsed, hRoom, -, -, hMem, -⟩ := served_cons b B₂ hLarge
    refine ⟨_, b.addr + headerSize, _, by simp only [kmalloc, hReady, if_neg hZero, hFound, if_neg hSome], cNew, ?_,
      hData⟩
    refine .inr ⟨u, hUsed, by rw [hAddr], ?_, ?_, ?_⟩
    · rw [hAlign] at hRoom
      omega
    · intro d hd hdUsed hSame
      have hEq := c.rep.shape.tiles.eq_of_addr_eq hd (c := b) (by simp) (hSame.trans hAddr)
      rw [hEq, hFree] at hdUsed
      cases hdUsed
    · intro d hd
      have hne : d ≠ b := by
        rintro rfl
        rw [hFree] at hd
        cases hd
      rw [hServed]
      simp only [List.mem_append, List.mem_cons, hMem d hd, hne, false_or]
      exact or_left_comm.trans (by rw [or_comm, or_assoc])

theorem kfree_spec (c : Consistent base h bs) (hb : b ∈ bs) (hUsed : b.used = true) :
    ∃ bs', Consistent base (kfree h (b.addr + headerSize)) bs' ∧
      (∀ d : Block, d.used = true → (d ∈ bs' ↔ d ∈ bs ∧ d ≠ b)) ∧
      ∀ d ∈ bs', d.used = true → ∀ x, d.HasData x → (kfree h (b.addr + headerSize)).mem x = h.mem x := by
  have hMagic : h.get .magic b.addr = blockMagic := (c.rep.shape.header b hb).magic
  have hRun : kfree h (b.addr + headerSize) = coalesce (markFree h b.addr) b.addr := by
    rw [kfree, if_neg (by simp [headerSize]), Nat.add_sub_cancel, if_neg (not_not_intro hMagic)]
  obtain ⟨B₁, B₂, rfl⟩ := List.append_of_mem hb
  rw [hRun]
  exact c.freed hUsed

end Calls

end UnixOS.X64Heap
