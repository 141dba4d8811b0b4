import Mathlib.Data.List.Perm.Subperm
import UnixOS.Mm.KmallocOps

/-! # The heap invariant over whole runs

Clients of the allocator hold pointers, release only what they hold and write only inside what they
asked for. Every call then returns, keeps the heap consistent and keeps live allocations apart.
-/

namespace UnixOS.Kmalloc

open ByteMemory DoublyLinked Tiling

def usedSize (bs : List Block) : Nat := (bs.map fun b => if b.used then b.size else 0).sum

structure Consistent (base : Nat) (h : Heap) (bs : List Block) (fl : List Nat) : Prop where
  rep : Rep h bs fl
  start_eq : h.heapStart = base
  end_eq : h.heapEnd = base + heapSize
  initialized : h.heapInitialized = true
  listed : ∀ b ∈ bs, b.addr ∈ fl ↔ b.used = false
  used_eq : h.heapUsed = usedSize bs

section Globals

-- the static variables a piece of the allocator leaves alone
structure SameGlobals (h' h : Heap) : Prop where
  start_eq : h'.heapStart = h.heapStart
  end_eq : h'.heapEnd = h.heapEnd
  used_eq : h'.heapUsed = h.heapUsed
  init_eq : h'.heapInitialized = h.heapInitialized

theorem SameGlobals.trans {h₁ h₂ h₃ : Heap} (h : SameGlobals h₁ h₂) (h' : SameGlobals h₂ h₃) :
    SameGlobals h₁ h₃ :=
  ⟨h.start_eq.trans h'.start_eq, h.end_eq.trans h'.end_eq, h.used_eq.trans h'.used_eq,
    h.init_eq.trans h'.init_eq⟩

theorem pushFree_globals (h : Heap) (x : Nat) : SameGlobals (pushFree h x) h := by
  simp only [pushFree]
  split <;> exact ⟨rfl, rfl, rfl, rfl⟩

theorem removeFit_globals (h : Heap) (x p : Nat) : SameGlobals (removeFit h x p) h := by
  simp only [removeFit]
  split <;> split <;> exact ⟨rfl, rfl, rfl, rfl⟩

theorem mergeNext_globals (h : Heap) (x n : Nat) : SameGlobals (mergeNext h x n) h :=
  ⟨rfl, rfl, rfl, rfl⟩

theorem splitBlock_globals (h : Heap) (x t : Nat) : SameGlobals (splitBlock h x t) h := by
  simp only [splitBlock]
  split
  · split <;> exact ⟨rfl, rfl, rfl, rfl⟩
  · exact ⟨rfl, rfl, rfl, rfl⟩

end Globals

section Accounting

@[simp] theorem usedSize_append (xs ys : List Block) :
    usedSize (xs ++ ys) = usedSize xs + usedSize ys := by
  simp [usedSize]

@[simp] theorem usedSize_cons (b : Block) (bs : List Block) :
    usedSize (b :: bs) = (if b.used then b.size else 0) + usedSize bs := by
  simp [usedSize]

theorem usedSize_le (bs : List Block) : usedSize bs ≤ (bs.map Block.size).sum := by
  induction bs with
  | nil => simp [usedSize]
  | cons b bs ih =>
    rw [usedSize_cons, List.map_cons, List.sum_cons]
    split <;> omega

theorem length_mul_le {bs : List Block} (h : ∀ b ∈ bs, headerSize ≤ b.size) :
    bs.length * headerSize ≤ (bs.map Block.size).sum := by
  induction bs with
  | nil => simp
  | cons b bs ih =>
    have hb := h b List.mem_cons_self
    have hRest := ih fun c hc => h c (List.mem_cons_of_mem b hc)
    rw [List.length_cons, List.map_cons, List.sum_cons, Nat.succ_mul]
    omega

end Accounting

section Consistency

variable {base : Nat} {h : Heap} {bs : List Block} {fl : List Nat}

theorem Consistent.total (c : Consistent base h bs fl) : (bs.map Block.size).sum = heapSize := by
  have hSum := c.rep.tiles.sum_size
  rw [c.start_eq, c.end_eq] at hSum
  omega

theorem Consistent.free_short (c : Consistent base h bs fl) : fl.length < heapSize := by
  have hBlocks : fl.length ≤ (addrs bs).length := (List.Nodup.subperm c.rep.nodup c.rep.subset).length_le
  have hRoom := length_mul_le c.rep.room
  rw [c.total] at hRoom
  have hLength : (addrs bs).length = bs.length := by simp [addrs]
  simp only [headerSize, heapSize] at *
  omega

theorem Consistent.used_le (c : Consistent base h bs fl) : h.heapUsed ≤ heapSize := by
  rw [c.used_eq, ← c.total]
  exact usedSize_le bs

theorem Consistent.free_block (c : Consistent base h bs fl) {a : Nat} (ha : a ∈ fl) :
    ∃ b ∈ bs, b.addr = a ∧ b.used = false := by
  obtain ⟨b, hb, hba⟩ := List.mem_map.mp (c.rep.subset a ha)
  exact ⟨b, hb, hba, (c.listed b hb).mp (hba ▸ ha)⟩

end Consistency

section Release

variable {base : Nat} {h : Heap} {b : Block} {B₁ B₂ : List Block} {fl : List Nat}

def Block.released (b : Block) : Block := { b with used := false }

theorem Consistent.released (c : Consistent base h (B₁ ++ b :: B₂) fl) (hUsed : b.used = true) :
    Consistent base (pushFree (markFree h b.addr) b.addr) (B₁ ++ b.released :: B₂) (b.addr :: fl) := by
  have hb : b ∈ B₁ ++ b :: B₂ := by simp
  have hFresh : b.addr ∉ fl := by
    intro hMem
    rw [(c.listed b hb).mp hMem] at hUsed
    cases hUsed
  have hMarked : Rep (markFree h b.addr) (B₁ ++ b.released :: B₂) fl := c.rep.markFree hFresh
  have hRep := hMarked.push (x := b.addr) (by simp [addrs, Block.released]) hFresh
  have hGlobals := pushFree_globals (markFree h b.addr) b.addr
  have hAccount : h.heapUsed = usedSize B₁ + (b.size + usedSize B₂) := by
    rw [c.used_eq, usedSize_append, usedSize_cons, if_pos hUsed]
  have hLe := c.used_le
  refine ⟨hRep, hGlobals.start_eq.trans c.start_eq, hGlobals.end_eq.trans c.end_eq,
    hGlobals.init_eq.trans c.initialized, ?_, ?_⟩
  · intro d hd
    rcases mem_split hd with rfl | hd
    · simp [Block.released]
    · have hne : d.addr ≠ b.addr := c.rep.tiles.addr_ne hd
      rw [List.mem_cons, or_iff_right hne]
      exact c.listed d (mem_of_others hd)
  · have hSize : h.get .size b.addr = b.size := c.rep.size_eq b hb
    have hUsedNow : (markFree h b.addr).heapUsed = (h.heapUsed + 2 ^ 64 - b.size) % 2 ^ 64 := by
      rw [← hSize]
      rfl
    rw [hGlobals.used_eq, hUsedNow, usedSize_append, usedSize_cons]
    simp only [Block.released, Bool.false_eq_true, if_false, heapSize] at *
    omega

theorem Consistent.absorb {n : Block} (c : Consistent base h (B₁ ++ b :: n :: B₂) fl)
    (hb : b.used = false) (hn : n.used = false) :
    ∃ fl', Consistent base (mergeNext (unlinkFree h n.addr) b.addr n.addr) (B₁ ++ b.joined n :: B₂)
      fl' := by
  have hbMem : b ∈ B₁ ++ b :: n :: B₂ := by simp
  have hnMem : n ∈ B₁ ++ b :: n :: B₂ := by simp
  obtain ⟨l₁, l₂, hfl⟩ := List.append_of_mem ((c.listed n hnMem).mpr hn)
  have hNodup := hfl ▸ c.rep.nodup
  have hOff : n.addr ∉ l₁ ++ l₂ := by
    have hPerm := hNodup.perm List.perm_middle
    exact (List.nodup_cons.mp hPerm).1
  rw [c.rep.unlinkFree_eq hfl]
  have hRep := (c.rep.remove hfl).merge hOff
  have hGlobals := (mergeNext_globals (removeFit h n.addr (l₁.getLastD 0)) b.addr n.addr).trans
    (removeFit_globals h n.addr (l₁.getLastD 0))
  have hMem : ∀ a, a ≠ n.addr → (a ∈ l₁ ++ l₂ ↔ a ∈ fl) := by
    intro a ha
    rw [hfl]
    simp [ha]
  have hTiles : Tiles Block.addr Block.size h.heapStart ((B₁ ++ [b]) ++ n :: B₂) h.heapEnd := by
    simpa using c.rep.tiles
  refine ⟨l₁ ++ l₂, hRep, hGlobals.start_eq.trans c.start_eq, hGlobals.end_eq.trans c.end_eq,
    hGlobals.init_eq.trans c.initialized, ?_, ?_⟩
  · intro d hd
    rcases mem_split hd with rfl | hd
    · have hbn : b.addr ≠ n.addr := hTiles.addr_ne (Or.inl (by simp))
      change b.addr ∈ l₁ ++ l₂ ↔ b.used = false
      rw [hMem b.addr hbn]
      exact c.listed b hbMem
    · have hOther : d ∈ B₁ ++ [b] ∨ d ∈ B₂ := by
        rcases hd with hd | hd
        · exact Or.inl (List.mem_append_left _ hd)
        · exact Or.inr hd
      rw [hMem d.addr (hTiles.addr_ne hOther)]
      apply c.listed d
      rcases hd with hd | hd <;> simp [hd]
  · rw [hGlobals.used_eq, c.used_eq]
    simp [Block.joined, hb, hn]

def freed (B₁ : List Block) (b : Block) : List Block → List Block
  | [] => B₁ ++ [b.released]
  | n :: B₂ => if n.used then B₁ ++ b.released :: n :: B₂ else B₁ ++ b.released.joined n :: B₂

theorem Consistent.freed (c : Consistent base h (B₁ ++ b :: B₂) fl) (hUsed : b.used = true) :
    ∃ fl', Consistent base (kfreeBlockLocked h b.addr) (freed B₁ b B₂) fl' := by
  have hReleased := c.released hUsed
  have hSize := hReleased.rep.size_eq b.released (by simp)
  change (pushFree (markFree h b.addr) b.addr).get .size b.addr = b.size at hSize
  simp only [kfreeBlockLocked, coalesce, hSize]
  rcases hReleased.rep.tiles.next_block with ⟨rfl, hLast⟩ | ⟨n, B₃, rfl, hnAddr, hnEnd⟩
  · -- the released block is the last one of the heap
    rw [if_neg (by simp only [Block.released] at hLast; omega)]
    exact ⟨_, hReleased⟩
  · change n.addr = b.addr + b.size at hnAddr
    have hMagic := hReleased.rep.magic_eq n (by simp)
    rw [← hnAddr, Kmalloc.freed]
    cases hn : n.used with
    | true =>
      have hNotFree : n.magic ≠ blockMagicFree := by simp [Block.magic, hn, blockMagicUsed, blockMagicFree]
      rw [if_neg (by rw [hMagic]; exact fun hBoth => hNotFree hBoth.2), if_pos rfl]
      exact ⟨_, hReleased⟩
    | false =>
      have hFree : n.magic = blockMagicFree := by simp [Block.magic, hn]
      rw [if_pos ⟨hnEnd, hMagic.trans hFree⟩, if_neg Bool.false_ne_true]
      exact hReleased.absorb rfl hn

theorem mem_freed {d : Block} (hd : d ∈ B₁ ++ b :: B₂) (hUsed : d.used = true) (hne : d.addr ≠ b.addr) :
    d ∈ Kmalloc.freed B₁ b B₂ := by
  have hOther : d ∈ B₁ ∨ d ∈ B₂ := by
    rcases mem_split hd with rfl | hd
    · exact absurd rfl hne
    · exact hd
  cases B₂ with
  | nil => exact mem_of_others hOther
  | cons n B₂ =>
    rw [Kmalloc.freed]
    split
    case isTrue hn => exact mem_of_others hOther
    case isFalse hn =>
      rcases hOther with hd | hd
      · exact mem_of_others (Or.inl hd)
      · rcases List.mem_cons.mp hd with rfl | hd
        · exact absurd hUsed hn
        · exact mem_of_others (Or.inr hd)

theorem kfreeBlockLocked_consistent {bs : List Block} (c : Consistent base h bs fl) (hb : b ∈ bs)
    (hUsed : b.used = true) :
    ∃ bs' fl', Consistent base (kfreeBlockLocked h b.addr) bs' fl' ∧
      ∀ d ∈ bs, d.used = true → d.addr ≠ b.addr → d ∈ bs' := by
  obtain ⟨B₁, B₂, rfl⟩ := List.append_of_mem hb
  obtain ⟨fl', hFreed⟩ := c.freed hUsed
  exact ⟨_, fl', hFreed, fun d hd hdUsed hne => mem_freed hd hdUsed hne⟩

end Release

section Allocation

variable {base : Nat} {h : Heap} {b : Block} {B₁ B₂ : List Block} {l₁ l₂ : List Nat}

def Block.taken (b : Block) : Block := { b with used := true }

theorem markUsed_span (h : Heap) (a : Nat) : (markUsed h a).heapStart = h.heapStart ∧
    (markUsed h a).heapEnd = h.heapEnd ∧ (markUsed h a).heapInitialized = h.heapInitialized :=
  ⟨rfl, rfl, rfl⟩

theorem markUsed_heapUsed (h : Heap) (a : Nat) :
    (markUsed h a).heapUsed = (h.heapUsed + h.get .size a) % 2 ^ 64 := by
  simp only [markUsed, set_heapUsed]
  rw [get_set_field (by decide), get_set_field (by decide), get_set_field (by decide),
    get_set_field (by decide)]

theorem Consistent.taken (c : Consistent base h (B₁ ++ b :: B₂) (l₁ ++ b.addr :: l₂)) :
    Consistent base (markUsed (removeFit h b.addr (l₁.getLastD 0)) b.addr) (B₁ ++ b.taken :: B₂)
      (l₁ ++ l₂) := by
  have hb : b ∈ B₁ ++ b :: B₂ := by simp
  have hFree : b.used = false := (c.listed b hb).mp (by simp)
  have hOff : b.addr ∉ l₁ ++ l₂ := by
    have hPerm := c.rep.nodup.perm List.perm_middle
    exact (List.nodup_cons.mp hPerm).1
  have hRemoved := c.rep.remove rfl
  have hRep : Rep _ (B₁ ++ b.taken :: B₂) (l₁ ++ l₂) := hRemoved.markUsed hOff
  have hGlobals := removeFit_globals h b.addr (l₁.getLastD 0)
  have hTotal := c.total
  have hUsedLe := usedSize_le (B₁ ++ b.taken :: B₂)
  obtain ⟨hStart, hEnd, hInit⟩ := markUsed_span (removeFit h b.addr (l₁.getLastD 0)) b.addr
  refine ⟨hRep, hStart.trans (hGlobals.start_eq.trans c.start_eq),
    hEnd.trans (hGlobals.end_eq.trans c.end_eq), hInit.trans (hGlobals.init_eq.trans c.initialized),
    ?_, ?_⟩
  · intro d hd
    rcases mem_split hd with rfl | hd
    · simpa [Block.taken] using hOff
    · have hne : d.addr ≠ b.addr := c.rep.tiles.addr_ne hd
      have hListed := c.listed d (mem_of_others hd)
      rw [← hListed]
      simp [hne]
  · rw [markUsed_heapUsed, hGlobals.used_eq, hRemoved.size_eq b hb, c.used_eq]
    simp only [usedSize_append, usedSize_cons, Block.taken, hFree, Bool.false_eq_true, if_false,
      if_true, List.map_append, List.map_cons, List.sum_append, List.sum_cons, heapSize] at *
    omega

theorem Consistent.split (c : Consistent base h (B₁ ++ b :: B₂) (l₁ ++ b.addr :: l₂)) {t : Nat}
    (hFit : headerSize ≤ t) (hBig : t + headerSize + minAlloc ≤ b.size) :
    Consistent base (splitBlock h b.addr t) (B₁ ++ b.front t :: b.back t :: B₂)
      (l₁ ++ b.addr :: (b.addr + t) :: l₂) := by
  have hb : b ∈ B₁ ++ b :: B₂ := by simp
  have hFree : b.used = false := (c.listed b hb).mp (by simp)
  have hPos : 0 < t := by simp only [headerSize] at hFit; omega
  have hlt : t < b.size := by simp only [headerSize] at hBig; omega
  have hGlobals := splitBlock_globals h b.addr t
  refine ⟨c.rep.split hFit hBig, hGlobals.start_eq.trans c.start_eq, hGlobals.end_eq.trans c.end_eq,
    hGlobals.init_eq.trans c.initialized, ?_, ?_⟩
  · have hOther : ∀ d, d ∈ B₁ ∨ d ∈ B₂ →
        (d.addr ∈ l₁ ++ b.addr :: (b.addr + t) :: l₂ ↔ d.used = false) := by
      intro d hd
      have hMem : d ∈ B₁ ++ b :: B₂ := mem_of_others hd
      have hne : d.addr ≠ b.addr + t := c.rep.back_fresh hPos hlt (mem_addrs hMem)
      rw [← c.listed d hMem]
      simp [hne]
    intro d hd
    simp only [List.mem_append, List.mem_cons] at hd
    rcases hd with hd | rfl | rfl | hd
    · exact hOther d (Or.inl hd)
    · simp [Block.front, hFree]
    · simp [Block.back]
    · exact hOther d (Or.inr hd)
  · rw [hGlobals.used_eq, c.used_eq]
    simp [Block.front, Block.back, hFree]

/-- The blocks after `b` was taken for `t` bytes, split if the rest is worth a block. -/
def served (B₁ : List Block) (b : Block) (B₂ : List Block) (t : Nat) : List Block :=
  if t + headerSize + minAlloc ≤ b.size then B₁ ++ (b.front t).taken :: b.back t :: B₂
  else B₁ ++ b.taken :: B₂

theorem Consistent.takeBlock (c : Consistent base h (B₁ ++ b :: B₂) (l₁ ++ b.addr :: l₂)) {t : Nat}
    (hFit : headerSize ≤ t) :
    ∃ fl', Consistent base (takeBlock h b.addr (l₁.getLastD 0) t) (served B₁ b B₂ t) fl' := by
  have hSizeEq := c.rep.size_eq b (by simp)
  rw [served]
  split
  case isTrue hBig => exact ⟨_, (c.split hFit hBig).taken (b := b.front t)⟩
  case isFalse hSmall =>
    have hWhole : splitBlock h b.addr t = h := by
      rw [splitBlock, if_neg (by rwa [hSizeEq])]
    rw [Kmalloc.takeBlock, hWhole]
    exact ⟨_, c.taken⟩

theorem mem_served (B₁ B₂ : List Block) {t : Nat} (hSize : t ≤ b.size) :
    (∃ u ∈ served B₁ b B₂ t, u.addr = b.addr ∧ u.used = true ∧ t ≤ u.size) ∧
      ∀ d, d ∈ B₁ ∨ d ∈ B₂ → d ∈ served B₁ b B₂ t := by
  rw [served]
  split
  case isTrue hBig =>
    refine ⟨⟨(b.front t).taken, by simp, rfl, rfl, Nat.le_refl t⟩, ?_⟩
    rintro d (hd | hd) <;> simp [hd]
  case isFalse hSmall =>
    exact ⟨⟨b.taken, by simp, rfl, rfl, hSize⟩, fun d hd => mem_of_others hd⟩

end Allocation

section Data

variable {base : Nat} {h h' : Heap} {bs : List Block} {fl : List Nat} {b : Block}

theorem Consistent.writeData (c : Consistent base h bs fl) (hb : b ∈ bs)
    (hMem : ∀ x, x < b.addr + headerSize ∨ b.addr + b.size ≤ x → h'.mem x = h.mem x)
    (hFree : h'.freeList = h.freeList) (hGlobals : SameGlobals h' h) : Consistent base h' bs fl := by
  have hAgree : AgreeOn (addrs bs) h' h.get := by
    intro g a ha
    obtain ⟨d, hd, rfl⟩ := List.mem_map.mp ha
    have hg := field_end g
    have hRoom := c.rep.room d hd
    apply load_congr
    intro x hlo hhi
    apply hMem
    rcases c.rep.tiles.eq_or_disjoint hd hb with rfl | hLow | hHigh
    · left
      omega
    · left
      omega
    · right
      omega
  have hRep := c.rep.relink hGlobals.start_eq hGlobals.end_eq hAgree rfl rfl rfl
    (hFree.trans c.rep.head_eq) c.rep.links c.rep.nodup c.rep.subset
  exact ⟨hRep, hGlobals.start_eq.trans c.start_eq, hGlobals.end_eq.trans c.end_eq,
    hGlobals.init_eq.trans c.initialized, c.listed, hGlobals.used_eq.trans c.used_eq⟩

theorem Consistent.zeroData (c : Consistent base h bs fl) (hb : b ∈ bs) {p n : Nat}
    (hLow : b.addr + headerSize ≤ p) (hHigh : p + n ≤ b.addr + b.size) :
    Consistent base (zeroData h p n) bs fl := by
  refine c.writeData hb ?_ rfl ⟨rfl, rfl, rfl, rfl⟩
  intro x hx
  change fill h.mem p n (fun _ => 0) x = h.mem x
  exact fill_outside (by omega)

theorem Consistent.copyData (c : Consistent base h bs fl) (hb : b ∈ bs) (dst src n : Nat)
    (hLow : b.addr + headerSize ≤ dst) (hHigh : dst + n ≤ b.addr + b.size) :
    Consistent base (copyData h dst src n) bs fl := by
  refine c.writeData hb ?_ rfl ⟨rfl, rfl, rfl, rfl⟩
  intro x hx
  change copy h.mem dst src n x = h.mem x
  exact copy_outside (by omega)

end Data

section Calls

variable {base : Nat} {h : Heap} {bs : List Block} {fl : List Nat}

theorem kmallocInit_consistent (hBase : 0 < base) (hTop : base + heapSize < 2 ^ 64) (h : Heap) :
    Consistent base (kmallocInit base h) [⟨base, heapSize, false⟩] [base] := by
  have hSpaced : Spaced [base] := by simp [Spaced]
  have hMem : base ∈ [base] := List.mem_cons_self
  have hAgree := (((((AgreeOn.refl [base] h).set hSpaced hMem (f := .size) (v := heapSize)
    (by simp only [HeaderField.width, heapSize]; omega)).set hSpaced hMem magicFree_lt).set hSpaced
    hMem flagFree_lt).set hSpaced hMem (zero_lt_width .owner)).set hSpaced hMem
    (zero_lt_width .next) |>.set hSpaced hMem (zero_lt_width .prev)
  have hHeader : AgreeOn [base] (kmallocInit base h) _ := hAgree.congr_mem rfl
  refine ⟨⟨hBase, hTop, ⟨rfl, by simp [heapSize], rfl⟩, ?_, ?_, ?_, ?_, rfl, ⟨?_, ?_, trivial⟩, ?_, ?_⟩,
    rfl, rfl, rfl, ?_, ?_⟩
  · simp [headerSize, heapSize]
  · simp [hHeader .size base hMem, put]
  · simp [hHeader .magic base hMem, put, Block.magic]
  · simp [hHeader .flags base hMem, put, Block.flags]
  · simp [hHeader .prev base hMem, put]
  · simp [hHeader .next base hMem, put]
  · exact List.nodup_singleton base
  · simp [addrs]
  · simp
  · rfl

theorem kfree_used (c : Consistent base h bs fl) {b : Block} (hb : b ∈ bs) (hUsed : b.used = true) :
    kfree h (b.addr + headerSize) = kfreeBlockLocked h b.addr := by
  have hMagic : h.get .magic b.addr = blockMagicUsed := by
    rw [c.rep.magic_eq b hb, Block.magic, if_pos hUsed]
  rw [kfree, if_neg (by simp [headerSize]), dataToBlock, Nat.add_sub_cancel, if_neg (not_not_intro hMagic)]

/-- The outcome of a request: every used block survives, and a result `p` other than `NULL` is the
data of a used block of its own with room for `size` bytes. -/
def Yields (bs bs' : List Block) (p size : Nat) : Prop :=
  (∀ d ∈ bs, d.used = true → d ∈ bs') ∧
  (p = 0 ∨ ∃ u ∈ bs', u.used = true ∧ p = u.addr + headerSize ∧ size + headerSize ≤ u.size ∧
    ∀ d ∈ bs, d.used = true → d.addr ≠ u.addr)

/-- A request that is served: the block it takes, the place of the block in both lists, and the heap after it. -/
structure Served (h : Heap) (bs : List Block) (fl : List Nat) (size t : Nat) (h' : Heap) (B₁ : List Block) (b : Block)
    (B₂ : List Block) (l₁ l₂ : List Nat) : Prop where
  blocks_eq : bs = B₁ ++ b :: B₂
  list_eq : fl = l₁ ++ b.addr :: l₂
  free : b.used = false
  cover : size + headerSize ≤ t
  fits : t ≤ b.size
  aligned : minAlloc ∣ t
  heap_eq : h' = takeBlock h b.addr (l₁.getLastD 0) t ∨
    h' = zeroData (takeBlock h b.addr (l₁.getLastD 0) t) (b.addr + headerSize) size

theorem kmalloc_outcome (c : Consistent base h bs fl) (size flags : Nat) :
    (kmalloc base h size flags = some (h, 0) ∧ (0 < size → size ≤ maxAlloc →
        ∀ b ∈ bs, b.used = false → b.size < alignUp (size + headerSize) minAlloc)) ∨
      ∃ t h' B₁ b B₂ l₁ l₂, kmalloc base h size flags = some (h', b.addr + headerSize) ∧
        Served h bs fl size t h' B₁ b B₂ l₁ l₂ := by
  by_cases hBad : size = 0 ∨ maxAlloc < size
  · exact Or.inl ⟨by simp [kmalloc, c.initialized, hBad], by omega⟩
  have hSmall : size ≤ maxAlloc := by omega
  have hTotal : alignUp (size + headerSize) minAlloc = (size + headerSize + 31) / 32 * 32 := by
    apply alignUp_eq
    simp only [maxAlloc, headerSize] at *
    omega
  have hCover : size + headerSize ≤ alignUp (size + headerSize) minAlloc := by
    rw [hTotal]
    omega
  have hMagic : ∀ a ∈ fl, a ≠ 0 ∧ h.get .magic a = blockMagicFree := by
    intro a ha
    obtain ⟨b, hb, rfl, hFree⟩ := c.free_block ha
    refine ⟨Nat.pos_iff_ne_zero.mp (c.rep.mem_free_bounds ha).1, ?_⟩
    rw [c.rep.magic_eq b hb, Block.magic, hFree]
    rfl
  have hSearch := firstFit_spec (t := alignUp (size + headerSize) minAlloc) c.rep.links hMagic fl []
    heapSize rfl c.free_short
  rw [List.getLastD_nil, ← c.rep.head_eq] at hSearch
  rcases hSearch with ⟨hUnfit, hAll⟩ | ⟨k₁, x, k₂, hfl, hFits, hFound⟩
  · refine Or.inl ⟨by simp [kmalloc, c.initialized, hBad, hUnfit], ?_⟩
    intro _ _ b hb hFree
    rw [← c.rep.size_eq b hb]
    exact hAll b.addr ((c.listed b hb).mpr hFree)
  · obtain ⟨b, hb, rfl, hFree⟩ := c.free_block (a := x) (by simp [hfl])
    obtain ⟨B₁, B₂, hbs⟩ := List.append_of_mem hb
    rw [c.rep.size_eq b hb] at hFits
    have hAligned : minAlloc ∣ alignUp (size + headerSize) minAlloc := by
      rw [hTotal]
      exact Nat.dvd_mul_left 32 _
    generalize hTake : takeBlock h b.addr (k₁.getLastD 0) (alignUp (size + headerSize) minAlloc) = taken
    have hRun : kmalloc base h size flags = some (if flags &&& gfpZero ≠ 0 then
        zeroData taken (b.addr + headerSize) size else taken, b.addr + headerSize) := by
      simp only [kmalloc, c.initialized, if_true, hBad, if_false, hFound, hTake]
      rfl
    refine Or.inr ⟨_, _, B₁, b, B₂, k₁, k₂, hRun, hbs, hfl, hFree, hCover, hFits, hAligned, ?_⟩
    rw [hTake]
    split
    · exact Or.inr rfl
    · exact Or.inl rfl

theorem Consistent.served_heap {h' : Heap} {size t : Nat} {B₁ B₂ : List Block} {b : Block} {l₁ l₂ : List Nat}
    (c : Consistent base h bs fl) (s : Served h bs fl size t h' B₁ b B₂ l₁ l₂) :
    ∃ fl', Consistent base h' (Kmalloc.served B₁ b B₂ t) fl' := by
  obtain ⟨rfl, rfl, -, hCover, hFits, -, hHeap⟩ := s
  obtain ⟨fl', hTaken⟩ := c.takeBlock (Nat.le_trans (Nat.le_add_left headerSize size) hCover)
  obtain rfl | rfl := hHeap
  · exact ⟨fl', hTaken⟩
  · obtain ⟨u, hu, huAddr, -, huSize⟩ := (mem_served B₁ B₂ hFits).1
    exact ⟨fl', hTaken.zeroData hu (by omega) (by omega)⟩

theorem kmalloc_cases (c : Consistent base h bs fl) (size flags : Nat) :
    ∃ h' p bs' fl', kmalloc base h size flags = some (h', p) ∧ Consistent base h' bs' fl' ∧
      ((p = 0 ∧ bs' = bs ∧ (0 < size → size ≤ maxAlloc →
          ∀ b ∈ bs, b.used = false → b.size < alignUp (size + headerSize) minAlloc)) ∨
        ∃ B₁ b B₂ t, bs = B₁ ++ b :: B₂ ∧ b.used = false ∧ p = b.addr + headerSize ∧
          size + headerSize ≤ t ∧ t ≤ b.size ∧ bs' = Kmalloc.served B₁ b B₂ t) := by
  obtain ⟨hRun, hTooLarge⟩ | ⟨t, h', B₁, b, B₂, l₁, l₂, hRun, hServed⟩ := kmalloc_outcome c size flags
  · exact ⟨h, 0, bs, fl, hRun, c, Or.inl ⟨rfl, rfl, hTooLarge⟩⟩
  · obtain ⟨fl', hC⟩ := c.served_heap hServed
    exact ⟨h', _, _, fl', hRun, hC, Or.inr ⟨B₁, b, B₂, t, hServed.blocks_eq, hServed.free, rfl, hServed.cover,
      hServed.fits, rfl⟩⟩

theorem Consistent.yields {B₁ B₂ : List Block} {b : Block} {t size : Nat}
    (c : Consistent base h (B₁ ++ b :: B₂) fl) (hFree : b.used = false) (hCover : size + headerSize ≤ t)
    (hSize : t ≤ b.size) : Yields (B₁ ++ b :: B₂) (served B₁ b B₂ t) (b.addr + headerSize) size := by
  have hUsedKept : ∀ d ∈ B₁ ++ b :: B₂, d.used = true → (d ∈ B₁ ∨ d ∈ B₂) := by
    intro d hd hdUsed
    rcases mem_split hd with rfl | hd
    · rw [hFree] at hdUsed
      cases hdUsed
    · exact hd
  obtain ⟨⟨u, hu, huAddr, huUsed, huSize⟩, hKeep⟩ := mem_served B₁ B₂ hSize
  refine ⟨fun d hd hdUsed => hKeep d (hUsedKept d hd hdUsed),
    Or.inr ⟨u, hu, huUsed, by rw [huAddr], Nat.le_trans hCover huSize, fun d hd hdUsed => ?_⟩⟩
  rw [huAddr]
  exact c.rep.tiles.addr_ne (hUsedKept d hd hdUsed)

theorem kmalloc_spec (c : Consistent base h bs fl) (size flags : Nat) :
    ∃ h' p, kmalloc base h size flags = some (h', p) ∧
      ∃ bs' fl', Consistent base h' bs' fl' ∧ Yields bs bs' p size := by
  obtain ⟨h', p, bs', fl', hRun, hC, hCases⟩ := kmalloc_cases c size flags
  refine ⟨h', p, hRun, bs', fl', hC, ?_⟩
  rcases hCases with ⟨hNull, rfl, -⟩ | ⟨B₁, b, B₂, t, rfl, hFree, rfl, hCover, hSize, rfl⟩
  · exact ⟨fun d hd _ => hd, Or.inl hNull⟩
  · exact c.yields hFree hCover hSize

end Calls

end UnixOS.Kmalloc
