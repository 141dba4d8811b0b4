import UnixOS.Lib.BitFields
import UnixOS.Mm.KmallocRep

/-! # Splitting, merging and searching

The two pieces of the allocator that change the tiling, and the first-fit loop over the free list.
-/

namespace UnixOS.Kmalloc

open ByteMemory DoublyLinked Tiling

section Split

variable {h : Heap} {b : Block} {B₁ B₂ : List Block} {l₁ l₂ : List Nat} {t : Nat}

def Block.front (b : Block) (t : Nat) : Block := { b with size := t }

def Block.back (b : Block) (t : Nat) : Block := ⟨b.addr + t, b.size - t, false⟩

theorem tiles_split {a e : Nat} (hTiles : Tiles Block.addr Block.size a (B₁ ++ b :: B₂) e)
    (hPos : 0 < t) (hlt : t < b.size) :
    Tiles Block.addr Block.size a (B₁ ++ b.front t :: b.back t :: B₂) e := by
  obtain ⟨m, hl, hb, _, hr⟩ := Tiles.append_iff.mp hTiles
  refine Tiles.append_iff.mpr ⟨m, hl, hb, hPos, ?_, ?_, ?_⟩
  · exact congrArg (· + t) hb
  · exact Nat.sub_pos_of_lt hlt
  · have hEnd : m + t + (b.size - t) = m + b.size := by omega
    change Tiles Block.addr Block.size (m + t + (b.size - t)) B₂ e
    rw [hEnd]
    exact hr

theorem Rep.back_fresh (r : Rep h (B₁ ++ b :: B₂) (l₁ ++ b.addr :: l₂)) (hPos : 0 < t)
    (hlt : t < b.size) {a : Nat} (ha : a ∈ addrs (B₁ ++ b :: B₂)) : a ≠ b.addr + t := by
  obtain ⟨c, hc, rfl⟩ := List.mem_map.mp ha
  rcases mem_split hc with rfl | hc
  · omega
  · have hcPos := (r.tiles.bounds (mem_of_others hc)).2.1
    rcases r.tiles.around hc with hLow | hHigh <;> omega

def splitHeaders (hd : HeaderField → Nat → Nat) (b : Block) (l₂ : List Nat) (t : Nat) :
    HeaderField → Nat → Nat :=
  let hd := put hd .size (b.addr + t) (b.size - t)
  let hd := put hd .magic (b.addr + t) blockMagicFree
  let hd := put hd .flags (b.addr + t) blockFlagFree
  let hd := put hd .owner (b.addr + t) 0
  let hd := put hd .next (b.addr + t) (l₂.headD 0)
  let hd := put hd .prev (b.addr + t) b.addr
  let hd := if l₂ = [] then hd else put hd .prev (l₂.headD 0) (b.addr + t)
  let hd := put hd .size b.addr t
  put hd .next b.addr (b.addr + t)

theorem Rep.splitBlock_agree (r : Rep h (B₁ ++ b :: B₂) (l₁ ++ b.addr :: l₂))
    (hFit : headerSize ≤ t) (hBig : t + headerSize + minAlloc ≤ b.size) :
    AgreeOn (addrs (B₁ ++ b.front t :: b.back t :: B₂)) (splitBlock h b.addr t)
      (splitHeaders h.get b l₂ t) ∧
    (splitBlock h b.addr t).heapStart = h.heapStart ∧
    (splitBlock h b.addr t).heapEnd = h.heapEnd ∧
    (splitBlock h b.addr t).freeList = h.freeList ∧
    (splitBlock h b.addr t).heapUsed = h.heapUsed ∧
    (splitBlock h b.addr t).heapInitialized = h.heapInitialized := by
  have hPos : 0 < t := by simp only [headerSize] at hFit; omega
  have hlt : t < b.size := by simp only [headerSize] at hBig; omega
  have hb : b ∈ B₁ ++ b :: B₂ := by simp
  have hNext : h.get .next b.addr = l₂.headD 0 := (Seg.at_split r.links).2
  have hSize := r.size_eq b hb
  have hSizeLt := r.size_lt hb
  have hBounds := r.tiles.bounds hb
  have hEnd := r.end_lt
  have hTiles := tiles_split (t := t) r.tiles hPos hlt
  have hSpaced : Spaced (addrs (B₁ ++ b.front t :: b.back t :: B₂)) := by
    apply spaced_of_tiles hTiles
    intro c hc
    simp only [List.mem_append, List.mem_cons] at hc
    rcases hc with hc | rfl | rfl | hc
    · exact r.room c (by simp [hc])
    · exact hFit
    · simp only [Block.back]
      omega
    · exact r.room c (by simp [hc])
  have hnb : b.addr + t ∈ addrs (B₁ ++ b.front t :: b.back t :: B₂) := by
    simp [addrs, Block.back]
  have hba : b.addr ∈ addrs (B₁ ++ b.front t :: b.back t :: B₂) := by simp [addrs, Block.front]
  have hne : b.addr ≠ b.addr + t := by omega
  have hDiff : (h.get .size b.addr + 2 ^ 64 - t) % 2 ^ 64 = b.size - t := by
    rw [hSize]
    omega
  have hHeadLt : l₂.headD 0 < 2 ^ 64 := by
    rcases headD_eq_or_mem l₂ 0 with hZero | hMem
    · rw [hZero]
      decide
    · exact (r.mem_free_bounds (List.mem_append_right _ (List.mem_cons_of_mem _ hMem))).2
  have hAgree₄ := ((((AgreeOn.refl _ h).set hSpaced hnb (f := .size) (v := b.size - t)
    (by simp only [HeaderField.width]; omega)).set hSpaced hnb magicFree_lt).set hSpaced hnb
    flagFree_lt).set hSpaced hnb (zero_lt_width .owner)
  have hNext₄ := (hAgree₄ .next b.addr hba).trans hNext
  have hAgree₆ := (hAgree₄.set hSpaced hnb (f := .next) hHeadLt).set hSpaced hnb (f := .prev)
    (v := b.addr) (by simp only [HeaderField.width]; omega)
  have hNext₆ := (hAgree₆ .next b.addr hba).trans
    ((Function.update_of_ne hne _ _).trans hNext)
  have hInner : b.addr + t < 256 ^ HeaderField.width .next := by
    simp only [HeaderField.width]
    omega
  have hTotal : t < 256 ^ HeaderField.width .size := by
    simp only [HeaderField.width]
    omega
  simp only [splitBlock, splitHeaders]
  rw [if_pos (by rw [hSize]; exact hBig), hDiff, hNext₄, hNext₆]
  cases l₂ with
  | nil =>
    simp only [List.headD_nil, ne_eq, not_true_eq_false, if_false, if_true]
    exact ⟨(hAgree₆.set hSpaced hba hTotal).set hSpaced hba hInner, rfl, rfl, rfl, rfl, rfl⟩
  | cons y ys =>
    have hy : y ∈ addrs (B₁ ++ b :: B₂) := r.subset y (by simp)
    have hyPos := (r.addr_bounds hy).1
    have hyNew : y ∈ addrs (B₁ ++ b.front t :: b.back t :: B₂) := by
      have hMem := hy
      simp only [addrs, List.map_append, List.map_cons, List.mem_append, List.mem_cons] at hMem ⊢
      rcases hMem with hMem | rfl | hMem
      · exact Or.inl hMem
      · exact Or.inr (Or.inl rfl)
      · exact Or.inr (Or.inr (Or.inr hMem))
    simp only [List.headD_cons, ne_eq, Nat.pos_iff_ne_zero.mp hyPos, not_false_eq_true, if_true,
      List.cons_ne_nil, if_false]
    exact ⟨((hAgree₆.set hSpaced hyNew (f := .prev) hInner).set hSpaced hba hTotal).set hSpaced hba
      hInner, rfl, rfl, rfl, rfl, rfl⟩

theorem splitHeaders_other {hd : HeaderField → Nat → Nat} {g : HeaderField} {a : Nat}
    (hb : a ≠ b.addr) (hn : a ≠ b.addr + t) (hg : g ≠ .prev ∨ a ∉ l₂) :
    splitHeaders hd b l₂ t g a = hd g a := by
  simp only [splitHeaders]
  cases l₂ with
  | nil => cases g <;> simp [put, hb, hn]
  | cons y ys =>
    rcases hg with hg | hg
    · cases g <;> simp_all [put]
    · have hay : a ≠ y := fun hEq => hg (hEq ▸ List.mem_cons_self)
      cases g <;> simp [put, hb, hn, hay]

theorem splitHeaders_links (r : Rep h (B₁ ++ b :: B₂) (l₁ ++ b.addr :: l₂)) (hPos : 0 < t)
    (hlt : t < b.size) :
    Seg (splitHeaders h.get b l₂ t .next) (splitHeaders h.get b l₂ t .prev) 0
      (l₁ ++ b.addr :: (b.addr + t) :: l₂) 0 := by
  obtain ⟨hLeft, hPrev, hNext, hRight⟩ := Seg.append_iff.mp r.links
  obtain ⟨_, hNodup₂, hCross⟩ := List.nodup_append.mp r.nodup
  obtain ⟨hbl₂, hNodup⟩ := List.nodup_cons.mp hNodup₂
  have hFresh : ∀ a ∈ l₁ ++ b.addr :: l₂, a ≠ b.addr + t := fun a ha =>
    r.back_fresh hPos hlt (r.subset a ha)
  have ht : t ≠ 0 := by omega
  refine Seg.append_iff.mpr ⟨hLeft.congr ?_ ?_, ?_, ?_, ?_, ?_, ?_⟩
  · intro a ha
    exact splitHeaders_other (hCross a ha _ List.mem_cons_self) (hFresh a (List.mem_append_left _ ha))
      (Or.inl (by decide))
  · intro a ha
    exact splitHeaders_other (hCross a ha _ List.mem_cons_self) (hFresh a (List.mem_append_left _ ha))
      (Or.inr fun hal => hCross a ha a (List.mem_cons_of_mem _ hal) rfl)
  · rw [← hPrev]
    simp only [splitHeaders]
    cases l₂ with
    | nil => simp [put, ht]
    | cons y ys =>
      have hby : b.addr ≠ y := fun hEq => hbl₂ (hEq ▸ List.mem_cons_self)
      simp [put, ht, hby]
  · simp only [splitHeaders]
    split <;> simp [put]
  · simp only [splitHeaders]
    cases l₂ with
    | nil => simp [put]
    | cons y ys =>
      have hyn : b.addr + t ≠ y := (hFresh y (by simp)).symm
      simp [put, hyn]
  · simp only [splitHeaders]
    split <;> simp [put, ht]
  · cases l₂ with
    | nil => trivial
    | cons y ys =>
      refine (hRight.retarget_start (q := b.addr + t) hNodup).congr ?_ ?_
      · intro a ha
        have hab : a ≠ b.addr := fun hEq => hbl₂ (hEq ▸ ha)
        exact splitHeaders_other hab (hFresh a (by simp [List.mem_cons.mp ha])) (Or.inl (by decide))
      · intro a ha
        have hab : a ≠ b.addr := fun hEq => hbl₂ (hEq ▸ ha)
        have han : a ≠ b.addr + t := hFresh a (by simp [List.mem_cons.mp ha])
        by_cases hay : a = y
        · subst hay
          simp [splitHeaders, put]
        · simp [splitHeaders, put, hay, han]

theorem Rep.split (r : Rep h (B₁ ++ b :: B₂) (l₁ ++ b.addr :: l₂))
    (hFit : headerSize ≤ t) (hBig : t + headerSize + minAlloc ≤ b.size) :
    Rep (splitBlock h b.addr t) (B₁ ++ b.front t :: b.back t :: B₂)
      (l₁ ++ b.addr :: (b.addr + t) :: l₂) := by
  have hPos : 0 < t := by simp only [headerSize] at hFit; omega
  have hlt : t < b.size := by simp only [headerSize] at hBig; omega
  have hb : b ∈ B₁ ++ b :: B₂ := by simp
  have ht : t ≠ 0 := by omega
  have hFresh : ∀ a ∈ addrs (B₁ ++ b :: B₂), a ≠ b.addr + t := fun a ha => r.back_fresh hPos hlt ha
  obtain ⟨hAgree, hStart, hEnd, hFree, _, _⟩ := r.splitBlock_agree hFit hBig
  refine r.of_headers hStart hEnd (tiles_split r.tiles hPos hlt) ?_ hAgree ?_ ?_
    (splitHeaders_links r hPos hlt) ?_ ?_
  · intro c hc
    simp only [List.mem_append, List.mem_cons] at hc
    rcases hc with hc | rfl | rfl | hc
    · exact r.room c (by simp [hc])
    · exact hFit
    · simp only [Block.back]
      omega
    · exact r.room c (by simp [hc])
  · intro c hc
    have hOther : ∀ c, c ∈ B₁ ∨ c ∈ B₂ → splitHeaders h.get b l₂ t .size c.addr = c.size ∧
        splitHeaders h.get b l₂ t .magic c.addr = c.magic ∧
        splitHeaders h.get b l₂ t .flags c.addr = c.flags := by
      intro c hc
      have hcb := r.tiles.addr_ne hc
      have hcn := hFresh _ (mem_addrs (mem_of_others (b := b) hc))
      rw [splitHeaders_other hcb hcn (Or.inl (by decide)),
        splitHeaders_other hcb hcn (Or.inl (by decide)),
        splitHeaders_other hcb hcn (Or.inl (by decide))]
      exact r.header (mem_of_others hc)
    simp only [List.mem_append, List.mem_cons] at hc
    rcases hc with hc | rfl | rfl | hc
    · exact hOther c (Or.inl hc)
    · have hOld := r.header hb
      simp only [splitHeaders, Block.front]
      split <;> simp [put, ht, hOld, Block.magic, Block.flags]
    · simp only [splitHeaders, Block.back]
      split <;> simp [put, ht, Block.magic, Block.flags]
    · exact hOther c (Or.inr hc)
  · rw [hFree, r.head_eq, headD_append, headD_append]
    rfl
  · have hNew : b.addr + t ∉ l₁ ++ b.addr :: l₂ := fun hMem => hFresh _ (r.subset _ hMem) rfl
    have hPerm : (l₁ ++ b.addr :: (b.addr + t) :: l₂).Perm ((b.addr + t) :: (l₁ ++ b.addr :: l₂)) := by
      have hSwap : ((l₁ ++ [b.addr]) ++ (b.addr + t) :: l₂).Perm
          ((b.addr + t) :: ((l₁ ++ [b.addr]) ++ l₂)) := List.perm_middle
      simpa using hSwap
    exact hPerm.nodup_iff.mpr (List.nodup_cons.mpr ⟨hNew, r.nodup⟩)
  · intro a ha
    have hOld : ∀ a ∈ addrs (B₁ ++ b :: B₂), a ∈ addrs (B₁ ++ b.front t :: b.back t :: B₂) := by
      intro a ha
      simp only [addrs, List.map_append, List.map_cons, List.mem_append, List.mem_cons] at ha ⊢
      rcases ha with ha | rfl | ha
      · exact Or.inl ha
      · exact Or.inr (Or.inl rfl)
      · exact Or.inr (Or.inr (Or.inr ha))
    by_cases han : a = b.addr + t
    · subst han
      simp [addrs, Block.back]
    · apply hOld a
      apply r.subset a
      simp only [List.mem_append, List.mem_cons] at ha ⊢
      rcases ha with ha | ha | ha | ha
      · exact Or.inl ha
      · exact Or.inr (Or.inl ha)
      · exact absurd ha han
      · exact Or.inr (Or.inr ha)

end Split

section Merge

variable {h : Heap} {b n : Block} {B₁ B₂ : List Block} {fl : List Nat}

def Block.joined (b n : Block) : Block := { b with size := b.size + n.size }

theorem Rep.merge (r : Rep h (B₁ ++ b :: n :: B₂) fl) (hn : n.addr ∉ fl) :
    Rep (mergeNext h b.addr n.addr) (B₁ ++ b.joined n :: B₂) fl := by
  have hb : b ∈ B₁ ++ b :: n :: B₂ := by simp
  have hnMem : n ∈ B₁ ++ b :: n :: B₂ := by simp
  obtain ⟨m, hl, hba, hbPos, hna, hnPos, hr⟩ := Tiles.append_iff.mp r.tiles
  have hEnd := r.end_lt
  have hnBounds := r.tiles.bounds hnMem
  have hNext : n.addr = b.addr + b.size := by rw [hna, hba]
  have hSum : (h.get .size b.addr + h.get .size n.addr) % 2 ^ 64 = b.size + n.size := by
    rw [r.size_eq b hb, r.size_eq n hnMem, Nat.mod_eq_of_lt]
    omega
  have hSumLt : b.size + n.size < 256 ^ HeaderField.width .size := by
    simp only [HeaderField.width]
    omega
  have hAgree := (((AgreeOn.refl (addrs (B₁ ++ b :: n :: B₂)) h).set r.spaced (mem_addrs hb)
    hSumLt).set r.spaced (mem_addrs hnMem) (zero_lt_width .magic)).set r.spaced (mem_addrs hnMem)
    (zero_lt_width .owner)
  have hTiles : Tiles Block.addr Block.size h.heapStart (B₁ ++ b.joined n :: B₂) h.heapEnd := by
    refine Tiles.append_iff.mpr ⟨m, hl, hba, Nat.add_pos_left hbPos n.size, ?_⟩
    change Tiles Block.addr Block.size (m + (b.size + n.size)) B₂ h.heapEnd
    rw [← Nat.add_assoc]
    exact hr
  have hOld : ∀ c, c ∈ B₁ ∨ c ∈ B₂ → c ∈ B₁ ++ b :: n :: B₂ := by
    rintro c (hc | hc) <;> simp [hc]
  have hNotB : ∀ c, c ∈ B₁ ∨ c ∈ B₂ → c.addr ≠ b.addr := by
    intro c hc
    exact hTiles.addr_ne (b := b.joined n) hc
  have hNotN : ∀ c, c ∈ B₁ ∨ c ∈ B₂ → c.addr ≠ n.addr := by
    intro c hc
    have hcPos := (r.tiles.bounds (hOld c hc)).2.1
    have hAround := hTiles.around (b := b.joined n) hc
    simp only [Block.joined] at hAround
    omega
  have hEq : mergeNext h b.addr n.addr =
      (((h.set .size b.addr (b.size + n.size)).set .magic n.addr 0).set .owner n.addr 0) := by
    simp only [mergeNext, hSum]
  rw [hEq]
  refine r.of_headers rfl rfl hTiles ?_ (hAgree.restrict ?_) ?_ r.head_eq r.links r.nodup ?_
  · intro c hc
    rcases mem_split hc with rfl | hc
    · exact Nat.le_trans (r.room b hb) (Nat.le_add_right b.size n.size)
    · exact r.room c (hOld c hc)
  · intro a ha
    obtain ⟨c, hc, rfl⟩ := List.mem_map.mp ha
    rcases mem_split hc with rfl | hc
    · change b.addr ∈ addrs (B₁ ++ b :: n :: B₂)
      exact mem_addrs hb
    · exact mem_addrs (hOld c hc)
  · intro c hc
    rcases mem_split hc with rfl | hc
    · have hbn : b.addr ≠ n.addr := by omega
      have hHeader := r.header hb
      simp only [Block.joined]
      simp [put, hbn, hHeader, Block.magic, Block.flags]
    · have hHeader := r.header (hOld c hc)
      simp [put, hNotB c hc, hNotN c hc, hHeader]
  · intro a ha
    obtain ⟨c, hc, rfl⟩ := List.mem_map.mp (r.subset a ha)
    simp only [List.mem_append, List.mem_cons] at hc
    rcases hc with hc | rfl | rfl | hc
    · exact mem_addrs (by simp [hc])
    · simp [addrs, Block.joined]
    · exact absurd ha hn
    · exact mem_addrs (by simp [hc])

theorem Rep.unlinkFree_eq {bs : List Block} (r : Rep h bs fl) {x : Nat} {l₁ l₂ : List Nat}
    (hfl : fl = l₁ ++ x :: l₂) : unlinkFree h x = removeFit h x (l₁.getLastD 0) := by
  have hPrev : h.get .prev x = l₁.getLastD 0 := (Seg.at_split (hfl ▸ r.links)).1
  have hx : x ∈ addrs bs := r.subset x (by simp [hfl])
  simp only [unlinkFree, removeFit, hPrev]
  by_cases hZero : l₁.getLastD 0 = 0
  · simp only [hZero, ne_eq, not_true_eq_false, if_false, get_withFreeList, hPrev]
  · have hMem : l₁.getLastD 0 ∈ fl := by
      rcases getLastD_eq_or_mem l₁ 0 with hEq | hMem
      · exact absurd hEq hZero
      · rw [hfl]
        exact List.mem_append_left _ hMem
    have hKeep : (h.set .next (l₁.getLastD 0) (h.get .next x)).get .prev x = l₁.getLastD 0 := by
      rcases r.spaced _ (r.subset _ hMem) x hx with hEq | hApart
      · rw [hEq, get_set_field (by decide), hPrev, hEq]
      · rw [get_set_apart hApart, hPrev]
    simp only [ne_eq, hZero, not_false_eq_true, if_true, hKeep]

end Merge

section Search

variable {h : Heap} {bs : List Block} {fl : List Nat}

theorem firstFit_step {t fuel x p : Nat} (hx : x ≠ 0) (hFree : h.get .magic x = blockMagicFree) :
    firstFit h t (fuel + 1) x p =
      if t ≤ h.get .size x then .found x p else firstFit h t fuel (h.get .next x) x := by
  rw [firstFit, if_neg hx, if_neg (not_not_intro hFree)]

/-- The loop stops at the first cell that is large enough, with its true predecessor, and with
enough fuel it does stop. -/
theorem firstFit_spec (hLinks : Seg (h.get .next) (h.get .prev) 0 fl 0)
    (hMagic : ∀ a ∈ fl, a ≠ 0 ∧ h.get .magic a = blockMagicFree) {t : Nat} :
    ∀ (l₂ l₁ : List Nat) (fuel : Nat), fl = l₁ ++ l₂ → l₂.length < fuel →
      (firstFit h t fuel (l₂.headD 0) (l₁.getLastD 0) = .unfit ∧ ∀ a ∈ l₂, h.get .size a < t) ∨
      ∃ k₁ x k₂, fl = k₁ ++ x :: k₂ ∧ t ≤ h.get .size x ∧
        firstFit h t fuel (l₂.headD 0) (l₁.getLastD 0) = .found x (k₁.getLastD 0) := by
  intro l₂
  induction l₂ with
  | nil =>
    intro l₁ fuel hfl hFuel
    cases fuel with
    | zero => cases hFuel
    | succ fuel =>
      left
      simp [firstFit]
  | cons x l₂ ih =>
    intro l₁ fuel hfl hFuel
    cases fuel with
    | zero => cases hFuel
    | succ fuel =>
      obtain ⟨hx, hFree⟩ := hMagic x (by simp [hfl])
      rw [List.headD_cons, firstFit_step hx hFree]
      by_cases hFit : t ≤ h.get .size x
      · right
        exact ⟨l₁, x, l₂, hfl, hFit, if_pos hFit⟩
      · rw [if_neg hFit]
        have hNext : h.get .next x = l₂.headD 0 := (Seg.at_split (hfl ▸ hLinks)).2
        have hRest := ih (l₁ ++ [x]) fuel (by simp [hfl]) (by simpa using hFuel)
        rw [getLastD_append_cons, List.getLastD_nil, ← hNext] at hRest
        refine hRest.imp_left fun hUnfit => ⟨hUnfit.1, fun a ha => ?_⟩
        obtain rfl | ha := List.mem_cons.mp ha
        · exact Nat.lt_of_not_le hFit
        · exact hUnfit.2 a ha

end Search

theorem land_mask_eq (x : Nat) (hx : x < 2 ^ 64) : x &&& (2 ^ 64 - 1 - 31) = x / 32 * 32 := by
  have hMask : 2 ^ 64 - 1 - 31 = (2 ^ 59 - 1) * 2 ^ 5 := by decide
  have hAll : 2 ^ (5 + 59) = 2 ^ 64 := rfl
  rw [hMask, BitFields.and_field, hAll, Nat.mod_eq_of_lt hx]
  rfl

theorem alignUp_eq {val : Nat} (h : val + 31 < 2 ^ 64) : alignUp val minAlloc = (val + 31) / 32 * 32 := by
  simp only [alignUp, minAlloc]
  rw [show val + 32 - 1 = val + 31 by omega, Nat.mod_eq_of_lt h]
  exact land_mask_eq _ h

end UnixOS.Kmalloc
