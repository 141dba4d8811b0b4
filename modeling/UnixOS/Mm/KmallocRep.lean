import UnixOS.Lib.DoublyLinked
import UnixOS.Lib.Tiling
import UnixOS.Mm.Kmalloc

/-! # What a consistent heap looks like

`Rep h bs fl` relates the bytes of a heap to the blocks that tile it and to its free list. Each piece
of the allocator is described once, by the change it makes to `bs` and `fl`. Between two pieces the
free list and the FREE marks may disagree, so their agreement is not part of `Rep`.
-/

namespace UnixOS.Kmalloc

open ByteMemory DoublyLinked Tiling

@[ext]
structure Block where
  addr : Nat
  size : Nat
  used : Bool
deriving DecidableEq, Repr

def Block.magic (b : Block) : Nat := if b.used then blockMagicUsed else blockMagicFree

def Block.flags (b : Block) : Nat := if b.used then 0 else blockFlagFree

def addrs (bs : List Block) : List Nat := bs.map Block.addr

structure Rep (h : Heap) (bs : List Block) (fl : List Nat) : Prop where
  start_pos : 0 < h.heapStart
  end_lt : h.heapEnd < 2 ^ 64
  tiles : Tiles Block.addr Block.size h.heapStart bs h.heapEnd
  room : ∀ b ∈ bs, headerSize ≤ b.size
  size_eq : ∀ b ∈ bs, h.get .size b.addr = b.size
  magic_eq : ∀ b ∈ bs, h.get .magic b.addr = b.magic
  flags_eq : ∀ b ∈ bs, h.get .flags b.addr = b.flags
  head_eq : h.freeList = fl.headD 0
  links : Seg (h.get .next) (h.get .prev) 0 fl 0
  nodup : fl.Nodup
  subset : ∀ a ∈ fl, a ∈ addrs bs

section Headers

variable {h : Heap} {f g : HeaderField} {a b v : Nat}

@[simp] theorem set_heapStart : (h.set f a v).heapStart = h.heapStart := rfl
@[simp] theorem set_heapEnd : (h.set f a v).heapEnd = h.heapEnd := rfl
@[simp] theorem set_freeList : (h.set f a v).freeList = h.freeList := rfl
@[simp] theorem set_heapUsed : (h.set f a v).heapUsed = h.heapUsed := rfl
@[simp] theorem set_heapInitialized : (h.set f a v).heapInitialized = h.heapInitialized := rfl

@[simp] theorem get_withFreeList (p : Nat) : Heap.get { h with freeList := p } f a = h.get f a := by
  rw [Heap.get, Heap.get]

theorem field_end (f : HeaderField) : f.offset + f.width ≤ headerSize := by
  cases f <;> decide

theorem field_disjoint (hfg : f ≠ g) :
    f.offset + f.width ≤ g.offset ∨ g.offset + g.width ≤ f.offset := by
  cases f <;> cases g <;> first | exact absurd rfl hfg | decide

theorem zero_lt_width (f : HeaderField) : 0 < 256 ^ f.width := Nat.pow_pos (by decide)

theorem magicUsed_lt : blockMagicUsed < 256 ^ HeaderField.width .magic := by
  simp only [blockMagicUsed, HeaderField.width]
  omega

theorem magicFree_lt : blockMagicFree < 256 ^ HeaderField.width .magic := by
  simp only [blockMagicFree, HeaderField.width]
  omega

theorem flagFree_lt : blockFlagFree < 256 ^ HeaderField.width .flags := by
  simp only [blockFlagFree, HeaderField.width]
  omega

def Apart (a b : Nat) : Prop := a + headerSize ≤ b ∨ b + headerSize ≤ a

theorem get_set_same (hv : v < 256 ^ f.width) : (h.set f a v).get f a = v :=
  load_store_same_of_lt hv

theorem get_set_apart (hab : Apart a b) : (h.set f a v).get g b = h.get g b := by
  apply load_store_disjoint
  have hf := field_end f
  have hg := field_end g
  rcases hab with hab | hab <;> omega

theorem get_set_field (hfg : f ≠ g) : (h.set f a v).get g a = h.get g a := by
  apply load_store_disjoint
  rcases field_disjoint hfg with h | h <;> omega

def put (hd : HeaderField → Nat → Nat) (f : HeaderField) (a v : Nat) : HeaderField → Nat → Nat :=
  fun g => if f = g then Function.update (hd g) a v else hd g

def Spaced (A : List Nat) : Prop := ∀ a ∈ A, ∀ b ∈ A, a = b ∨ Apart a b

def AgreeOn (A : List Nat) (h : Heap) (hd : HeaderField → Nat → Nat) : Prop :=
  ∀ g, ∀ b ∈ A, h.get g b = hd g b

theorem AgreeOn.set {A : List Nat} {hd : HeaderField → Nat → Nat} (hA : Spaced A) (ha : a ∈ A)
    (hv : v < 256 ^ f.width) (hAgree : AgreeOn A h hd) : AgreeOn A (h.set f a v) (put hd f a v) := by
  intro g b hb
  rcases hA a ha b hb with rfl | hApart
  · by_cases hfg : f = g
    · subst hfg
      rw [get_set_same hv, put, if_pos rfl, Function.update_self]
    · rw [get_set_field hfg, put, if_neg hfg, hAgree g a hb]
  · have hne : b ≠ a := by
      rintro rfl
      simp [Apart, headerSize] at hApart
    rw [get_set_apart hApart, hAgree g b hb, put]
    split
    · rw [Function.update_of_ne hne]
    · rfl

theorem AgreeOn.restrict {A B : List Nat} {hd : HeaderField → Nat → Nat} (hSub : ∀ a ∈ A, a ∈ B)
    (hAgree : AgreeOn B h hd) : AgreeOn A h hd :=
  fun g b hb => hAgree g b (hSub b hb)

theorem AgreeOn.congr_mem {A : List Nat} {h' : Heap} {hd : HeaderField → Nat → Nat}
    (hAgree : AgreeOn A h hd) (hMem : h'.mem = h.mem) : AgreeOn A h' hd := by
  intro g b hb
  rw [← hAgree g b hb, Heap.get, Heap.get, hMem]

theorem AgreeOn.refl (A : List Nat) (h : Heap) : AgreeOn A h h.get := fun _ _ _ => rfl

end Headers

section Tilings

variable {h : Heap} {bs : List Block} {fl : List Nat}

theorem spaced_of_tiles {a e : Nat} (hTiles : Tiles Block.addr Block.size a bs e)
    (hRoom : ∀ b ∈ bs, headerSize ≤ b.size) : Spaced (addrs bs) := by
  intro x hx y hy
  obtain ⟨b, hb, rfl⟩ := List.mem_map.mp hx
  obtain ⟨c, hc, rfl⟩ := List.mem_map.mp hy
  have hbr := hRoom b hb
  have hcr := hRoom c hc
  rcases hTiles.eq_or_disjoint hb hc with rfl | hLow | hHigh
  · exact Or.inl rfl
  · exact Or.inr (Or.inl (by omega))
  · exact Or.inr (Or.inr (by omega))

theorem Rep.spaced (r : Rep h bs fl) : Spaced (addrs bs) := spaced_of_tiles r.tiles r.room

theorem Rep.addr_bounds (r : Rep h bs fl) {a : Nat} (ha : a ∈ addrs bs) : 0 < a ∧ a < 2 ^ 64 := by
  obtain ⟨b, hb, rfl⟩ := List.mem_map.mp ha
  have hBounds := r.tiles.bounds hb
  have hStart := r.start_pos
  have hEnd := r.end_lt
  omega

theorem Rep.size_lt (r : Rep h bs fl) {b : Block} (hb : b ∈ bs) : b.size < 2 ^ 64 := by
  have hBounds := r.tiles.bounds hb
  have hEnd := r.end_lt
  omega

theorem mem_addrs {b : Block} (hb : b ∈ bs) : b.addr ∈ addrs bs := List.mem_map_of_mem hb

theorem Rep.mem_free_bounds (r : Rep h bs fl) {a : Nat} (ha : a ∈ fl) : 0 < a ∧ a < 2 ^ 64 :=
  r.addr_bounds (r.subset a ha)

end Tilings

section Links

variable {h h' : Heap} {bs : List Block} {fl : List Nat}

@[simp] theorem put_same (hd : HeaderField → Nat → Nat) (f : HeaderField) (a v : Nat) :
    put hd f a v f = Function.update (hd f) a v := if_pos rfl

theorem put_ne {hd : HeaderField → Nat → Nat} {f g : HeaderField} {a v : Nat} (hfg : f ≠ g) :
    put hd f a v g = hd g := if_neg hfg

theorem Rep.of_headers (r : Rep h bs fl) {hd : HeaderField → Nat → Nat} {bs' : List Block}
    {fl' : List Nat} (hStart : h'.heapStart = h.heapStart) (hEnd : h'.heapEnd = h.heapEnd)
    (hTiles : Tiles Block.addr Block.size h.heapStart bs' h.heapEnd)
    (hRoom : ∀ b ∈ bs', headerSize ≤ b.size) (hAgree : AgreeOn (addrs bs') h' hd)
    (hHeader : ∀ b ∈ bs', hd .size b.addr = b.size ∧ hd .magic b.addr = b.magic ∧
      hd .flags b.addr = b.flags)
    (hHead : h'.freeList = fl'.headD 0) (hLinks : Seg (hd .next) (hd .prev) 0 fl' 0)
    (hNodup : fl'.Nodup) (hSub : ∀ a ∈ fl', a ∈ addrs bs') : Rep h' bs' fl' where
  start_pos := hStart ▸ r.start_pos
  end_lt := hEnd ▸ r.end_lt
  tiles := hStart ▸ hEnd ▸ hTiles
  room := hRoom
  size_eq b hb := (hAgree .size _ (mem_addrs hb)).trans (hHeader b hb).1
  magic_eq b hb := (hAgree .magic _ (mem_addrs hb)).trans (hHeader b hb).2.1
  flags_eq b hb := (hAgree .flags _ (mem_addrs hb)).trans (hHeader b hb).2.2
  head_eq := hHead
  links := hLinks.congr (fun a ha => hAgree .next a (hSub a ha)) (fun a ha => hAgree .prev a (hSub a ha))
  nodup := hNodup
  subset := hSub

theorem Rep.header (r : Rep h bs fl) {b : Block} (hb : b ∈ bs) :
    h.get .size b.addr = b.size ∧ h.get .magic b.addr = b.magic ∧ h.get .flags b.addr = b.flags :=
  ⟨r.size_eq b hb, r.magic_eq b hb, r.flags_eq b hb⟩

theorem Rep.relink (r : Rep h bs fl) {hd : HeaderField → Nat → Nat} {fl' : List Nat}
    (hStart : h'.heapStart = h.heapStart) (hEnd : h'.heapEnd = h.heapEnd)
    (hAgree : AgreeOn (addrs bs) h' hd) (hSize : hd .size = h.get .size)
    (hMagic : hd .magic = h.get .magic) (hFlags : hd .flags = h.get .flags)
    (hHead : h'.freeList = fl'.headD 0) (hLinks : Seg (hd .next) (hd .prev) 0 fl' 0)
    (hNodup : fl'.Nodup) (hSub : ∀ a ∈ fl', a ∈ addrs bs) : Rep h' bs fl' := by
  refine r.of_headers hStart hEnd r.tiles r.room hAgree ?_ hHead hLinks hNodup hSub
  intro b hb
  rw [hSize, hMagic, hFlags]
  exact r.header hb

theorem Rep.push (r : Rep h bs fl) {x : Nat} (hx : x ∈ addrs bs) (hFresh : x ∉ fl) :
    Rep (pushFree h x) bs (x :: fl) := by
  have hxb := r.addr_bounds hx
  have hSub : ∀ a ∈ x :: fl, a ∈ addrs bs := by
    intro a ha
    rcases List.mem_cons.mp ha with rfl | ha
    · exact hx
    · exact r.subset a ha
  have hHead := r.head_eq
  cases fl with
  | nil =>
    have hFree : h.freeList = 0 := hHead
    have hEq : pushFree h x = { (h.set .next x 0).set .prev x 0 with freeList := x } := by
      simp [pushFree, hFree]
    rw [hEq]
    have hAgree := ((AgreeOn.refl (addrs bs) h).set r.spaced hx (zero_lt_width .next)).set r.spaced hx (zero_lt_width .prev)
    exact r.relink rfl rfl (hAgree.congr_mem rfl) rfl rfl rfl rfl
      ⟨Function.update_self .., Function.update_self .., trivial⟩ (List.nodup_singleton x) hSub
  | cons y ys =>
    have hFree : h.freeList = y := hHead
    have hyb := r.mem_free_bounds (a := y) List.mem_cons_self
    have hy : y ∈ addrs bs := r.subset y List.mem_cons_self
    have hxy : x ≠ y := fun hEq => hFresh (hEq ▸ List.mem_cons_self)
    have hEq : pushFree h x =
        { ((h.set .next x y).set .prev x 0).set .prev y x with freeList := x } := by
      simp [pushFree, hFree, Nat.pos_iff_ne_zero.mp hyb.1]
    rw [hEq]
    have hAgree := (((AgreeOn.refl (addrs bs) h).set r.spaced hx (f := .next) (v := y)
      hyb.2).set r.spaced hx (zero_lt_width .prev)).set r.spaced hy (f := .prev) hxb.2
    refine r.relink rfl rfl (hAgree.congr_mem rfl) rfl rfl rfl rfl ⟨?_, ?_, ?_⟩
      (List.nodup_cons.mpr ⟨hFresh, r.nodup⟩) hSub
    · exact (Function.update_of_ne hxy _ _).trans (Function.update_self ..)
    · exact Function.update_self ..
    · -- the old list, its first cell pointing back at `x`
      refine (r.links.retarget_start (q := x) r.nodup).congr ?_ ?_
      · intro a ha
        have hax : a ≠ x := by
          rintro rfl
          exact hFresh ha
        simp [put, hax]
      · intro a ha
        have hax : a ≠ x := by
          rintro rfl
          exact hFresh ha
        by_cases hay : a = y
        · simp [put, hay]
        · simp [put, hay, hax]

theorem Rep.bypass (r : Rep h bs fl) {x : Nat} {l₁ l₂ : List Nat} (hfl : fl = l₁ ++ x :: l₂) :
    ∃ hd : HeaderField → Nat → Nat,
      let h' := if l₁.getLastD 0 ≠ 0 then h.set .next (l₁.getLastD 0) (h.get .next x)
        else { h with freeList := h.get .next x }
      h'.heapStart = h.heapStart ∧ h'.heapEnd = h.heapEnd ∧
      h'.freeList = (l₁ ++ l₂).headD 0 ∧ AgreeOn (addrs bs) h' hd ∧
      (∀ g, g ≠ .next → hd g = h.get g) ∧ h'.get .next x = l₂.headD 0 ∧
      Seg (hd .next) (hd .prev) 0 l₁ (l₂.headD 0) ∧ Seg (hd .next) (hd .prev) x l₂ 0 := by
  subst hfl
  have hx : x ∈ addrs bs := r.subset x (by simp)
  obtain ⟨hLeft, hPrev, hNext, hRight⟩ := Seg.append_iff.mp r.links
  have hHead := r.head_eq
  cases l₁ with
  | nil =>
    refine ⟨h.get, ?_⟩
    simp only [List.getLastD_nil, ne_eq, not_true_eq_false, if_false, List.nil_append]
    exact ⟨trivial, trivial, hNext, (AgreeOn.refl _ h).congr_mem rfl, fun _ _ => trivial,
      (get_withFreeList _).trans hNext, trivial, hRight⟩
  | cons z zs =>
    have hp : (z :: zs).getLastD 0 ∈ z :: zs := getLastD_mem (List.cons_ne_nil z zs) 0
    have hpl : (z :: zs).getLastD 0 ∈ (z :: zs) ++ x :: l₂ := List.mem_append_left _ hp
    have hpb := r.mem_free_bounds hpl
    have hNodup := List.nodup_append.mp r.nodup
    have hpx : (z :: zs).getLastD 0 ≠ x := hNodup.2.2 _ hp x List.mem_cons_self
    have hNextLt : h.get .next x < 256 ^ HeaderField.width .next := load_lt _ _ _
    have hAgree := (AgreeOn.refl (addrs bs) h).set r.spaced (r.subset _ hpl) hNextLt
    refine ⟨put h.get .next ((z :: zs).getLastD 0) (h.get .next x), ?_⟩
    simp only [ne_eq, Nat.pos_iff_ne_zero.mp hpb.1, not_false_eq_true, if_true]
    refine ⟨rfl, rfl, hHead, hAgree, ?_, ?_, ?_, ?_⟩
    · intro g hg
      exact put_ne (Ne.symm hg)
    · rw [hAgree .next x hx, put_same, Function.update_of_ne hpx.symm]
      exact hNext
    · rw [put_same, hNext]
      exact hLeft.retarget_end hNodup.1 (List.cons_ne_nil z zs)
    · refine hRight.congr ?_ (fun _ _ => rfl)
      intro a ha
      have hap : a ≠ (z :: zs).getLastD 0 := fun hEq =>
        hNodup.2.2 _ hp a (List.mem_cons_of_mem x ha) hEq.symm
      rw [put_same, Function.update_of_ne hap]

theorem Rep.remove (r : Rep h bs fl) {x : Nat} {l₁ l₂ : List Nat} (hfl : fl = l₁ ++ x :: l₂) :
    Rep (removeFit h x (l₁.getLastD 0)) bs (l₁ ++ l₂) := by
  obtain ⟨hd, hStart, hEnd, hFree, hAgree, hKeep, hNext, hLeft, hRight⟩ := r.bypass hfl
  have hNodup : (l₁ ++ l₂).Nodup := by
    have hOld := hfl ▸ r.nodup
    exact hOld.sublist (List.Sublist.append_left (List.sublist_cons_self x l₂) l₁)
  have hSub : ∀ a ∈ l₁ ++ l₂, a ∈ addrs bs := by
    intro a ha
    apply r.subset a
    rw [hfl]
    rcases List.mem_append.mp ha with ha | ha
    · exact List.mem_append_left _ ha
    · exact List.mem_append_right _ (List.mem_cons_of_mem x ha)
  have hSize := hKeep .size (by decide)
  have hMagic := hKeep .magic (by decide)
  have hFlags := hKeep .flags (by decide)
  unfold removeFit
  generalize (if l₁.getLastD 0 ≠ 0 then h.set .next (l₁.getLastD 0) (h.get .next x)
    else { h with freeList := h.get .next x }) = h₁ at *
  cases l₂ with
  | nil =>
    simp only [hNext, List.headD_nil, ne_eq, not_true_eq_false, if_false]
    rw [List.append_nil] at *
    exact r.relink hStart hEnd hAgree hSize hMagic hFlags hFree hLeft hNodup hSub
  | cons y ys =>
    have hy : y ∈ addrs bs := hSub y (by simp)
    have hyb := r.addr_bounds hy
    have hLastLt : l₁.getLastD 0 < 2 ^ 64 := by
      rcases getLastD_eq_or_mem l₁ 0 with hZero | hMem
      · rw [hZero]
        decide
      · exact (r.addr_bounds (hSub _ (List.mem_append_left _ hMem))).2
    simp only [hNext, List.headD_cons, ne_eq, Nat.pos_iff_ne_zero.mp hyb.1, not_false_eq_true,
      if_true]
    refine r.relink hStart hEnd (hAgree.set r.spaced hy (f := .prev) hLastLt) hSize hMagic hFlags
      hFree (Seg.append_iff.mpr ⟨?_, ?_⟩) hNodup hSub
    · refine hLeft.congr (fun _ _ => rfl) ?_
      intro a ha
      have hay : a ≠ y := (List.nodup_append.mp hNodup).2.2 a ha y List.mem_cons_self
      rw [put_same, Function.update_of_ne hay]
    · rw [put_same]
      exact hRight.retarget_start (List.nodup_append.mp hNodup).2.1

end Links

section Blocks

variable {h : Heap} {b n : Block} {B₁ B₂ : List Block} {fl : List Nat}

theorem mem_split {c : Block} (hc : c ∈ B₁ ++ b :: B₂) : c = b ∨ c ∈ B₁ ∨ c ∈ B₂ := by
  rcases List.mem_append.mp hc with hc | hc
  · exact Or.inr (Or.inl hc)
  · rcases List.mem_cons.mp hc with hc | hc
    · exact Or.inl hc
    · exact Or.inr (Or.inr hc)

theorem mem_of_others {c : Block} (hc : c ∈ B₁ ∨ c ∈ B₂) : c ∈ B₁ ++ b :: B₂ := by
  rcases hc with hc | hc
  · exact List.mem_append_left _ hc
  · exact List.mem_append_right _ (List.mem_cons_of_mem b hc)

theorem Rep.remark (r : Rep h (B₁ ++ b :: B₂) fl) (hFresh : b.addr ∉ fl) (used : Bool) {h' : Heap}
    {hd : HeaderField → Nat → Nat} (hStart : h'.heapStart = h.heapStart)
    (hEnd : h'.heapEnd = h.heapEnd) (hFree : h'.freeList = h.freeList)
    (hAgree : AgreeOn (addrs (B₁ ++ b :: B₂)) h' hd) (hOld : ∀ g, ∀ a ≠ b.addr, hd g a = h.get g a)
    (hSize : hd .size b.addr = b.size) (hMagic : hd .magic b.addr = Block.magic { b with used })
    (hFlags : hd .flags b.addr = Block.flags { b with used }) :
    Rep h' (B₁ ++ { b with used } :: B₂) fl := by
  have hAddrs : addrs (B₁ ++ { b with used } :: B₂) = addrs (B₁ ++ b :: B₂) := by simp [addrs]
  have hTiles : Tiles Block.addr Block.size h.heapStart (B₁ ++ { b with used } :: B₂) h.heapEnd := by
    obtain ⟨m, hl, hr⟩ := Tiles.append_iff.mp r.tiles
    exact Tiles.append_iff.mpr ⟨m, hl, hr⟩
  refine r.of_headers hStart hEnd hTiles ?_ (hAddrs ▸ hAgree) ?_ (hFree.trans r.head_eq) ?_ r.nodup
    (hAddrs ▸ r.subset)
  · intro c hc
    rcases mem_split hc with rfl | hc
    · exact r.room b (by simp)
    · exact r.room c (mem_of_others hc)
  · intro c hc
    rcases mem_split hc with rfl | hc
    · exact ⟨hSize, hMagic, hFlags⟩
    · have hne := r.tiles.addr_ne hc
      rw [hOld .size _ hne, hOld .magic _ hne, hOld .flags _ hne]
      exact r.header (mem_of_others hc)
  · have hKeep : ∀ a ∈ fl, a ≠ b.addr := by
      rintro a ha rfl
      exact hFresh ha
    exact r.links.congr (fun a ha => hOld .next a (hKeep a ha)) (fun a ha => hOld .prev a (hKeep a ha))

theorem Rep.markUsed (r : Rep h (B₁ ++ b :: B₂) fl) (hFresh : b.addr ∉ fl) :
    Rep (markUsed h b.addr) (B₁ ++ { b with used := true } :: B₂) fl := by
  have hb : b.addr ∈ addrs (B₁ ++ b :: B₂) := mem_addrs (by simp)
  have hAgree := ((((AgreeOn.refl (addrs (B₁ ++ b :: B₂)) h).set r.spaced hb magicUsed_lt).set r.spaced hb (zero_lt_width .flags)).set
    r.spaced hb (zero_lt_width .owner)).set r.spaced hb (zero_lt_width .next)
  refine r.remark hFresh true rfl rfl rfl (hAgree.congr_mem rfl) ?_ ?_ ?_ ?_
  · intro g a ha
    cases g <;> simp [put, ha]
  · simpa [put] using r.size_eq b (by simp)
  · simp [put, Block.magic]
  · simp [put, Block.flags]

theorem markFree_mem (h : Heap) (a : Nat) : (markFree h a).mem =
    (((h.set .magic a blockMagicFree).set .flags a blockFlagFree).set .owner a 0).mem := by
  simp only [markFree, Heap.set]

theorem Rep.markFree (r : Rep h (B₁ ++ b :: B₂) fl) (hFresh : b.addr ∉ fl) :
    Rep (markFree h b.addr) (B₁ ++ { b with used := false } :: B₂) fl := by
  have hb : b.addr ∈ addrs (B₁ ++ b :: B₂) := mem_addrs (by simp)
  have hAgree := (((AgreeOn.refl (addrs (B₁ ++ b :: B₂)) h).set r.spaced hb magicFree_lt).set r.spaced hb flagFree_lt).set r.spaced hb (zero_lt_width .owner)
  refine r.remark hFresh false rfl rfl rfl (hAgree.congr_mem (markFree_mem h b.addr)) ?_ ?_ ?_ ?_
  · intro g a ha
    cases g <;> simp [put, ha]
  · simpa [put] using r.size_eq b (by simp)
  · simp [put, Block.magic]
  · simp [put, Block.flags]

end Blocks

end UnixOS.Kmalloc
