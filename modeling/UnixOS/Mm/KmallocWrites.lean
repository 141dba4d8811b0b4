import UnixOS.Mm.KmallocSafety

/-! # What the allocator writes

Each piece of the allocator writes header fields of known blocks. `Wrote P h h'` says that the memory of `h'` comes
from that of `h` by field writes that `P` permits; facts about all writes of a call follow by one induction.
-/

namespace UnixOS.Kmalloc

open ByteMemory DoublyLinked Tiling

inductive Wrote (P : HeaderField → Nat → Nat → Prop) (h : Heap) : Heap → Prop
  | same {h' : Heap} (hMem : h'.mem = h.mem) : Wrote P h h'
  | set {h₁ h' : Heap} {f : HeaderField} {a v : Nat} (hRest : Wrote P h h₁) (hPermit : P f a v)
      (hMem : h'.mem = (h₁.set f a v).mem) : Wrote P h h'

def Permit (A S : List Nat) (f : HeaderField) (a v : Nat) : Prop :=
  a ∈ A ∧ (f = .magic → v % 256 ^ HeaderField.width .magic = blockMagicUsed → a ∈ S)

section Steps

variable {P Q : HeaderField → Nat → Nat → Prop} {A S : List Nat} {f : HeaderField} {x v : Nat} {h h₁ h₂ h' : Heap}

theorem Wrote.refl (P : HeaderField → Nat → Nat → Prop) (h : Heap) : Wrote P h h := .same rfl

theorem Wrote.of_mem (hWrote : Wrote P h h₁) (hMem : h'.mem = h₁.mem) : Wrote P h h' := by
  cases hWrote with
  | same hOld => exact .same (hMem.trans hOld)
  | set hRest hPermit hOld => exact .set hRest hPermit (hMem.trans hOld)

theorem Wrote.trans (h₁₂ : Wrote P h h₁) (h₂₃ : Wrote P h₁ h₂) : Wrote P h h₂ := by
  induction h₂₃ with
  | same hMem => exact h₁₂.of_mem hMem
  | set _ hPermit hMem ih => exact .set ih hPermit hMem

theorem Wrote.link (hWrote : Wrote (Permit A S) h h₁) (hx : x ∈ A) (hf : f ≠ .magic) (v : Nat) :
    Wrote (Permit A S) h (h₁.set f x v) := .set hWrote ⟨hx, fun hMagic => absurd hMagic hf⟩ rfl

theorem Wrote.unmark (hWrote : Wrote (Permit A S) h h₁) (hx : x ∈ A)
    (hv : v % 256 ^ HeaderField.width .magic ≠ blockMagicUsed) : Wrote (Permit A S) h (h₁.set .magic x v) :=
  .set hWrote ⟨hx, fun _ hUsed => absurd hUsed hv⟩ rfl

theorem magicFree_ne : blockMagicFree % 256 ^ HeaderField.width .magic ≠ blockMagicUsed := by decide

theorem wrote_markFree (hx : x ∈ A) : Wrote (Permit A S) h (markFree h x) := by
  have hStart := Wrote.refl (Permit A S) h
  exact (((hStart.unmark hx magicFree_ne).link (f := .flags) hx (by decide) blockFlagFree).link (f := .owner) hx
    (by decide) 0).of_mem (markFree_mem h x)

theorem wrote_markUsed (hx : x ∈ A) (hMarked : x ∈ S) : Wrote (Permit A S) h (markUsed h x) := by
  have hMark : Wrote (Permit A S) h (h.set .magic x blockMagicUsed) :=
    .set (.refl _ h) ⟨hx, fun _ _ => hMarked⟩ rfl
  have hHeader := ((hMark.link (f := .flags) hx (by decide) 0).link (f := .owner) hx (by decide) 0).link (f := .next) hx
    (by decide) 0
  exact hHeader.of_mem (by simp only [markUsed])

theorem wrote_mergeNext {block next : Nat} (hBlock : block ∈ A) (hNext : next ∈ A) :
    Wrote (Permit A S) h (mergeNext h block next) :=
  (((Wrote.refl (Permit A S) h).link hBlock (by decide) _).unmark hNext (by decide)).link hNext (by decide) _

variable {bs : List Block} {fl : List Nat}

theorem wrote_pushFree (r : Rep h bs fl) (hSub : ∀ a ∈ addrs bs, a ∈ A) (hx : x ∈ A) :
    Wrote (Permit A S) h (pushFree h x) := by
  have hTwo : Wrote (Permit A S) h ((h.set .next x h.freeList).set .prev x 0) :=
    ((Wrote.refl _ h).link hx (by decide) _).link hx (by decide) _
  simp only [pushFree]
  split
  · rename_i hSome
    have hHead : h.freeList ∈ A := by
      have hHead := r.head_eq
      obtain hZero | hMem := headD_eq_or_mem fl 0
      · exact absurd (hHead.trans hZero) hSome
      · rw [hHead]
        exact hSub _ (r.subset _ hMem)
    exact (hTwo.link (f := .prev) hHead (by decide) x).of_mem rfl
  · exact hTwo.of_mem rfl

theorem wrote_removeFit (r : Rep h bs fl) (hSub : ∀ a ∈ addrs bs, a ∈ A) {l₁ l₂ : List Nat} (hfl : fl = l₁ ++ x :: l₂) :
    Wrote (Permit A S) h (removeFit h x (l₁.getLastD 0)) := by
  obtain ⟨hd, -, -, -, -, -, hNext, -⟩ := r.bypass hfl
  have hFirst : Wrote (Permit A S) h (if l₁.getLastD 0 ≠ 0 then h.set .next (l₁.getLastD 0) (h.get .next x)
      else { h with freeList := h.get .next x }) := by
    split
    · rename_i hSome
      have hLast : l₁.getLastD 0 ∈ l₁ := (getLastD_eq_or_mem l₁ 0).resolve_left hSome
      exact (Wrote.refl _ h).link (hSub _ (r.subset _ (by rw [hfl]; exact List.mem_append_left _ hLast))) (by decide) _
    · exact .same rfl
  unfold removeFit
  generalize (if l₁.getLastD 0 ≠ 0 then h.set .next (l₁.getLastD 0) (h.get .next x)
    else { h with freeList := h.get .next x }) = h₁ at *
  simp only [hNext]
  split
  · rename_i hSome
    have hHead : l₂.headD 0 ∈ l₂ := (headD_eq_or_mem l₂ 0).resolve_left hSome
    have hMem : l₂.headD 0 ∈ fl := by
      rw [hfl]
      exact List.mem_append_right _ (List.mem_cons_of_mem x hHead)
    exact hFirst.link (hSub _ (r.subset _ hMem)) (by decide) _
  · exact hFirst

end Steps

section Blocks

variable {base : Nat} {A S : List Nat} {h : Heap} {b : Block} {B₁ B₂ : List Block} {fl l₁ l₂ : List Nat} {t : Nat}

theorem wrote_splitBlock (r : Rep h (B₁ ++ b :: B₂) (l₁ ++ b.addr :: l₂)) (hFit : headerSize ≤ t)
    (hSub : ∀ a ∈ addrs (B₁ ++ b :: B₂), a ∈ A) (hNew : b.addr + t ∈ A) :
    Wrote (Permit A S) h (splitBlock h b.addr t) := by
  have hAddr : b.addr ∈ A := hSub _ (mem_addrs (by simp))
  have hApart : Apart (b.addr + t) b.addr := .inr (by omega)
  have hNext : h.get .next b.addr = l₂.headD 0 := (Seg.at_split r.links).2
  simp only [splitBlock]
  split
  · simp only [get_set_apart hApart, hNext]
    have hHeader : Wrote (Permit A S) h (((((h.set .size (b.addr + t) ((h.get .size b.addr + 2 ^ 64 - t) % 2 ^ 64)).set
        .magic (b.addr + t) blockMagicFree).set .flags (b.addr + t) blockFlagFree).set .owner (b.addr + t) 0).set
        .next (b.addr + t) (l₂.headD 0) |>.set .prev (b.addr + t) b.addr) :=
      ((((((Wrote.refl _ h).link hNew (by decide) _).unmark hNew magicFree_ne).link hNew (by decide) _).link hNew
        (by decide) _).link hNew (by decide) _).link hNew (by decide) _
    refine Wrote.link (Wrote.link ?_ hAddr (by decide) _) hAddr (by decide) _
    split
    · rename_i hSome
      have hHead : l₂.headD 0 ∈ l₂ := (headD_eq_or_mem l₂ 0).resolve_left hSome
      have hMem : l₂.headD 0 ∈ l₁ ++ b.addr :: l₂ := List.mem_append_right _ (List.mem_cons_of_mem _ hHead)
      exact hHeader.link (hSub _ (r.subset _ hMem)) (by decide) _
    · exact hHeader
  · exact .refl _ h

theorem wrote_takeBlock (c : Consistent base h (B₁ ++ b :: B₂) (l₁ ++ b.addr :: l₂)) (hFit : headerSize ≤ t)
    (hSub : ∀ a ∈ addrs (B₁ ++ b :: B₂), a ∈ A) (hNew : b.addr + t ∈ A) (hMarked : b.addr ∈ S) :
    Wrote (Permit A S) h (takeBlock h b.addr (l₁.getLastD 0) t) := by
  have hAddr : b.addr ∈ A := hSub _ (mem_addrs (by simp))
  refine ((wrote_splitBlock c.rep hFit hSub hNew).trans ?_).trans (wrote_markUsed hAddr hMarked)
  by_cases hBig : t + headerSize + minAlloc ≤ b.size
  · refine wrote_removeFit (c.split hFit hBig).rep ?_ rfl
    intro a ha
    simp only [addrs, List.map_append, List.map_cons, List.mem_append, List.mem_cons] at ha hSub
    obtain ha | ha | ha | ha := ha
    · exact hSub a (.inl ha)
    · exact hSub a (.inr (.inl ha))
    · rwa [ha]
    · exact hSub a (.inr (.inr ha))
  · have hSame : splitBlock h b.addr t = h := by
      rw [splitBlock, if_neg (by rwa [c.rep.size_eq b (by simp)])]
    rw [hSame]
    exact wrote_removeFit c.rep hSub rfl

theorem wrote_release (c : Consistent base h (B₁ ++ b :: B₂) fl) (hUsed : b.used = true) :
    Wrote (Permit (addrs (B₁ ++ b :: B₂)) S) (markFree h b.addr) (kfreeBlockLocked h b.addr) := by
  have hb : b ∈ B₁ ++ b :: B₂ := by simp
  have hFresh : b.addr ∉ fl := by
    intro hMem
    rw [(c.listed b hb).mp hMem] at hUsed
    cases hUsed
  have hMarked : Rep (markFree h b.addr) (B₁ ++ b.released :: B₂) fl := c.rep.markFree hFresh
  have hAddrs : addrs (B₁ ++ b.released :: B₂) = addrs (B₁ ++ b :: B₂) := by simp [addrs, Block.released]
  have hSub : ∀ a ∈ addrs (B₁ ++ b.released :: B₂), a ∈ addrs (B₁ ++ b :: B₂) := fun a ha => hAddrs ▸ ha
  have hPush : Wrote (Permit (addrs (B₁ ++ b :: B₂)) S) (markFree h b.addr) (pushFree (markFree h b.addr) b.addr) :=
    wrote_pushFree hMarked hSub (mem_addrs hb)
  have hReleased := c.released hUsed
  have hSize := hReleased.rep.size_eq b.released (by simp)
  change (pushFree (markFree h b.addr) b.addr).get .size b.addr = b.size at hSize
  simp only [kfreeBlockLocked, coalesce, hSize]
  split
  · rename_i hMerge
    obtain ⟨hInside, hMagic⟩ := hMerge
    obtain ⟨rfl, hLast⟩ | ⟨n, B₃, rfl, hnAddr, hnEnd⟩ := hReleased.rep.tiles.next_block
    · change b.addr + b.size = _ at hLast
      omega
    · change n.addr = b.addr + b.size at hnAddr
      have hnMem : n ∈ B₁ ++ b.released :: n :: B₃ := by simp
      rw [← hnAddr] at hMagic
      rw [← hnAddr]
      rw [hReleased.rep.magic_eq n hnMem, Block.magic] at hMagic
      have hn : n.used = false := by
        cases hnUsed : n.used with
        | false => rfl
        | true =>
          rw [hnUsed] at hMagic
          cases hMagic
      obtain ⟨k₁, k₂, hfl⟩ := List.append_of_mem ((hReleased.listed n hnMem).mpr hn)
      rw [hReleased.rep.unlinkFree_eq hfl]
      exact (hPush.trans (wrote_removeFit hReleased.rep hSub hfl)).trans
        (wrote_mergeNext (mem_addrs hb) (hSub _ (mem_addrs hnMem)))
  · exact hPush

end Blocks

end UnixOS.Kmalloc
