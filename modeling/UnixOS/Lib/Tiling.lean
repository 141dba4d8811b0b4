import Mathlib.Algebra.GroupWithZero.Nat
import Mathlib.Data.List.Basic

/-! # Consecutive blocks that tile a range of addresses

`Tiles addr size a bs e` says that the blocks `bs` lie end to end from `a` to `e`. Disjointness of
any two of them, and their containment in the range, are consequences and never assumed.
-/

namespace Tiling

variable {β : Type*} (addr size : β → Nat)

def Tiles : Nat → List β → Nat → Prop
  | a, [], e => a = e
  | a, b :: bs, e => addr b = a ∧ 0 < size b ∧ Tiles (a + size b) bs e

variable {addr size}

theorem Tiles.append_iff {a e : Nat} {xs ys : List β} :
    Tiles addr size a (xs ++ ys) e ↔ ∃ m, Tiles addr size a xs m ∧ Tiles addr size m ys e := by
  induction xs generalizing a with
  | nil =>
    constructor
    · intro h
      exact ⟨a, rfl, h⟩
    · rintro ⟨m, rfl, h⟩
      exact h
  | cons b xs ih =>
    constructor
    · rintro ⟨ha, hs, ht⟩
      obtain ⟨m, hx, hy⟩ := ih.mp ht
      exact ⟨m, ⟨ha, hs, hx⟩, hy⟩
    · rintro ⟨m, ⟨ha, hs, hx⟩, hy⟩
      exact ⟨ha, hs, ih.mpr ⟨m, hx, hy⟩⟩

theorem Tiles.congr {addr' size' : β → Nat} {a e : Nat} {bs : List β} (h : Tiles addr size a bs e)
    (hSame : ∀ b ∈ bs, addr' b = addr b ∧ size' b = size b) : Tiles addr' size' a bs e := by
  induction bs generalizing a with
  | nil => exact h
  | cons b bs ih =>
    obtain ⟨ha, hs, ht⟩ := h
    obtain ⟨hAddr, hSize⟩ := hSame b List.mem_cons_self
    refine ⟨hAddr.trans ha, hSize ▸ hs, hSize ▸ ih ht fun c hc => hSame c (List.mem_cons_of_mem b hc)⟩

theorem Tiles.le {a e : Nat} {bs : List β} (h : Tiles addr size a bs e) : a ≤ e := by
  induction bs generalizing a with
  | nil => exact Nat.le_of_eq h
  | cons b bs ih =>
    obtain ⟨_, _, ht⟩ := h
    exact Nat.le_trans (Nat.le_add_right a (size b)) (ih ht)

theorem Tiles.bounds {a e : Nat} {bs : List β} (h : Tiles addr size a bs e) {b : β} (hb : b ∈ bs) :
    a ≤ addr b ∧ 0 < size b ∧ addr b + size b ≤ e := by
  induction bs generalizing a with
  | nil => cases hb
  | cons c bs ih =>
    obtain ⟨ha, hs, ht⟩ := h
    rcases List.mem_cons.mp hb with rfl | hb
    · exact ⟨Nat.le_of_eq ha.symm, hs, ha ▸ ht.le⟩
    · obtain ⟨hlo, hpos, hhi⟩ := ih ht hb
      exact ⟨Nat.le_trans (Nat.le_add_right a (size c)) hlo, hpos, hhi⟩

theorem Tiles.eq_or_disjoint {a e : Nat} {bs : List β} (h : Tiles addr size a bs e) {b c : β}
    (hb : b ∈ bs) (hc : c ∈ bs) :
    b = c ∨ addr b + size b ≤ addr c ∨ addr c + size c ≤ addr b := by
  induction bs generalizing a with
  | nil => cases hb
  | cons d bs ih =>
    obtain ⟨ha, hs, ht⟩ := h
    rcases List.mem_cons.mp hb with hbd | hbs <;> rcases List.mem_cons.mp hc with hcd | hcs
    · exact Or.inl (hbd.trans hcd.symm)
    · subst hbd
      exact Or.inr (Or.inl (ha ▸ (ht.bounds hcs).1))
    · subst hcd
      exact Or.inr (Or.inr (ha ▸ (ht.bounds hbs).1))
    · exact ih ht hbs hcs

theorem Tiles.eq_of_addr_eq {a e : Nat} {bs : List β} (h : Tiles addr size a bs e) {b c : β}
    (hb : b ∈ bs) (hc : c ∈ bs) (hEq : addr b = addr c) : b = c := by
  have hpb := (h.bounds hb).2.1
  have hpc := (h.bounds hc).2.1
  rcases h.eq_or_disjoint hb hc with hSame | hLow | hHigh
  · exact hSame
  · omega
  · omega

theorem Tiles.sum_size {a e : Nat} {bs : List β} (h : Tiles addr size a bs e) :
    a + (bs.map size).sum = e := by
  induction bs generalizing a with
  | nil => exact h
  | cons b bs ih =>
    obtain ⟨_, _, ht⟩ := h
    have hTail := ih ht
    rw [List.map_cons, List.sum_cons]
    omega

theorem Tiles.around {a e : Nat} {xs ys : List β} {b c : β}
    (h : Tiles addr size a (xs ++ b :: ys) e) (hc : c ∈ xs ∨ c ∈ ys) :
    addr c + size c ≤ addr b ∨ addr b + size b ≤ addr c := by
  obtain ⟨m, hx, hb, _, hy⟩ := append_iff.mp h
  rcases hc with hc | hc
  · left
    rw [hb]
    exact (hx.bounds hc).2.2
  · right
    rw [hb]
    exact (hy.bounds hc).1

theorem Tiles.addr_ne {a e : Nat} {xs ys : List β} {b c : β}
    (h : Tiles addr size a (xs ++ b :: ys) e) (hc : c ∈ xs ∨ c ∈ ys) : addr c ≠ addr b := by
  have hMem : c ∈ xs ++ b :: ys := by
    rcases hc with hc | hc
    · exact List.mem_append_left _ hc
    · exact List.mem_append_right _ (List.mem_cons_of_mem b hc)
  have hcPos := (h.bounds hMem).2.1
  have hbPos := (h.bounds (b := b) (by simp)).2.1
  rcases h.around hc with hLow | hHigh <;> omega

theorem Tiles.next_block {a e : Nat} {xs ys : List β} {b : β}
    (h : Tiles addr size a (xs ++ b :: ys) e) :
    (ys = [] ∧ addr b + size b = e) ∨
      ∃ c zs, ys = c :: zs ∧ addr c = addr b + size b ∧ addr c < e := by
  obtain ⟨m, _, hb, _, ht⟩ := append_iff.mp h
  cases ys with
  | nil =>
    left
    exact ⟨rfl, hb ▸ ht⟩
  | cons c zs =>
    right
    obtain ⟨hc, hs, hz⟩ := ht
    have hle := hz.le
    exact ⟨c, zs, rfl, hb ▸ hc, by omega⟩

end Tiling
