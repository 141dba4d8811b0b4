import Mathlib.Algebra.GroupWithZero.Nat
import Mathlib.Tactic.Common

/-! # Sums in one's complement

Addition of words with the carry brought around, as a receiver of a checksum does it. A word up to `m` represents a
natural number if they are equal modulo `m` and zero together; the sum of a list represents its sum as numbers. For
words of two bytes it does not matter in which order the bytes of all words are taken.
-/

namespace OnesComplement

/-! ### Words up to `m` -/

def endAround (m x y : Nat) : Nat := if x + y ≤ m then x + y else x + y - m

def total (m : Nat) (words : List Nat) : Nat := words.foldl (endAround m) 0

/-- `x` is the word for the number `s`. Zero has two words: `m` is the one for its other multiples. -/
structure Represents (m x s : Nat) : Prop where
  le : x ≤ m
  mod : x % m = s % m
  zero : x = 0 ↔ s = 0

section Represents

variable {m x y s : Nat} {words : List Nat}

theorem Represents.endAround (h : Represents m x s) (hy : y ≤ m) : Represents m (endAround m x y) (s + y) := by
  have hMod : (x + y) % m = (s + y) % m := by rw [Nat.add_mod, h.mod, ← Nat.add_mod]
  have hZero := h.zero
  have hLe := h.le
  unfold OnesComplement.endAround
  split
  case isTrue hIn => exact ⟨hIn, hMod, by omega⟩
  case isFalse hOver =>
    refine ⟨by omega, ?_, by omega⟩
    rw [← Nat.mod_eq_sub_mod (by omega), hMod]

theorem represents_foldl (h : Represents m x s) (hWords : ∀ w ∈ words, w ≤ m) :
    Represents m (words.foldl (OnesComplement.endAround m) x) (s + words.sum) := by
  induction words generalizing x s with
  | nil => exact h
  | cons w words ih =>
    rw [List.sum_cons, ← Nat.add_assoc]
    exact ih (h.endAround (hWords w List.mem_cons_self)) fun v hv => hWords v (List.mem_cons_of_mem w hv)

theorem represents_total (hWords : ∀ w ∈ words, w ≤ m) : Represents m (total m words) words.sum := by
  have hZero : Represents m 0 0 := ⟨Nat.zero_le m, rfl, Iff.rfl⟩
  have hSum := represents_foldl hZero hWords
  rwa [Nat.zero_add] at hSum

theorem Represents.eq_max_iff (h : Represents m x s) : x = m ↔ m = 0 ∨ (s ≠ 0 ∧ s % m = 0) := by
  have hMod := h.mod
  have hZero := h.zero
  constructor
  · rintro rfl
    rw [Nat.mod_self] at hMod
    omega
  · rintro (rfl | ⟨hPos, hMultiple⟩)
    · exact Nat.le_zero.mp h.le
    · rcases Nat.lt_or_ge x m with hLt | hGe
      · rw [Nat.mod_eq_of_lt hLt, hMultiple] at hMod
        omega
      · exact Nat.le_antisymm h.le hGe

theorem Represents.add_complement (h : Represents m x s) : (s + (m - x)) % m = 0 := by
  have hSum : (x + (m - x)) % m = (s + (m - x)) % m := by rw [Nat.add_mod, h.mod, ← Nat.add_mod]
  rw [← hSum, Nat.add_sub_cancel' h.le, Nat.mod_self]

end Represents

/-! ### Words of two bytes -/

def littleWords : List UInt8 → List Nat
  | a :: b :: rest => (a.toNat + 256 * b.toNat) :: littleWords rest
  | [a] => [a.toNat]
  | [] => []

def bigWords : List UInt8 → List Nat
  | a :: b :: rest => (256 * a.toNat + b.toNat) :: bigWords rest
  | [a] => [256 * a.toNat]
  | [] => []

theorem bigWords_le (bytes : List UInt8) : ∀ w ∈ bigWords bytes, w ≤ 65535 := by
  fun_induction bigWords bytes with
  | case1 a b rest ih =>
    have ha := a.toNat_lt
    have hb := b.toNat_lt
    intro w hw
    obtain rfl | hw := List.mem_cons.mp hw
    · omega
    · exact ih w hw
  | case2 a =>
    have ha := a.toNat_lt
    intro w hw
    obtain rfl := List.mem_singleton.mp hw
    omega
  | case3 => exact nofun

theorem sum_bigWords (bytes : List UInt8) :
    (bigWords bytes).sum % 65535 = 256 * (littleWords bytes).sum % 65535 ∧
      ((bigWords bytes).sum = 0 ↔ (littleWords bytes).sum = 0) := by
  fun_induction bigWords bytes with
  | case1 a b rest ih =>
    simp only [littleWords, List.sum_cons]
    omega
  | case2 a =>
    simp only [littleWords, List.sum_cons, List.sum_nil]
    omega
  | case3 => exact ⟨rfl, Iff.rfl⟩

theorem total_bigWords_iff (bytes : List UInt8) :
    total 65535 (bigWords bytes) = 65535 ↔ (littleWords bytes).sum ≠ 0 ∧ (littleWords bytes).sum % 65535 = 0 := by
  obtain ⟨hMod, hZero⟩ := sum_bigWords bytes
  rw [(represents_total (bigWords_le bytes)).eq_max_iff]
  omega

theorem sum_littleWords_append {front : List UInt8} (hEven : front.length % 2 = 0) (back : List UInt8) :
    (littleWords (front ++ back)).sum = (littleWords front).sum + (littleWords back).sum := by
  fun_induction littleWords front with
  | case1 a b rest ih =>
    have hRest := ih (by simp only [List.length_cons] at hEven; omega)
    simp only [List.cons_append, littleWords, List.sum_cons, hRest, Nat.add_assoc]
  | case2 a => simp at hEven
  | case3 => simp

theorem sum_littleWords_le (bytes : List UInt8) : (littleWords bytes).sum ≤ 65535 * ((bytes.length + 1) / 2) := by
  fun_induction littleWords bytes with
  | case1 a b rest ih =>
    have ha := a.toNat_lt
    have hb := b.toNat_lt
    simp only [List.sum_cons, List.length_cons]
    omega
  | case2 a =>
    have ha := a.toNat_lt
    simp only [List.sum_cons, List.sum_nil, List.length_cons, List.length_nil]
    omega
  | case3 => exact Nat.zero_le _

end OnesComplement
