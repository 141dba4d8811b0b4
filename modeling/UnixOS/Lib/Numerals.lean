import Mathlib.Algebra.GroupWithZero.Nat
import Mathlib.Data.List.Basic

/-! # Numbers in positional notation

The number that a list of digits stands for, the most significant one first, when a number has been read in front of it.
-/

namespace Numerals

variable {α : Type*} (base : Nat) (digit : α → Nat)

def value (cs : List α) (n : Nat) : Nat := cs.foldl (fun n c => n * base + digit c) n

@[simp] theorem value_nil (n : Nat) : value base digit [] n = n := rfl

@[simp] theorem value_cons (c : α) (cs : List α) (n : Nat) :
    value base digit (c :: cs) n = value base digit cs (n * base + digit c) := rfl

theorem le_value {base : Nat} (h : 0 < base) (cs : List α) (n : Nat) : n ≤ value base digit cs n := by
  induction cs generalizing n with
  | nil => exact Nat.le_refl n
  | cons c cs ih =>
    calc n ≤ n * base := Nat.le_mul_of_pos_right n h
      _ ≤ n * base + digit c := Nat.le_add_right ..
      _ ≤ value base digit cs (n * base + digit c) := ih _

end Numerals
