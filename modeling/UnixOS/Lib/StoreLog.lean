import Mathlib.Data.List.Range
import Mathlib.Logic.Function.Basic

/-! # Memory that remembers its stores

A buffer is what stands from an address on, without an end, and the list of the places that were stored to. That a
program stays inside is a fact about this list.
-/

namespace StoreLog

variable {α : Type*}

structure Buffer (α : Type*) where
  mem : Nat → α
  stores : List Nat

namespace Buffer

def store (b : Buffer α) (i : Nat) (a : α) : Buffer α := ⟨Function.update b.mem i a, i :: b.stores⟩

def storeAll (b : Buffer α) (i : Nat) : List α → Buffer α
  | [] => b
  | a :: as => (b.store i a).storeAll (i + 1) as

def text (b : Buffer α) (n : Nat) : List α := (List.range n).map b.mem

def Within (b : Buffer α) (n : Nat) : Prop := ∀ i ∈ b.stores, i < n

variable {b : Buffer α} {i n : Nat}

@[simp] theorem store_self (a : α) : (b.store i a).mem i = a := Function.update_self ..

theorem store_of_ne {j : Nat} (h : j ≠ i) (a : α) : (b.store i a).mem j = b.mem j := Function.update_of_ne h ..

@[simp] theorem length_text : (b.text n).length = n := by
  rw [text, List.length_map, List.length_range]

theorem text_succ : b.text (n + 1) = b.text n ++ [b.mem n] := by
  rw [text, List.range_succ, List.map_append]
  rfl

theorem text_congr {b' : Buffer α} (h : ∀ j < n, b'.mem j = b.mem j) : b'.text n = b.text n :=
  List.map_congr_left fun j hj => h j (List.mem_range.mp hj)

theorem text_store (h : n ≤ i) (a : α) : (b.store i a).text n = b.text n :=
  text_congr fun _ hj => store_of_ne (by omega) a

theorem text_store_self (a : α) : (b.store n a).text (n + 1) = b.text n ++ [a] := by
  rw [text_succ, text_store (Nat.le_refl n), store_self]

theorem storeAll_append (as cs : List α) :
    b.storeAll i (as ++ cs) = (b.storeAll i as).storeAll (i + as.length) cs := by
  induction as generalizing b i with
  | nil => rfl
  | cons a as ih =>
    rw [List.cons_append, storeAll, storeAll, ih, List.length_cons]
    congr 1
    omega

theorem text_storeAll (as : List α) : (b.storeAll n as).text (n + as.length) = b.text n ++ as := by
  induction as generalizing b n with
  | nil => rw [List.append_nil]; rfl
  | cons a as ih =>
    rw [storeAll, List.length_cons, show n + (as.length + 1) = n + 1 + as.length by omega, ih, text_store_self,
      List.append_assoc]
    rfl

theorem Within.mono {m : Nat} (h : b.Within n) (hLe : n ≤ m) : b.Within m := fun i hi => (h i hi).trans_le hLe

theorem Within.store (h : b.Within n) (hi : i < n) (a : α) : (b.store i a).Within n := by
  intro j hj
  rcases List.mem_cons.mp hj with rfl | hOld
  · exact hi
  · exact h j hOld

theorem Within.storeAll {as : List α} (h : b.Within n) (hi : i + as.length ≤ n) : (b.storeAll i as).Within n := by
  induction as generalizing b i with
  | nil => exact h
  | cons a as ih =>
    rw [List.length_cons] at hi
    exact ih (h.store (by omega) a) (by omega)

end Buffer

end StoreLog
