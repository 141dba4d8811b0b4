import Mathlib.Data.List.Basic
import Mathlib.Logic.Function.Basic

/-! # Singly linked lists

`Chain next p xs`: following `next` from the pointer `p` visits exactly `xs` and ends in the null
pointer.
-/

namespace SinglyLinked

variable {α : Type*} {next next' : α → Option α} {p : Option α} {x y t : α} {xs ys : List α}

def Chain (next : α → Option α) : Option α → List α → Prop
  | p, [] => p = none
  | p, x :: xs => p = some x ∧ Chain next (next x) xs

theorem Chain.congr (h : Chain next p xs) (hSame : ∀ x ∈ xs, next' x = next x) : Chain next' p xs := by
  induction xs generalizing p with
  | nil => exact h
  | cons x xs ih =>
    refine ⟨h.1, ?_⟩
    rw [hSame x (by simp)]
    exact ih h.2 fun z hz => hSame z (by simp [hz])

theorem Chain.head_mem (h : Chain next (some x) xs) : x ∈ xs := by
  cases xs with
  | nil => cases h
  | cons y xs => exact Option.some.inj h.1 ▸ List.mem_cons_self

theorem Chain.next_mem (h : Chain next p xs) (hx : x ∈ xs) (hNext : next x = some y) : y ∈ xs := by
  induction xs generalizing p with
  | nil => cases hx
  | cons z xs ih =>
    obtain ⟨-, hRest⟩ := h
    obtain rfl | hLater := List.mem_cons.mp hx
    · rw [hNext] at hRest
      exact List.mem_cons_of_mem x hRest.head_mem
    · exact List.mem_cons_of_mem z (ih hRest hLater)

variable [DecidableEq α]

theorem Chain.push (h : Chain next p xs) (hNew : x ∉ xs) :
    Chain (Function.update next x p) (some x) (x :: xs) := by
  refine ⟨rfl, ?_⟩
  rw [Function.update_self]
  refine h.congr fun z hz => Function.update_of_ne ?_ _ _
  rintro rfl
  exact hNew hz

theorem Chain.unlink (h : Chain next p (xs ++ y :: t :: ys)) (hNodup : (xs ++ y :: t :: ys).Nodup) :
    Chain (Function.update next y (next t)) p (xs ++ y :: ys) := by
  induction xs generalizing p with
  | nil =>
    obtain ⟨rfl, hNext, hRest⟩ := h
    refine ⟨rfl, ?_⟩
    rw [Function.update_self]
    refine hRest.congr fun z hz => Function.update_of_ne ?_ _ _
    rintro rfl
    simp [hz] at hNodup
  | cons x xs ih =>
    obtain ⟨rfl, hRest⟩ := h
    rw [List.cons_append, List.nodup_cons] at hNodup
    refine ⟨rfl, ?_⟩
    rw [Function.update_of_ne]
    · exact ih hRest hNodup.2
    · rintro rfl
      simp at hNodup

end SinglyLinked
