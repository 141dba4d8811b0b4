import Mathlib.Logic.Function.Basic
import Mathlib.Data.Nat.ModEq

/-! # Ring buffers

A ring of `N` cells holds a list: the elements of `count` cells from `start` on, around the end of
the ring. Storing behind the last element appends to the list, and reading on from `start` takes
elements off its front.
-/

namespace RingBuffer

variable {α : Type} {N : Nat}

def contents (N : Nat) (buf : Nat → α) (start count : Nat) : List α :=
  (List.range count).map fun i => buf ((start + i) % N)

def pushAll (N : Nat) : (Nat → α) → Nat → List α → (Nat → α) × Nat
  | buf, pos, [] => (buf, pos)
  | buf, pos, x :: xs => pushAll N (Function.update buf pos x) ((pos + 1) % N) xs

def popAll (N : Nat) (buf : Nat → α) : Nat → Nat → List α × Nat
  | pos, 0 => ([], pos)
  | pos, n + 1 =>
    let (xs, pos') := popAll N buf ((pos + 1) % N) n
    (buf pos :: xs, pos')

@[simp] theorem contents_zero (buf : Nat → α) (start : Nat) : contents N buf start 0 = [] := rfl

theorem contents_push {buf : Nat → α} {start count : Nat} (h : count < N) (x : α) :
    contents N (Function.update buf ((start + count) % N) x) start (count + 1) =
      contents N buf start count ++ [x] := by
  unfold contents
  rw [List.range_succ, List.map_append, List.map_singleton, Function.update_self]
  congr 1
  apply List.map_congr_left
  intro i hi
  rw [List.mem_range] at hi
  apply Function.update_of_ne
  intro hSame
  -- two of the `N` cells from `start` on coincide only at equal distance
  have hModEq : start + i ≡ start + count [MOD N] := hSame
  have hClose := Nat.ModEq.add_left_cancel' start hModEq
  have hEq := Nat.ModEq.eq_of_lt_of_lt hClose (by omega) h
  omega

theorem contents_pop (buf : Nat → α) {start : Nat} (count : Nat) (h : start < N) :
    contents N buf start (count + 1) = buf start :: contents N buf ((start + 1) % N) count := by
  unfold contents
  rw [List.range_succ_eq_map, List.map_cons, List.map_map, Nat.add_zero, Nat.mod_eq_of_lt h]
  congr 1
  apply List.map_congr_left
  intro i _
  simp only [Function.comp_apply]
  rw [Nat.mod_add_mod]
  congr 2
  omega

theorem contents_pushAll {buf : Nat → α} {start count : Nat} {xs : List α}
    (h : count + xs.length ≤ N) :
    contents N (pushAll N buf ((start + count) % N) xs).1 start (count + xs.length) =
        contents N buf start count ++ xs ∧
      (pushAll N buf ((start + count) % N) xs).2 = (start + (count + xs.length)) % N := by
  induction xs generalizing buf count with
  | nil => exact ⟨by rw [List.append_nil]; rfl, rfl⟩
  | cons x xs ih =>
    rw [List.length_cons] at h
    have hNext : ((start + count) % N + 1) % N = (start + (count + 1)) % N := by
      rw [Nat.mod_add_mod, Nat.add_assoc]
    obtain ⟨hList, hPos⟩ := @ih (Function.update buf ((start + count) % N) x) (count + 1) (by omega)
    have hLength : count + (x :: xs).length = count + 1 + xs.length := by
      rw [List.length_cons]
      omega
    rw [pushAll, hNext, hLength]
    refine ⟨?_, hPos⟩
    rw [hList, contents_push (by omega), List.append_assoc]
    rfl

theorem contents_popAll {buf : Nat → α} {start count n : Nat} (hStart : start < N) (h : n ≤ count) :
    contents N buf start count =
        (popAll N buf start n).1 ++ contents N buf (popAll N buf start n).2 (count - n) ∧
      (popAll N buf start n).2 = (start + n) % N ∧ (popAll N buf start n).1.length = n := by
  induction n generalizing start count with
  | zero => exact ⟨rfl, (Nat.mod_eq_of_lt hStart).symm, rfl⟩
  | succ n ih =>
    obtain ⟨m, rfl⟩ : ∃ m, count = m + 1 := ⟨count - 1, by omega⟩
    obtain ⟨hList, hPos, hLength⟩ :=
      @ih ((start + 1) % N) m (Nat.mod_lt _ (by omega)) (by omega)
    refine ⟨?_, ?_, ?_⟩
    · rw [contents_pop buf m hStart, hList, popAll, Nat.add_sub_add_right]
      rfl
    · rw [popAll, hPos, Nat.mod_add_mod]
      congr 1
      omega
    · rw [popAll, List.length_cons, hLength]

theorem contents_overwrite {buf : Nat → α} {start : Nat} (hStart : start < N) (x : α) :
    contents N (Function.update buf ((start + N) % N) x) ((start + 1) % N) N =
      (contents N buf start N).tail ++ [x] := by
  obtain ⟨m, rfl⟩ : ∃ m, N = m + 1 := ⟨N - 1, by omega⟩
  have hLast : (start + (m + 1)) % (m + 1) = ((start + 1) % (m + 1) + m) % (m + 1) := by
    rw [Nat.mod_add_mod]
    congr 1
    omega
  rw [contents_pop buf m hStart, List.tail_cons, hLast, contents_push (Nat.lt_succ_self m)]

/-! ### Rings with an empty cell

Where only the read and the write position are stored, one cell stays empty, so that a full ring does not
look like an empty one.
-/

structure Holds (N : Nat) (buf : Nat → α) (r w : Nat) (xs : List α) : Prop where
  read_lt : r < N
  write_eq : w = (r + xs.length) % N
  length_lt : xs.length < N
  contents_eq : contents N buf r xs.length = xs

namespace Holds

variable {buf : Nat → α} {r w : Nat} {xs : List α}

theorem distance_eq (h : Holds N buf r w xs) {n : Nat} (hn : n < N) :
    (r + n) % N = w ↔ n = xs.length := by
  constructor
  · intro hSame
    have hModEq : r + n ≡ r + xs.length [MOD N] := hSame.trans h.write_eq
    exact Nat.ModEq.eq_of_lt_of_lt (Nat.ModEq.add_left_cancel' r hModEq) hn h.length_lt
  · rintro rfl
    exact h.write_eq.symm

theorem read_eq_write_iff (h : Holds N buf r w xs) : r = w ↔ xs = [] := by
  have hHere := h.distance_eq (Nat.zero_lt_of_lt h.read_lt)
  rw [Nat.add_zero, Nat.mod_eq_of_lt h.read_lt] at hHere
  rw [hHere, eq_comm, List.length_eq_zero_iff]

theorem next_ne_read (h : Holds N buf r w xs) (hRoom : xs.length + 1 < N) : (w + 1) % N ≠ r := by
  intro hFull
  have hModEq : r + (xs.length + 1) ≡ r + 0 [MOD N] := by
    rw [h.write_eq, Nat.mod_add_mod, Nat.add_assoc] at hFull
    exact hFull.trans (Nat.mod_eq_of_lt h.read_lt).symm
  have hNone := Nat.ModEq.eq_of_lt_of_lt (Nat.ModEq.add_left_cancel' r hModEq) hRoom (by omega)
  omega

theorem push (h : Holds N buf r w xs) (hRoom : xs.length + 1 < N) (x : α) :
    Holds N (Function.update buf w x) r ((w + 1) % N) (xs ++ [x]) where
  read_lt := h.read_lt
  write_eq := by
    rw [h.write_eq, Nat.mod_add_mod, List.length_append, List.length_singleton, Nat.add_assoc]
  length_lt := by
    rw [List.length_append, List.length_singleton]
    exact hRoom
  contents_eq := by
    rw [List.length_append, List.length_singleton, h.write_eq, contents_push h.length_lt, h.contents_eq]

theorem pop {x : α} (h : Holds N buf r w (x :: xs)) : buf r = x ∧ Holds N buf ((r + 1) % N) w xs := by
  have hContents := h.contents_eq
  rw [List.length_cons, contents_pop buf xs.length h.read_lt, List.cons.injEq] at hContents
  have hLength := h.length_lt
  rw [List.length_cons] at hLength
  refine ⟨hContents.1, Nat.mod_lt _ (by omega), ?_, by omega, hContents.2⟩
  rw [h.write_eq, List.length_cons, Nat.mod_add_mod]
  congr 1
  omega

end Holds

end RingBuffer
