import Mathlib.Order.Basic

/-! # The first run of free places

A scan from left to right that counts how many free places it has just seen, starts again behind each
place that is taken, and stops as soon as it has counted enough.
-/

namespace FirstRun

variable (free : Nat → Bool) (count : Nat)

/-- The places from `i` on, `left` of them; `found` is the number of free places right before `i`, and
`start` is the first of these. -/
def scan : (left i start found : Nat) → Option Nat
  | 0, _, _, _ => none
  | left + 1, i, start, found =>
    if free i then
      let start := if found = 0 then i else start
      if found + 1 = count then some start else scan left (i + 1) start (found + 1)
    else scan left (i + 1) start 0

def Run (a : Nat) : Prop := ∀ j < count, free (a + j) = true

variable {free count}

/-- No run ends before `i`, and the last `found` places before `i` are free. -/
structure Seen (free : Nat → Bool) (count i start found : Nat) : Prop where
  none_yet : ∀ a, a + count ≤ i → ¬ Run free count a
  start_eq : found ≠ 0 → start + found = i
  le : found ≤ i
  short : found < count
  recent : ∀ j, i ≤ j + found → j < i → free j = true
  edge : ∀ j, j + 1 + found = i → free j = false

theorem Seen.init (hCount : 0 < count) (start : Nat) : Seen free count 0 start 0 := by
  refine ⟨?_, fun h => absurd rfl h, Nat.le_refl _, hCount, fun j _ hj => absurd hj (Nat.not_lt_zero j), ?_⟩
  · intro a ha
    omega
  · intro j hj
    omega

theorem Seen.skip {i start found : Nat} (h : Seen free count i start found) (hTaken : free i = false) :
    Seen free count (i + 1) start 0 where
  none_yet := by
    intro a ha hRun
    have hShort := h.short
    by_cases hBefore : a + count ≤ i
    · exact h.none_yet a hBefore hRun
    · have hHere := hRun (i - a) (by omega)
      rw [show a + (i - a) = i by omega, hTaken] at hHere
      cases hHere
  start_eq := fun hNe => absurd rfl hNe
  le := Nat.zero_le _
  short := Nat.zero_lt_of_lt h.short
  recent := by
    intro j hLow hHigh
    omega
  edge := by
    intro j hj
    obtain rfl : j = i := by omega
    exact hTaken

theorem Seen.take {i start found : Nat} (h : Seen free count i start found) (hFree : free i = true)
    (hMore : found + 1 ≠ count) :
    Seen free count (i + 1) (if found = 0 then i else start) (found + 1) where
  none_yet := by
    intro a ha hRun
    have hShort := h.short
    have hLe := h.le
    by_cases hBefore : a + count ≤ i
    · exact h.none_yet a hBefore hRun
    · -- the run would reach over the taken place in front of the free ones
      by_cases hEdge : found < i
      · have hTaken := h.edge (i - found - 1) (by omega)
        have hHere := hRun (i - found - 1 - a) (by omega)
        rw [show a + (i - found - 1 - a) = i - found - 1 by omega, hTaken] at hHere
        cases hHere
      · omega
  start_eq := by
    intro _
    split
    · omega
    · next hSome =>
      have hStart := h.start_eq hSome
      omega
  le := Nat.succ_le_succ h.le
  short := by
    have hShort := h.short
    omega
  recent := by
    intro j hLow hHigh
    by_cases hLast : j = i
    · rw [hLast]
      exact hFree
    · exact h.recent j (by omega) (by omega)
  edge := by
    intro j hj
    exact h.edge j (by omega)

theorem Seen.scan_spec {i start found : Nat} (h : Seen free count i start found) (left : Nat) :
    (∀ a, scan free count left i start found = some a →
        a + count ≤ i + left ∧ Run free count a ∧ ∀ b, Run free count b → a ≤ b) ∧
      (scan free count left i start found = none →
        ∀ a, a + count ≤ i + left → ¬ Run free count a) := by
  induction left generalizing i start found with
  | zero => exact ⟨nofun, fun _ a ha => h.none_yet a ha⟩
  | succ left ih =>
    rw [scan]
    cases hFree : free i with
    | false =>
      rw [if_neg Bool.false_ne_true]
      have hRest := ih (h.skip hFree)
      rwa [Nat.add_right_comm] at hRest
    | true =>
      rw [if_pos rfl]
      dsimp only
      by_cases hDone : found + 1 = count
      · rw [if_pos hDone]
        refine ⟨?_, nofun⟩
        rintro a ⟨⟩
        have hLe := h.le
        have hBegin : (if found = 0 then i else start) + found = i := by
          split
          · next hZero => omega
          · next hSome => exact h.start_eq hSome
        refine ⟨by omega, fun j hj => ?_, fun b hb => ?_⟩
        · by_cases hLast : j = found
          · rw [hLast, hBegin]
            exact hFree
          · exact h.recent _ (by omega) (by omega)
        · by_contra hBefore
          exact h.none_yet b (by omega) hb
      · rw [if_neg hDone]
        have hRest := ih (h.take hFree hDone)
        rwa [Nat.add_right_comm] at hRest

theorem scan_eq_some {left a : Nat} (hCount : 0 < count) (h : scan free count left 0 0 0 = some a) :
    a + count ≤ left ∧ Run free count a ∧ ∀ b, Run free count b → a ≤ b := by
  have hSpec := ((Seen.init hCount 0).scan_spec left).1 a h
  rwa [Nat.zero_add] at hSpec

theorem scan_eq_none {left : Nat} (hCount : 0 < count)
    (h : scan free count left 0 0 0 = none) (a : Nat) (ha : a + count ≤ left) :
    ¬ Run free count a := by
  refine ((Seen.init hCount 0).scan_spec left).2 h a ?_
  rwa [Nat.zero_add]

end FirstRun
