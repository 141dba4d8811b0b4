import Mathlib.Data.List.Basic
import Mathlib.Data.List.Nodup
import Mathlib.Logic.Function.Basic

/-! # Doubly linked segments over link maps

`Seg next prev p xs e` says that the cells `xs` are chained in both directions, with `p` before the
first cell and `e` after the last. Links are plain maps, so a pointer update is `Function.update`
and the surgery of a list operation is one update at the end of a segment and one at its start.
-/

namespace DoublyLinked

variable {α : Type*}

def Seg (next prev : α → α) : α → List α → α → Prop
  | _, [], _ => True
  | p, x :: xs, e => prev x = p ∧ next x = xs.headD e ∧ Seg next prev x xs e

theorem headD_append (xs ys : List α) (e : α) : (xs ++ ys).headD e = xs.headD (ys.headD e) := by
  cases xs <;> rfl

theorem getLastD_append_cons (xs ys : List α) (x p : α) :
    (xs ++ x :: ys).getLastD p = ys.getLastD x := by
  induction xs generalizing p with
  | nil => rw [List.nil_append, List.getLastD_cons]
  | cons y xs ih => rw [List.cons_append, List.getLastD_cons, ih]

theorem getLastD_eq_or_mem (xs : List α) (p : α) : xs.getLastD p = p ∨ xs.getLastD p ∈ xs := by
  induction xs generalizing p with
  | nil => exact Or.inl rfl
  | cons x xs ih =>
    right
    rw [List.getLastD_cons]
    rcases ih x with h | h
    · rw [h]
      exact List.mem_cons_self
    · exact List.mem_cons_of_mem x h

theorem headD_eq_or_mem (xs : List α) (e : α) : xs.headD e = e ∨ xs.headD e ∈ xs := by
  cases xs with
  | nil => exact Or.inl rfl
  | cons x xs => exact Or.inr List.mem_cons_self

theorem getLastD_mem {xs : List α} (h : xs ≠ []) (p : α) : xs.getLastD p ∈ xs := by
  cases xs with
  | nil => exact absurd rfl h
  | cons x xs =>
    rw [List.getLastD_cons]
    rcases getLastD_eq_or_mem xs x with hx | hx
    · rw [hx]
      exact List.mem_cons_self
    · exact List.mem_cons_of_mem x hx

section Segments

variable {next prev next' prev' : α → α}

theorem Seg.congr {p e : α} {xs : List α} (hNext : ∀ x ∈ xs, next' x = next x)
    (hPrev : ∀ x ∈ xs, prev' x = prev x) (h : Seg next prev p xs e) : Seg next' prev' p xs e := by
  induction xs generalizing p with
  | nil => trivial
  | cons x xs ih =>
    obtain ⟨hp, hn, hs⟩ := h
    refine ⟨(hPrev x List.mem_cons_self).trans hp, (hNext x List.mem_cons_self).trans hn, ?_⟩
    exact ih (fun y hy => hNext y (List.mem_cons_of_mem x hy))
      (fun y hy => hPrev y (List.mem_cons_of_mem x hy)) hs

theorem Seg.append_iff {p e : α} {xs ys : List α} :
    Seg next prev p (xs ++ ys) e ↔
      Seg next prev p xs (ys.headD e) ∧ Seg next prev (xs.getLastD p) ys e := by
  induction xs generalizing p with
  | nil => exact ⟨fun h => ⟨trivial, h⟩, fun h => h.2⟩
  | cons x xs ih =>
    rw [List.cons_append, List.getLastD_cons]
    constructor
    · rintro ⟨hp, hn, hs⟩
      obtain ⟨hl, hr⟩ := ih.mp hs
      exact ⟨⟨hp, hn.trans (headD_append xs ys e), hl⟩, hr⟩
    · rintro ⟨⟨hp, hn, hl⟩, hr⟩
      exact ⟨hp, hn.trans (headD_append xs ys e).symm, ih.mpr ⟨hl, hr⟩⟩

theorem Seg.at_split {p e x : α} {xs ys : List α} (h : Seg next prev p (xs ++ x :: ys) e) :
    prev x = xs.getLastD p ∧ next x = ys.headD e := by
  obtain ⟨_, hp, hn, _⟩ := append_iff.mp h
  exact ⟨hp, hn⟩

theorem Seg.unique {p q e : α} {xs ys : List α} (h : Seg next prev p xs e)
    (h' : Seg next prev q ys e) (hHead : xs.headD e = ys.headD e) (hXs : e ∉ xs) (hYs : e ∉ ys) :
    xs = ys := by
  induction xs generalizing p q ys with
  | nil =>
    cases ys with
    | nil => rfl
    | cons y ys =>
      obtain rfl : e = y := hHead
      exact absurd List.mem_cons_self hYs
  | cons x xs ih =>
    cases ys with
    | nil =>
      obtain rfl : x = e := hHead
      exact absurd List.mem_cons_self hXs
    | cons y ys =>
      obtain rfl : x = y := hHead
      have hNext : xs.headD e = ys.headD e := h.2.1.symm.trans h'.2.1
      rw [ih h.2.2 h'.2.2 hNext (fun hMem => hXs (List.mem_cons_of_mem x hMem))
        (fun hMem => hYs (List.mem_cons_of_mem x hMem))]

variable [DecidableEq α]

theorem Seg.retarget_end {p e q : α} {xs : List α} (hNodup : xs.Nodup)
    (h : Seg next prev p xs e) (hne : xs ≠ []) :
    Seg (Function.update next (xs.getLastD p) q) prev p xs q := by
  induction xs generalizing p with
  | nil => exact absurd rfl hne
  | cons x xs ih =>
    obtain ⟨hp, hn, hs⟩ := h
    obtain ⟨hx, hxs⟩ := List.nodup_cons.mp hNodup
    cases xs with
    | nil => exact ⟨hp, Function.update_self .., trivial⟩
    | cons y ys =>
      rw [List.getLastD_cons]
      have hLast : (y :: ys).getLastD x ≠ x := by
        intro hEq
        have hMem := getLastD_mem (List.cons_ne_nil y ys) x
        rw [hEq] at hMem
        exact hx hMem
      refine ⟨hp, (Function.update_of_ne hLast.symm _ _).trans hn, ?_⟩
      exact ih hxs hs (List.cons_ne_nil y ys)

theorem Seg.retarget_start {p q e x : α} {xs : List α} (hNodup : (x :: xs).Nodup)
    (h : Seg next prev p (x :: xs) e) :
    Seg next (Function.update prev x q) q (x :: xs) e := by
  obtain ⟨_, hn, hs⟩ := h
  refine ⟨Function.update_self .., hn, ?_⟩
  refine hs.congr (fun _ _ => rfl) ?_
  intro y hy
  have hyx : y ≠ x := by
    rintro rfl
    exact (List.nodup_cons.mp hNodup).1 hy
  exact Function.update_of_ne hyx _ _

theorem Seg.push_back {p e x : α} {xs : List α} (hNodup : xs.Nodup) (h : Seg next prev p xs e)
    (hNext : ∀ y ∈ xs, next' y = Function.update next (xs.getLastD p) x y)
    (hPrev : ∀ y ∈ xs, prev' y = prev y) (hLast : next' x = e) (hBack : prev' x = xs.getLastD p) :
    Seg next' prev' p (xs ++ [x]) e := by
  refine append_iff.mpr ⟨?_, hBack, hLast, trivial⟩
  cases xs with
  | nil => trivial
  | cons y ys => exact (h.retarget_end hNodup (List.cons_ne_nil y ys)).congr hNext hPrev

theorem Seg.insert {p e y : α} {xs ys : List α} (hNodup : (xs ++ ys).Nodup) (h : Seg next prev p (xs ++ ys) e)
    (hNext : ∀ z ∈ xs, next' z = Function.update next (xs.getLastD p) y z) (hPrev : ∀ z ∈ xs, prev' z = prev z)
    (hBack : prev' y = xs.getLastD p) (hHere : next' y = ys.headD e) (hNext' : ∀ z ∈ ys, next' z = next z)
    (hPrev' : ∀ z ∈ ys, prev' z = Function.update prev (ys.headD e) y z) :
    Seg next' prev' p (xs ++ y :: ys) e := by
  obtain ⟨hLeft, hRight⟩ := append_iff.mp h
  obtain ⟨hXs, hYs, -⟩ := List.nodup_append.mp hNodup
  refine append_iff.mpr ⟨?_, hBack, hHere, ?_⟩
  · cases xs with
    | nil => trivial
    | cons x xs => exact (hLeft.retarget_end hXs (List.cons_ne_nil x xs)).congr hNext hPrev
  · cases ys with
    | nil => trivial
    | cons z ys => exact (hRight.retarget_start hYs).congr hNext' hPrev'

theorem Seg.unlink {p e x : α} {xs ys : List α} (hNodup : (xs ++ x :: ys).Nodup)
    (h : Seg next prev p (xs ++ x :: ys) e)
    (hNext : ∀ y ∈ xs, next' y = Function.update next (xs.getLastD p) (ys.headD e) y)
    (hPrev : ∀ y ∈ xs, prev' y = prev y) (hNext' : ∀ y ∈ ys, next' y = next y)
    (hPrev' : ∀ y ∈ ys, prev' y = Function.update prev (ys.headD e) (xs.getLastD p) y) :
    Seg next' prev' p (xs ++ ys) e := by
  obtain ⟨hLeft, -, -, hRight⟩ := append_iff.mp h
  obtain ⟨hXs, hRest, -⟩ := List.nodup_append.mp hNodup
  refine append_iff.mpr ⟨?_, ?_⟩
  · cases xs with
    | nil => trivial
    | cons y zs => exact (hLeft.retarget_end hXs (List.cons_ne_nil y zs)).congr hNext hPrev
  · cases ys with
    | nil => trivial
    | cons y zs => exact (hRight.retarget_start (List.nodup_cons.mp hRest).2).congr hNext' hPrev'

end Segments

end DoublyLinked
