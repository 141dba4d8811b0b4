import Mathlib.Data.List.TakeWhile
import UnixOS.Fs.RamfsTree

/-! # Reading a path component by component

The path walks of `kernel/fs/vfs.c` and `kernel/fs/ramfs.c` read their paths one character at a time.
Both skip the slashes after a component; they differ in what they do with the rest of a component that
does not fit the buffer for it.
-/

namespace UnixOS.Fs

def skipSlashes (p : List Char) : List Char := p.dropWhile (· == '/')

def firstName (p : List Char) : List Char := p.takeWhile (· != '/')

def afterName (p : List Char) : List Char := p.dropWhile (· != '/')

/-- The loop of `vfs_lookup_parent`, over the `lookup` of its inodes. Each round reads a character, so
`fuel` is the length of the path. -/
def lookupParentLoop {ι : Type*} (lookup : ι → List Char → Option ι) :
    Nat → ι → List Char → Option (ι × List Char)
  | 0, _, _ => none
  | fuel + 1, curr, p =>
    if p = [] then none
    else
      let name := (firstName p).take nameMax
      let rest := skipSlashes (afterName p)
      if rest = [] then some (curr, name)
      else do
        let child ← lookup curr name
        lookupParentLoop lookup fuel child rest

def parentWalk {ι : Type*} (lookup : ι → List Char → Option ι) :
    ι → List (List Char) → Option (ι × List Char)
  | _, [] => none
  | curr, [name] => some (curr, name)
  | curr, name :: rest => do
    let child ← lookup curr name
    parentWalk lookup child rest

def Relative (p : List Char) : Prop := p.head? ≠ some '/'

variable {p : List Char}

theorem relative_skipSlashes (p : List Char) : Relative (skipSlashes p) := by
  intro hHead
  have hStop := List.head?_dropWhile_not (· == '/') p
  rw [skipSlashes] at hHead
  simp [hHead] at hStop

theorem skipSlashes_of_relative (h : Relative p) : skipSlashes p = p := by
  cases p with
  | nil => rfl
  | cons c p =>
    have hc : c ≠ '/' := fun hSlash => h (congrArg some hSlash)
    simp [skipSlashes, hc]

theorem firstName_append_afterName (p : List Char) : firstName p ++ afterName p = p :=
  List.takeWhile_append_dropWhile

theorem atBoundary_afterName (p : List Char) : AtBoundary (afterName p) := by
  cases hRest : afterName p with
  | nil => exact Or.inl rfl
  | cons c rest =>
    have hStop := List.head?_dropWhile_not (· != '/') p
    rw [afterName] at hRest
    simp only [hRest, List.head?_cons, bne_eq_false_iff_eq] at hStop
    exact Or.inr ⟨rest, by rw [hStop]⟩

theorem isComponent_firstName (hp : p ≠ []) (h : Relative p) : IsComponent (firstName p) := by
  constructor
  · cases p with
    | nil => exact absurd rfl hp
    | cons c p =>
      have hc : c ≠ '/' := fun hSlash => h (congrArg some hSlash)
      simp [firstName, hc]
  · intro x hx
    simpa using List.mem_takeWhile_imp hx

theorem pathComponents_skipSlashes (p : List Char) : pathComponents (skipSlashes p) = pathComponents p :=
  pathComponents_dropWhile p

theorem pathComponents_unfold (hp : p ≠ []) (h : Relative p) :
    pathComponents p = firstName p :: pathComponents (skipSlashes (afterName p)) := by
  have hSplit := pathComponents_component_append (isComponent_firstName hp h) (atBoundary_afterName p)
  rwa [firstName_append_afterName, ← pathComponents_skipSlashes (afterName p)] at hSplit

theorem length_rest_lt (hp : p ≠ []) (h : Relative p) :
    (skipSlashes (afterName p)).length < p.length := by
  have hName := List.length_pos_iff.mpr (isComponent_firstName hp h).1
  have hSkip : (skipSlashes (afterName p)).length ≤ (afterName p).length :=
    (List.dropWhile_suffix _).length_le
  have hWhole := congrArg List.length (firstName_append_afterName p)
  rw [List.length_append] at hWhole
  omega

theorem pathComponents_eq_nil (h : Relative p) : pathComponents p = [] ↔ p = [] := by
  constructor
  · intro hNil
    by_contra hp
    rw [pathComponents_unfold hp h] at hNil
    cases hNil
  · rintro rfl
    rfl

theorem lookupParentLoop_eq {ι : Type*} (lookup : ι → List Char → Option ι) {fuel : Nat} {curr : ι}
    (hFuel : p.length ≤ fuel) (h : Relative p) :
    lookupParentLoop lookup fuel curr p = parentWalk lookup curr (components p) := by
  induction fuel generalizing curr p with
  | zero =>
    obtain rfl := List.length_eq_zero_iff.mp (Nat.le_zero.mp hFuel)
    rfl
  | succ fuel ih =>
    rw [lookupParentLoop]
    split
    case isTrue hNil =>
      subst hNil
      rfl
    case isFalse hp =>
      have hRel := relative_skipSlashes (afterName p)
      have hLess := length_rest_lt hp h
      rw [components, pathComponents_unfold hp h]
      dsimp only
      split
      case isTrue hLast =>
        rw [hLast]
        rfl
      case isFalse hMore =>
        have hNext : ∀ child, lookupParentLoop lookup fuel child (skipSlashes (afterName p)) = _ :=
          fun child => ih (by omega) hRel
        have hNames : components (skipSlashes (afterName p)) ≠ [] := by
          rw [components, ne_eq, List.map_eq_nil_iff]
          exact fun hNil => hMore ((pathComponents_eq_nil hRel).mp hNil)
        obtain ⟨name, names, hCons⟩ := List.exists_cons_of_ne_nil hNames
        rw [components] at hCons
        simp only [hNext, List.map_cons, components, hCons, parentWalk]

end UnixOS.Fs
