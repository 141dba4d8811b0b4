import Mathlib.Algebra.GroupWithZero.Nat
import UnixOS.Lib.Memory

/-! # Records in byte memory

A layout gives the fields of a record an offset and a width; fields do not overlap. Several records lie in one
memory, spaced so that they do not overlap either. `Edited A m m' hd` describes what a series of field writes to
the records at `A` leaves behind: the contents `hd` of every field, and all bytes outside of the records as before.
-/

namespace Records

open ByteMemory

structure Layout (F : Type*) where
  offset : F → Nat
  width : F → Nat
  size : Nat
  inside : ∀ f, offset f + width f ≤ size
  disjoint : ∀ f g, f ≠ g → offset f + width f ≤ offset g ∨ offset g + width g ≤ offset f

variable {F : Type*} (L : Layout F)

def Layout.get (m : Mem) (f : F) (a : Nat) : Nat := load m (L.width f) (a + L.offset f)

def Layout.set (m : Mem) (f : F) (a v : Nat) : Mem := store m (a + L.offset f) (L.width f) v

def Layout.Fits (f : F) (v : Nat) : Prop := v < 256 ^ L.width f

def Layout.Off (a x : Nat) : Prop := x < a ∨ a + L.size ≤ x

def Layout.Apart (a b : Nat) : Prop := a + L.size ≤ b ∨ b + L.size ≤ a

def Layout.Spaced (A : List Nat) : Prop := ∀ a ∈ A, ∀ b ∈ A, a = b ∨ L.Apart a b

variable {L} {m m' : Mem} {f g : F} {a b v x : Nat} {A B : List Nat}

theorem get_set_same (hv : L.Fits f v) : L.get (L.set m f a v) f a = v := load_store_same_of_lt hv

theorem get_set_apart (hab : L.Apart a b) : L.get (L.set m f a v) g b = L.get m g b := by
  apply load_store_disjoint
  have hf := L.inside f
  have hg := L.inside g
  rcases hab with hab | hab <;> omega

theorem get_set_field (hfg : f ≠ g) : L.get (L.set m f a v) g a = L.get m g a := by
  apply load_store_disjoint
  rcases L.disjoint f g hfg with h | h <;> omega

theorem set_off (hx : L.Off a x) : L.set m f a v x = m x := by
  have hf := L.inside f
  rw [Layout.set, store_eq_fill]
  rw [Layout.Off] at hx
  exact fill_outside (by omega)

theorem get_congr (h : ∀ x, a ≤ x → x < a + L.size → m' x = m x) : L.get m' f a = L.get m f a := by
  apply load_congr
  intro x hLow hHigh
  have hf := L.inside f
  exact h x (by omega) (by omega)

variable [DecidableEq F]

def put (hd : F → Nat → Nat) (f : F) (a v : Nat) : F → Nat → Nat :=
  fun g => if f = g then Function.update (hd g) a v else hd g

@[simp] theorem put_same (hd : F → Nat → Nat) (f : F) (a v : Nat) :
    put hd f a v f = Function.update (hd f) a v := if_pos rfl

theorem put_ne {hd : F → Nat → Nat} (hfg : f ≠ g) : put hd f a v g = hd g := if_neg hfg

theorem put_away {hd : F → Nat → Nat} (hba : b ≠ a) : put hd f a v g b = hd g b := by
  rw [put]
  split
  · exact Function.update_of_ne hba _ _
  · rfl

variable (L) in
structure Edited (A : List Nat) (m m' : Mem) (hd : F → Nat → Nat) : Prop where
  agree : ∀ g, ∀ b ∈ A, L.get m' g b = hd g b
  outside : ∀ x, (∀ a ∈ A, L.Off a x) → m' x = m x

variable {hd : F → Nat → Nat}

omit [DecidableEq F] in
theorem Edited.refl (A : List Nat) (m : Mem) : Edited L A m m (L.get m) := ⟨fun _ _ _ => rfl, fun _ _ => rfl⟩

theorem Edited.set (hA : L.Spaced A) (h : Edited L A m m' hd) (ha : a ∈ A) (hv : L.Fits f v) :
    Edited L A m (L.set m' f a v) (put hd f a v) := by
  refine ⟨?_, ?_⟩
  · intro g b hb
    by_cases hba : b = a
    · subst hba
      by_cases hfg : f = g
      · subst hfg
        rw [get_set_same hv, put_same, Function.update_self]
      · rw [get_set_field hfg, put_ne hfg, h.agree g b hb]
    · have hApart := (hA a ha b hb).resolve_left (Ne.symm hba)
      rw [get_set_apart hApart, put_away hba, h.agree g b hb]
  · intro x hx
    rw [set_off (hx a ha), h.outside x hx]

end Records
