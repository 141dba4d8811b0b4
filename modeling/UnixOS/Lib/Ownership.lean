import Mathlib.Logic.Basic

/-! # Exclusive references

Places refer to resources, and a resource is either held or free. References are exclusive when no
resource has two places and every resource referred to is held. Taking a free resource for one
place, dropping references and releasing a resource nobody refers to all keep them so.
-/

namespace Ownership

variable {S B : Type} {R R' : S → B → Prop} {held held' : B → Prop} {b₀ : B}

structure Exclusive (R : S → B → Prop) (held : B → Prop) : Prop where
  unique : ∀ {s t b}, R s b → R t b → s = t
  held : ∀ {s b}, R s b → held b

theorem Exclusive.mono (h : Exclusive R held) (hRefs : ∀ s b, R' s b → R s b)
    (hHeld : ∀ b, held b → held' b) : Exclusive R' held' :=
  ⟨fun hs ht => h.unique (hRefs _ _ hs) (hRefs _ _ ht), fun hs => hHeld _ (h.held (hRefs _ _ hs))⟩

theorem Exclusive.insert (h : Exclusive R held) (s₀ : S) (hFresh : ∀ s, ¬ R s b₀)
    (hRefs : ∀ s b, R' s b → R s b ∨ s = s₀ ∧ b = b₀) (hHeld : ∀ b, held b → held' b)
    (hNew : held' b₀) : Exclusive R' held' := by
  constructor
  · intro s t b hs ht
    cases hRefs s b hs with
    | inl hOld =>
      cases hRefs t b ht with
      | inl hOld' => exact h.unique hOld hOld'
      | inr hHere => exact absurd (hHere.2 ▸ hOld) (hFresh s)
    | inr hHere =>
      cases hRefs t b ht with
      | inl hOld' => exact absurd (hHere.2 ▸ hOld') (hFresh t)
      | inr hHere' => rw [hHere.1, hHere'.1]
  · intro s b hs
    cases hRefs s b hs with
    | inl hOld => exact hHeld b (h.held hOld)
    | inr hHere => exact hHere.2 ▸ hNew

theorem Exclusive.release (h : Exclusive R held) (hUnused : ∀ s, ¬ R s b₀)
    (hHeld : ∀ b, b ≠ b₀ → held b → held' b) : Exclusive R held' := by
  refine ⟨h.unique, ?_⟩
  intro s b hs
  have hne : b ≠ b₀ := by
    rintro rfl
    exact hUnused s hs
  exact hHeld b hne (h.held hs)

end Ownership
