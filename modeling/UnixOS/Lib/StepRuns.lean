import Mathlib.Computability.StateTransition
import Mathlib.Data.Set.Card

/-! # When a deterministic run ends

A step function gives the next state, or none. Where a state leads to finitely many states only, its run ends if
and only if none of them is come back to.
-/

namespace StepRuns

open StateTransition

variable {σ : Type*} {f : σ → Option σ} {a b : σ} {n : Nat}

def EndsIn (f : σ → Option σ) : Nat → σ → Prop
  | 0, _ => False
  | n + 1, a => ∀ b ∈ f a, EndsIn f n b

instance decidableEndsIn (f : σ → Option σ) : (n : Nat) → (a : σ) → Decidable (EndsIn f n a)
  | 0, _ => .isFalse id
  | n + 1, a =>
    match h : f a with
    | none => .isTrue fun b hb => by rw [h] at hb; cases hb
    | some c =>
      have := decidableEndsIn f n c
      decidable_of_iff (EndsIn f n c)
        ⟨fun hc b hb => by rw [h] at hb; rwa [← Option.some.inj hb], fun hAll => hAll c h⟩

def Acyclic (f : σ → Option σ) (a : σ) : Prop := ∀ b, Reaches f a b → ¬ Reaches₁ f b b

theorem EndsIn.reaches₁ (h : EndsIn f n a) (hReach : Reaches₁ f a b) : ∃ m < n, EndsIn f m b := by
  induction hReach with
  | single hStep =>
    cases n with
    | zero => exact h.elim
    | succ n => exact ⟨n, n.lt_succ_self, h _ hStep⟩
  | tail _ hStep ih =>
    obtain ⟨m, hm, hEnds⟩ := ih
    cases m with
    | zero => exact hEnds.elim
    | succ m => exact ⟨m, by omega, hEnds _ hStep⟩

theorem EndsIn.not_reaches₁ (h : EndsIn f n a) : ¬ Reaches₁ f a a := by
  induction n using Nat.strong_induction_on with
  | _ n ih =>
    intro hCycle
    obtain ⟨m, hm, hEnds⟩ := h.reaches₁ hCycle
    exact ih m hm hEnds hCycle

theorem EndsIn.acyclic (h : EndsIn f n a) : Acyclic f a := by
  intro b hReach
  rcases Relation.reflTransGen_iff_eq_or_transGen.mp hReach with rfl | hReach
  · exact h.not_reaches₁
  · obtain ⟨m, -, hEnds⟩ := h.reaches₁ hReach
    exact hEnds.not_reaches₁

theorem Acyclic.endsIn (h : Acyclic f a) (hFinite : {b | Reaches f a b}.Finite)
    (hCard : {b | Reaches f a b}.ncard < n) : EndsIn f n a := by
  induction n generalizing a with
  | zero => exact absurd hCard (Nat.not_lt_zero _)
  | succ n ih =>
    intro b hStep
    have hSub : {c | Reaches f b c} ⊂ {c | Reaches f a c} := by
      refine ⟨fun c hReach => Relation.ReflTransGen.head hStep hReach, fun hSame => ?_⟩
      exact h a Relation.ReflTransGen.refl (Relation.TransGen.head' hStep (hSame Relation.ReflTransGen.refl))
    have hLess := Set.ncard_lt_ncard hSub hFinite
    exact ih (fun c hReach => h c (Relation.ReflTransGen.head hStep hReach)) (hFinite.subset hSub.subset) (by omega)

theorem endsIn_iff_acyclic (hFinite : {b | Reaches f a b}.Finite) : (∃ n, EndsIn f n a) ↔ Acyclic f a := by
  constructor
  · rintro ⟨n, h⟩
    exact h.acyclic
  · intro h
    exact ⟨_, h.endsIn hFinite (Nat.lt_succ_self _)⟩

end StepRuns
