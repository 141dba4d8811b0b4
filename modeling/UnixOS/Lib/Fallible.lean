import Mathlib.Logic.Basic

/-! # Computations that may fail

A computation over a state either returns a value or fails, and in both cases leaves the state it
reached: nothing is rolled back. A triple says what holds of the state after each of the two ways
out.
-/

namespace Fallible

def Run (σ α : Type) : Type := σ → Option α × σ

variable {σ α β : Type}

instance : Monad (Run σ) where
  pure a := fun s => (some a, s)
  bind m f := fun s =>
    match m s with
    | (some a, s') => f a s'
    | (none, s') => (none, s')

namespace Run

def fail : Run σ α := fun s => (none, s)

/-- Runs `m` and hands its failure on as a value. -/
def attempt (m : Run σ α) : Run σ (Option α) := fun s => (some (m s).1, (m s).2)

def get : Run σ σ := fun s => (some s, s)

def modify (f : σ → σ) : Run σ Unit := fun s => (some (), f s)

theorem get_run (s : σ) : (get : Run σ σ) s = (some s, s) := rfl

theorem modify_run (f : σ → σ) (s : σ) : modify f s = (some (), f s) := rfl

theorem ite_run {c : Prop} [Decidable c] (m m' : Run σ α) (s : σ) :
    (if c then m else m') s = if c then m s else m' s := by
  split <;> rfl

theorem bind_of_some {m : Run σ α} {f : α → Run σ β} {s s' : σ} {a : α} (h : m s = (some a, s')) :
    (m >>= f) s = f a s' := by
  show (match m s with
    | (some a, s') => f a s'
    | (none, s') => (none, s')) = f a s'
  rw [h]

theorem bind_of_none {m : Run σ α} {f : α → Run σ β} {s s' : σ} (h : m s = (none, s')) :
    (m >>= f) s = (none, s') := by
  show (match m s with
    | (some a, s') => f a s'
    | (none, s') => (none, s')) = (none, s')
  rw [h]

theorem pure_bind (a : α) (f : α → Run σ β) : (pure a >>= f : Run σ β) = f a := rfl

theorem bind_assoc {γ : Type} (m : Run σ α) (f : α → Run σ β) (g : β → Run σ γ) :
    (m >>= f) >>= g = m >>= fun a => f a >>= g := by
  funext s
  rcases hRun : m s with ⟨result, s'⟩
  cases result with
  | none => rw [bind_of_none (bind_of_none hRun), bind_of_none hRun]
  | some a =>
    rw [bind_of_some hRun]
    show (match (m >>= f) s with
      | (some b, s') => g b s'
      | (none, s') => (none, s')) = (f a >>= g) s'
    rw [bind_of_some hRun]
    rfl

end Run

/-- From a state with `P`, a value `a` comes with a state in `Q a` and a failure with one in `E`. -/
def Triple (P : σ → Prop) (m : Run σ α) (Q : α → σ → Prop) (E : σ → Prop) : Prop :=
  ∀ s, P s →
    match m s with
    | (some a, s') => Q a s'
    | (none, s') => E s'

section Rules

variable {P P' : σ → Prop} {Q Q' : α → σ → Prop} {E E' : σ → Prop} {m : Run σ α}

theorem Triple.pure {a : α} (h : ∀ s, P s → Q a s) : Triple P (Pure.pure a) Q E := h

theorem Triple.fail (h : ∀ s, P s → E s) : Triple P Run.fail Q E := h

theorem Triple.modify {f : σ → σ} {Q : Unit → σ → Prop} (h : ∀ s, P s → Q () (f s)) :
    Triple P (Run.modify f) Q E := h

theorem Triple.bind {R : β → σ → Prop} {f : α → Run σ β} (hm : Triple P m Q E)
    (hf : ∀ a, Triple (Q a) (f a) R E) : Triple P (m >>= f) R E := by
  intro s hs
  have hFirst := hm s hs
  show match (match m s with
      | (some a, s') => f a s'
      | (none, s') => (none, s')) with
    | (some b, s') => R b s'
    | (none, s') => E s'
  rcases hRun : m s with ⟨result, s'⟩
  rw [hRun] at hFirst
  cases result with
  | none => exact hFirst
  | some a => exact hf a s' hFirst

theorem Triple.conseq (h : Triple P m Q E) (hP : ∀ s, P' s → P s)
    (hQ : ∀ a s, Q a s → Q' a s) (hE : ∀ s, E s → E' s) : Triple P' m Q' E' := by
  intro s hs
  have hRun := h s (hP s hs)
  rcases hEq : m s with ⟨result, s'⟩
  rw [hEq] at hRun
  cases result with
  | none => exact hE s' hRun
  | some a => exact hQ a s' hRun

theorem Triple.attempt_bind {E₁ : σ → Prop} {R : β → σ → Prop} {f : Option α → Run σ β}
    (hm : Triple P m Q E₁) (hSome : ∀ a, Triple (Q a) (f (some a)) R E)
    (hNone : Triple E₁ (f none) R E) : Triple P (m.attempt >>= f) R E := by
  intro s hs
  have hRun := hm s hs
  show match f (m s).1 (m s).2 with
    | (some b, s') => R b s'
    | (none, s') => E s'
  rcases hEq : m s with ⟨result, s'⟩
  rw [hEq] at hRun
  cases result with
  | none => exact hNone s' hRun
  | some a => exact hSome a s' hRun

theorem Triple.attempt_bind_total {R : β → σ → Prop} {f : Option α → Run σ β}
    (hm : Triple P m Q fun _ => False) (hSome : ∀ a, Triple (Q a) (f (some a)) R E) :
    Triple P (m.attempt >>= f) R E :=
  hm.attempt_bind hSome fun _ hFalse => hFalse.elim

theorem Triple.get_bind {f : σ → Run σ α} (h : ∀ s, P s → Triple (· = s) (f s) Q E) :
    Triple P (Run.get >>= f) Q E := fun s hs => h s hs s rfl

end Rules

end Fallible
