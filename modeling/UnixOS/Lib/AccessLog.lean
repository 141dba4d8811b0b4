import Mathlib.Logic.Basic

/-! # Computations that record what they touch

A computation over a state ends with a value, or stops for a reason, and leaves a list of its accesses.
`Keeps ok m s` says that every access of `m` from `s` is allowed. Where the result of the first part is
known, the condition of a sequence is the condition of the first part and that of the rest from there.
-/

namespace AccessLog

structure Outcome (σ β ε α : Type) where
  result : Except β α
  state : σ
  log : List ε

def Run (σ β ε α : Type) : Type := σ → Outcome σ β ε α

variable {σ β ε α γ : Type}

def Outcome.after (log : List ε) (o : Outcome σ β ε α) : Outcome σ β ε α := ⟨o.result, o.state, log ++ o.log⟩

def Outcome.andThen (o : Outcome σ β ε α) (f : α → Run σ β ε γ) : Outcome σ β ε γ :=
  match o.result with
  | .ok a => (f a o.state).after o.log
  | .error e => ⟨.error e, o.state, o.log⟩

instance : Monad (Run σ β ε) where
  pure a := fun s => ⟨.ok a, s, []⟩
  bind m f := fun s => (m s).andThen f

namespace Run

def get : Run σ β ε σ := fun s => ⟨.ok s, s, []⟩

def modify (f : σ → σ) : Run σ β ε Unit := fun s => ⟨.ok (), f s, []⟩

def stop (e : β) : Run σ β ε α := fun s => ⟨.error e, s, []⟩

def access (e : ε) : Run σ β ε Unit := fun s => ⟨.ok (), s, [e]⟩

end Run

def erase (m : Run σ β ε α) (s : σ) : Except β α × σ := ((m s).result, (m s).state)

def Keeps (ok : ε → Prop) (m : Run σ β ε α) (s : σ) : Prop := ∀ e ∈ (m s).log, ok e

section Erase

variable {m : Run σ β ε α} {f : α → Run σ β ε γ} {s s' : σ}

@[simp] theorem erase_pure (a : α) : erase (pure a : Run σ β ε α) s = (.ok a, s) := rfl

@[simp] theorem erase_get : erase (Run.get : Run σ β ε σ) s = (.ok s, s) := rfl

@[simp] theorem erase_modify (g : σ → σ) : erase (Run.modify g : Run σ β ε Unit) s = (.ok (), g s) := rfl

@[simp] theorem erase_stop (e : β) : erase (Run.stop e : Run σ β ε α) s = (.error e, s) := rfl

@[simp] theorem erase_access (e : ε) : erase (Run.access e : Run σ β ε Unit) s = (.ok (), s) := rfl

theorem erase_ite {c : Prop} [Decidable c] (m m' : Run σ β ε α) :
    erase (if c then m else m') s = if c then erase m s else erase m' s := by
  split <;> rfl

theorem erase_bind_ok {a : α} (h : erase m s = (.ok a, s')) : erase (m >>= f) s = erase (f a) s' := by
  obtain ⟨hResult, rfl⟩ := Prod.mk.inj h
  show (((m s).andThen f).result, ((m s).andThen f).state) = _
  unfold Outcome.andThen
  rw [hResult]
  rfl

theorem erase_bind_error {e : β} (h : erase m s = (.error e, s')) : erase (m >>= f) s = (.error e, s') := by
  obtain ⟨hResult, rfl⟩ := Prod.mk.inj h
  show (((m s).andThen f).result, ((m s).andThen f).state) = _
  unfold Outcome.andThen
  rw [hResult]

end Erase

section Keeps

variable {ok : ε → Prop} {m : Run σ β ε α} {f : α → Run σ β ε γ} {s s' : σ}

@[simp] theorem keeps_pure (a : α) : Keeps ok (pure a : Run σ β ε α) s ↔ True :=
  iff_true_intro fun _ he => absurd he List.not_mem_nil

@[simp] theorem keeps_stop (e : β) : Keeps ok (Run.stop e : Run σ β ε α) s ↔ True :=
  iff_true_intro fun _ he => absurd he List.not_mem_nil

theorem keeps_ite {c : Prop} [Decidable c] (m m' : Run σ β ε α) :
    Keeps ok (if c then m else m') s ↔ if c then Keeps ok m s else Keeps ok m' s := by
  split <;> rfl

end Keeps

section Outcomes

variable {m : Run σ β ε α} {f : α → Run σ β ε γ} {s s' : σ} {log log' : List ε}

theorem bind_of_ok {a : α} (h : m s = ⟨.ok a, s', log⟩) : (m >>= f) s = (f a s').after log := by
  show (m s).andThen f = _
  rw [h]
  rfl

theorem bind_get {f : σ → Run σ β ε γ} : (Run.get >>= f) s = f s s :=
  rfl

theorem bind_modify {f : Unit → Run σ β ε γ} (g : σ → σ) : (Run.modify g >>= f) s = f () (g s) :=
  rfl

theorem bind_access {f : Unit → Run σ β ε γ} (e : ε) : (Run.access e >>= f) s = (f () s).after [e] :=
  rfl

theorem Outcome.after_after (o : Outcome σ β ε α) : (o.after log').after log = o.after (log ++ log') := by
  rw [Outcome.after, Outcome.after, Outcome.after, List.append_assoc]

end Outcomes

end AccessLog
