import Mathlib.Data.Fintype.EquivFin
import Mathlib.Logic.Relation

/-! # Depth-first walks that do not mark what they have visited

The vertices of a list are visited in order, each together with what is listed below it. A vertex that fails
ends the whole walk, and a walk never comes back from one that is stuck. On finitely many vertices the walk
ends unless it enters a vertex that is stuck or one from which it enters the same vertex again.
-/

namespace DepthFirst

open Relation

variable {α : Type*} (kids : α → List α) (Fails Stuck : α → Prop)

inductive Walks : List α → Bool → List α → Prop
  | nil : Walks [] true []
  | fails {a : α} {rest : List α} : Fails a → Walks (a :: rest) false [a]
  | stops {a : α} {rest below : List α} : ¬ Fails a → ¬ Stuck a → Walks (kids a) false below →
      Walks (a :: rest) false (a :: below)
  | next {a : α} {rest below after : List α} {ok : Bool} : ¬ Fails a → ¬ Stuck a → Walks (kids a) true below →
      Walks rest ok after → Walks (a :: rest) ok (a :: (below ++ after))

def Lists (a b : α) : Prop := ¬ Fails a ∧ b ∈ kids a

def Clean (a : α) : Prop := ∀ b, ReflTransGen (Lists kids Fails) a b → ¬ Fails b

def Enters (a b : α) : Prop :=
  ¬ Fails a ∧ ∃ before after, kids a = before ++ b :: after ∧ ∀ c ∈ before, Clean kids Fails c

/-- Every path that enters vertex after vertex ends, and not at one that is stuck. -/
inductive Settles : α → Prop
  | intro {a : α} : (¬ Fails a → ¬ Stuck a) → (∀ b, Enters kids Fails a b → Settles b) → Settles a

variable {kids Fails Stuck} {a b c : α} {l rest vs ws : List α} {ok : Bool}

theorem Clean.not_fails (h : Clean kids Fails a) : ¬ Fails a := h a .refl

theorem Clean.kid (h : Clean kids Fails a) (hb : b ∈ kids a) : Clean kids Fails b :=
  fun c hc => h c (.head ⟨h.not_fails, hb⟩ hc)

theorem Clean.of_kids (hOk : ¬ Fails a) (h : ∀ b ∈ kids a, Clean kids Fails b) : Clean kids Fails a := by
  intro c hc
  rcases hc.cases_head with rfl | ⟨b, hab, hbc⟩
  · exact hOk
  · exact h b hab.2 c hbc

theorem Walks.clean (h : Walks kids Fails Stuck l ok vs) : ok = true → ∀ a ∈ l, Clean kids Fails a := by
  induction h with
  | nil => exact fun _ a ha => absurd ha List.not_mem_nil
  | fails _ => exact fun hOk => absurd hOk Bool.false_ne_true
  | stops _ _ _ _ => exact fun hOk => absurd hOk Bool.false_ne_true
  | next hOk _ _ _ ihBelow ihRest =>
    intro hTrue a ha
    rcases List.mem_cons.mp ha with rfl | hRest
    · exact .of_kids hOk (ihBelow rfl)
    · exact ihRest hTrue a hRest

theorem Walks.not_clean (h : Walks kids Fails Stuck l ok vs) : ok = false → ∃ a ∈ l, ¬ Clean kids Fails a := by
  induction h with
  | nil => exact fun hFalse => absurd hFalse.symm Bool.false_ne_true
  | fails hFails => exact fun _ => ⟨_, List.mem_cons_self, fun hClean => hClean.not_fails hFails⟩
  | stops _ _ _ ih =>
    intro _
    obtain ⟨b, hb, hNot⟩ := ih rfl
    exact ⟨_, List.mem_cons_self, fun hClean => hNot (hClean.kid hb)⟩
  | next _ _ _ _ _ ihRest =>
    intro hFalse
    obtain ⟨b, hb, hNot⟩ := ihRest hFalse
    exact ⟨b, List.mem_cons_of_mem _ hb, hNot⟩

theorem Walks.cons_of_false (h : Walks kids Fails Stuck [a] false vs) : Walks kids Fails Stuck (a :: rest) false vs := by
  cases h with
  | fails hFails => exact .fails hFails
  | stops hOk hFree hBelow => exact .stops hOk hFree hBelow
  | next _ _ _ hRest => cases hRest

theorem Walks.cons_of_true (h : Walks kids Fails Stuck [a] true vs) (hRest : Walks kids Fails Stuck rest ok ws) :
    Walks kids Fails Stuck (a :: rest) ok (vs ++ ws) := by
  cases h with
  | next hOk hFree hBelow hNil =>
    cases hNil
    rw [List.append_nil, List.cons_append]
    exact .next hOk hFree hBelow hRest

theorem Walks.of_kids (hOk : ¬ Fails a) (hFree : ¬ Stuck a) (h : Walks kids Fails Stuck (kids a) ok vs) :
    Walks kids Fails Stuck [a] ok (a :: vs) := by
  cases ok with
  | false => exact .stops hOk hFree h
  | true => exact List.append_nil vs ▸ .next hOk hFree h .nil

/-! ### Walks end where every path does -/

theorem Walks.settles (h : Walks kids Fails Stuck l ok vs) :
    ∀ before b after, l = before ++ b :: after → (∀ c ∈ before, Clean kids Fails c) → Settles kids Fails Stuck b := by
  have hHead : ∀ {a : α}, ¬ Fails a → ¬ Stuck a →
      (∀ before b after, kids a = before ++ b :: after → (∀ c ∈ before, Clean kids Fails c) →
        Settles kids Fails Stuck b) → Settles kids Fails Stuck a := by
    intro a _ hFree hKids
    refine .intro (fun _ => hFree) ?_
    rintro b ⟨-, before, after, hSplit, hClean⟩
    exact hKids before b after hSplit hClean
  induction h with
  | nil => exact fun before b after hSplit => absurd hSplit (by simp)
  | fails hFails =>
    intro before b after hSplit hClean
    cases before with
    | nil =>
      obtain ⟨rfl, -⟩ := List.cons.inj hSplit
      exact .intro (fun hOk => absurd hFails hOk) fun c hc => absurd hFails hc.1
    | cons c before =>
      obtain ⟨rfl, -⟩ := List.cons.inj hSplit
      exact absurd hFails (hClean _ List.mem_cons_self).not_fails
  | stops hOk hFree hBelow ih =>
    intro before b after hSplit hClean
    cases before with
    | nil =>
      obtain ⟨rfl, -⟩ := List.cons.inj hSplit
      exact hHead hOk hFree ih
    | cons c before =>
      obtain ⟨rfl, -⟩ := List.cons.inj hSplit
      obtain ⟨d, hd, hNot⟩ := hBelow.not_clean rfl
      exact absurd ((hClean _ List.mem_cons_self).kid hd) hNot
  | next hOk hFree _ _ ihBelow ihRest =>
    intro before b after hSplit hClean
    cases before with
    | nil =>
      obtain ⟨rfl, -⟩ := List.cons.inj hSplit
      exact hHead hOk hFree ihBelow
    | cons c before =>
      obtain ⟨rfl, hRest⟩ := List.cons.inj hSplit
      exact ihRest before b after hRest fun d hd => hClean d (List.mem_cons_of_mem _ hd)

theorem Settles.walks (h : Settles kids Fails Stuck a) : ∃ ok vs, Walks kids Fails Stuck [a] ok vs := by
  induction h with
  | @intro a hFree _ ih =>
    by_cases hFails : Fails a
    · exact ⟨false, [a], .fails hFails⟩
    have hList : ∀ after before, kids a = before ++ after → (∀ c ∈ before, Clean kids Fails c) →
        ∃ ok vs, Walks kids Fails Stuck after ok vs := by
      intro after
      induction after with
      | nil => exact fun _ _ _ => ⟨true, [], .nil⟩
      | cons b after ihAfter =>
        intro before hSplit hClean
        obtain ⟨ok, vs, hWalk⟩ := ih b ⟨hFails, before, after, hSplit, hClean⟩
        cases ok with
        | false => exact ⟨false, vs, hWalk.cons_of_false⟩
        | true =>
          have hb : Clean kids Fails b := hWalk.clean rfl b List.mem_cons_self
          obtain ⟨ok, ws, hAfter⟩ := ihAfter (before ++ [b]) (by simpa using hSplit) fun c hc => by
            rcases List.mem_append.mp hc with hOld | hNew
            · exact hClean c hOld
            · exact List.mem_singleton.mp hNew ▸ hb
          exact ⟨ok, vs ++ ws, hWalk.cons_of_true hAfter⟩
    obtain ⟨ok, vs, hWalk⟩ := hList (kids a) [] rfl fun c hc => absurd hc List.not_mem_nil
    exact ⟨ok, a :: vs, hWalk.of_kids hFails (hFree hFails)⟩

theorem walks_iff_settles : (∃ ok vs, Walks kids Fails Stuck [a] ok vs) ↔ Settles kids Fails Stuck a :=
  ⟨fun ⟨_, _, h⟩ => h.settles [] a [] rfl fun _ hc => absurd hc List.not_mem_nil, fun h => h.walks⟩

/-! ### Cycles -/

theorem Settles.of_reach (h : Settles kids Fails Stuck a) (hab : ReflTransGen (Enters kids Fails) a b) :
    Settles kids Fails Stuck b := by
  induction hab with
  | refl => exact h
  | tail _ hbc ih =>
    obtain ⟨-, hKids⟩ := ih
    exact hKids _ hbc

theorem Settles.no_loop (h : Settles kids Fails Stuck a) : ¬ TransGen (Enters kids Fails) a a := by
  induction h with
  | intro _ _ ih =>
    intro hLoop
    obtain ⟨b, hab, hba⟩ := TransGen.head'_iff.mp hLoop
    exact ih b hab (TransGen.tail' hba hab)

theorem walks_iff [Finite α] : (∃ ok vs, Walks kids Fails Stuck [a] ok vs) ↔
    ∀ b, ReflTransGen (Enters kids Fails) a b →
      (¬ Fails b → ¬ Stuck b) ∧ ¬ TransGen (Enters kids Fails) b b := by
  rw [walks_iff_settles]
  constructor
  · intro h b hab
    have hSettles := h.of_reach hab
    refine ⟨?_, hSettles.no_loop⟩
    obtain ⟨hFree, -⟩ := hSettles
    exact hFree
  · intro h
    -- Entering goes down in a well-founded order on the vertices that are reached.
    let below : {b // ReflTransGen (Enters kids Fails) a b} → {b // ReflTransGen (Enters kids Fails) a b} → Prop :=
      fun x y => TransGen (Enters kids Fails) y.1 x.1
    have : IsTrans _ below := ⟨fun x y z hxy hyz => TransGen.trans hyz hxy⟩
    have : Std.Irrefl below := ⟨fun x => (h x.1 x.2).2⟩
    have hWf : WellFounded below := Finite.wellFounded_of_trans_of_irrefl below
    have hAll : ∀ x : {b // ReflTransGen (Enters kids Fails) a b}, Settles kids Fails Stuck x.1 := by
      intro x
      induction x using hWf.induction with
      | _ x ih => exact .intro (h x.1 x.2).1 fun b hb => ih ⟨b, x.2.tail hb⟩ (.single hb)
    exact hAll ⟨a, .refl⟩

end DepthFirst
