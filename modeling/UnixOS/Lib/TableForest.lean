import Mathlib.Data.List.Induction
import Mathlib.Logic.Function.Basic

/-! # Forests of lookup tables

Tables in memory whose entries lead to further tables. A walk follows one entry of each table on its way;
the last entry is not followed but read. There may be several roots, and of each root only some paths are
its own. As long as no table is reached by two paths that somebody owns, a write to a table that is
reached by one of them is seen by no other.
-/

namespace TableForest

variable {α ι ε ρ : Type*}

def follow (child : ε → Option α) (mem : α → ι → ε) : α → List ι → Option α
  | t, [] => some t
  | t, i :: path => (child (mem t i)).bind fun c => follow child mem c path

/-- The live entry that a walk along `path` ends at, with the number of entries it did not look at; the
entry `last` of the last table is not followed. -/
def resolve (child : ε → Option α) (live : ε → Bool) (mem : α → ι → ε) :
    α → List ι → ι → Option (ε × Nat)
  | t, [], last => if live (mem t last) then some (mem t last, 0) else none
  | t, i :: path, last =>
    match child (mem t i) with
    | some c => resolve child live mem c path last
    | none => if live (mem t i) then some (mem t i, path.length + 1) else none

def setEntry [DecidableEq α] [DecidableEq ι] (mem : α → ι → ε) (t : α) (i : ι) (e : ε) : α → ι → ε :=
  Function.update mem t (Function.update (mem t) i e)

section Walks

variable {child : ε → Option α} {live : ε → Bool} {mem mem' : α → ι → ε} {t c : α} {p q : List ι} {i : ι}

theorem follow_append : follow child mem t (p ++ q) =
    (follow child mem t p).bind fun c => follow child mem c q := by
  induction p generalizing t with
  | nil => rfl
  | cons j p ih =>
    rw [List.cons_append, follow, follow, Option.bind_assoc]
    exact congrArg _ (funext fun c => ih)

theorem follow_concat : follow child mem t (p ++ [i]) =
    (follow child mem t p).bind fun c => child (mem c i) := by
  have hLast : ∀ c, follow child mem c [i] = child (mem c i) := fun c => Option.bind_fun_some _
  rw [follow_append]
  exact congrArg _ (funext hLast)

theorem resolve_append (h : follow child mem t p = some c) :
    resolve child live mem t (p ++ q) i = resolve child live mem c q i := by
  induction p generalizing t with
  | nil =>
    obtain rfl : t = c := Option.some.inj h
    rfl
  | cons j p ih =>
    rw [follow] at h
    obtain ⟨d, hChild, hRest⟩ := Option.bind_eq_some_iff.mp h
    rw [List.cons_append, resolve, hChild]
    exact ih hRest

theorem resolve_of_follow_none (h : follow child mem t p = none) (e : ε) :
    resolve child live mem t p i ≠ some (e, 0) := by
  induction p generalizing t with
  | nil => cases h
  | cons j p ih =>
    rw [follow] at h
    rw [resolve]
    cases hChild : child (mem t j) with
    | none =>
      show (if live (mem t j) then some (mem t j, p.length + 1) else none) ≠ some (e, 0)
      split_ifs
      · intro hEq
        cases hEq
      · exact Option.some_ne_none _ ∘ Eq.symm
    | some d =>
      rw [hChild] at h
      exact ih h

theorem resolve_cases {e : ε} {n : Nat} (h : resolve child live mem t p i = some (e, n)) :
    (∃ c, follow child mem t p = some c ∧ mem c i = e ∧ live e = true ∧ n = 0) ∨
      ∃ q j c, q ++ [j] <+: p ∧ follow child mem t q = some c ∧ child (mem c j) = none ∧
        live (mem c j) = true := by
  induction p generalizing t with
  | nil =>
    rw [resolve] at h
    split_ifs at h with hLive
    obtain ⟨rfl, rfl⟩ := Prod.mk.inj (Option.some.inj h)
    exact Or.inl ⟨t, rfl, rfl, hLive, rfl⟩
  | cons j p ih =>
    rw [resolve] at h
    cases hChild : child (mem t j) with
    | none =>
      rw [hChild] at h
      dsimp only at h
      split_ifs at h with hLive
      exact Or.inr ⟨[], j, t, List.prefix_append [j] p, rfl, hChild, hLive⟩
    | some d =>
      rw [hChild] at h
      have hStep : ∀ r, follow child mem t (j :: r) = follow child mem d r := by
        intro r
        rw [follow, hChild]
        rfl
      rcases ih h with ⟨c, hc, hRest⟩ | ⟨q, k, c, hPrefix, hc, hRest⟩
      · exact Or.inl ⟨c, (hStep p).trans hc, hRest⟩
      · refine Or.inr ⟨j :: q, k, c, ?_, (hStep q).trans hc, hRest⟩
        exact List.cons_prefix_cons.mpr ⟨rfl, hPrefix⟩

theorem resolve_congr
    (hSame : ∀ r j, r ++ [j] <+: p ++ [i] → ∀ c, follow child mem t r = some c → mem' c j = mem c j) :
    resolve child live mem' t p i = resolve child live mem t p i := by
  induction p generalizing t with
  | nil => rw [resolve, resolve, hSame [] i List.prefix_rfl t rfl]
  | cons j p ih =>
    have hFirst : mem' t j = mem t j := hSame [] j (List.prefix_append [j] (p ++ [i])) t rfl
    rw [resolve, resolve, hFirst]
    cases hChild : child (mem t j) with
    | none => rfl
    | some d =>
      apply ih
      intro r k hPrefix c hc
      refine hSame (j :: r) k (List.cons_prefix_cons.mpr ⟨rfl, hPrefix⟩) c ?_
      rw [follow, hChild]
      exact hc

variable [DecidableEq α] [DecidableEq ι]

theorem setEntry_self (mem : α → ι → ε) (t : α) (i : ι) (e : ε) : setEntry mem t i e t i = e := by
  rw [setEntry, Function.update_self, Function.update_self]

theorem setEntry_of_ne {x : α} {j : ι} (e : ε) (h : ¬ (x = t ∧ j = i)) :
    setEntry mem t i e x j = mem x j := by
  unfold setEntry
  by_cases hx : x = t
  · subst hx
    rw [Function.update_self, Function.update_of_ne fun hj => h ⟨rfl, hj⟩]
  · rw [Function.update_of_ne hx]

end Walks

/-! ### Owned paths -/

section Forests

variable {child : ε → Option α} {live : ε → Bool} {mem mem' : α → ι → ε} {root : ρ → Option α}
  {own : ρ → List ι → Prop}

def Reaches (child : ε → Option α) (root : ρ → Option α) (mem : α → ι → ε) (r : ρ) (p : List ι) (t : α) :
    Prop :=
  (root r).bind (fun a => follow child mem a p) = some t

def Separated (child : ε → Option α) (root : ρ → Option α) (own : ρ → List ι → Prop)
    (mem : α → ι → ε) : Prop :=
  ∀ r r' p p' t, own r p → own r' p' → Reaches child root mem r p t → Reaches child root mem r' p' t →
    r = r' ∧ p = p'

def PrefixClosed (own : ρ → List ι → Prop) : Prop := ∀ r p i, own r (p ++ [i]) → own r p

theorem reaches_concat {r : ρ} {p : List ι} {i : ι} {t : α} :
    Reaches child root mem r (p ++ [i]) t ↔
      ∃ c, Reaches child root mem r p c ∧ child (mem c i) = some t := by
  unfold Reaches
  cases root r with
  | none => simp
  | some a => simp only [Option.bind_some, follow_concat, Option.bind_eq_some_iff]

theorem reaches_congr (hClosed : PrefixClosed own)
    (hSame : ∀ r p i c, own r (p ++ [i]) → Reaches child root mem r p c →
      child (mem' c i) = child (mem c i)) {r : ρ} {p : List ι} (hOwn : own r p) (t : α) :
    Reaches child root mem' r p t ↔ Reaches child root mem r p t := by
  induction p using List.reverseRecOn generalizing t with
  | nil => exact Iff.rfl
  | append_singleton p i ih =>
    rw [reaches_concat, reaches_concat]
    refine exists_congr fun c => ?_
    rw [ih (hClosed r p i hOwn)]
    refine and_congr_right fun hc => ?_
    rw [hSame r p i c hOwn hc]

theorem Separated.of_reaches (h : Separated child root own mem)
    (hSame : ∀ r p t, own r p → (Reaches child root mem' r p t ↔ Reaches child root mem r p t)) :
    Separated child root own mem' := by
  intro r r' p p' t hp hp' ht ht'
  exact h r r' p p' t hp hp' ((hSame r p t hp).mp ht) ((hSame r' p' t hp').mp ht')

theorem own_of_isPrefix (hClosed : PrefixClosed own) {r : ρ} {p q : List ι} (hOwn : own r q)
    (hPrefix : p <+: q) : own r p := by
  induction q using List.reverseRecOn with
  | nil =>
    rw [List.prefix_nil.mp hPrefix]
    exact hOwn
  | append_singleton q i ih =>
    rcases List.prefix_concat_iff.mp hPrefix with rfl | hShorter
    · exact hOwn
    · exact ih (hClosed r q i hOwn) hShorter

theorem resolve_of_reaches (hClosed : PrefixClosed own)
    {r : ρ} {a : α} (hRoot : root r = some a) {p : List ι} (hOwn : own r p) {i : ι}
    (hSame : ∀ q j c, own r q → Reaches child root mem r q c → q ++ [j] <+: p ++ [i] →
      mem' c j = mem c j) :
    resolve child live mem' a p i = resolve child live mem a p i := by
  apply resolve_congr
  intro q j hPrefix c hc
  have hReach : Reaches child root mem r q c := by
    unfold Reaches
    rw [hRoot]
    exact hc
  have hShorter : q <+: p := by
    rcases List.prefix_concat_iff.mp hPrefix with hEq | hInner
    · exact (List.append_inj' hEq rfl).1 ▸ List.prefix_rfl
    · exact (List.prefix_append q [j]).trans hInner
  exact hSame q j c (own_of_isPrefix hClosed hOwn hShorter) hReach hPrefix

/-! ### Writing an entry that is not followed -/

section Leaves

variable [DecidableEq α] [DecidableEq ι] {r : ρ} {p : List ι} {t : α}

theorem Separated.reaches_write (h : Separated child root own mem) (hClosed : PrefixClosed own)
    (hOwn : own r p) (ht : Reaches child root mem r p t) (hDeep : ∀ j, ¬ own r (p ++ [j])) (i : ι) (e : ε)
    {r' : ρ} {q : List ι} (hq : own r' q) (x : α) :
    Reaches child root (setEntry mem t i e) r' q x ↔ Reaches child root mem r' q x := by
  refine reaches_congr hClosed (fun r'' p'' j c hNext hc => ?_) hq x
  rw [setEntry_of_ne]
  rintro ⟨rfl, -⟩
  obtain ⟨rfl, rfl⟩ := h r'' r p'' p c (hClosed _ _ _ hNext) hOwn hc ht
  exact hDeep j hNext

theorem Separated.write (h : Separated child root own mem) (hClosed : PrefixClosed own)
    (hOwn : own r p) (ht : Reaches child root mem r p t) (hDeep : ∀ j, ¬ own r (p ++ [j])) (i : ι) (e : ε) :
    Separated child root own (setEntry mem t i e) :=
  h.of_reaches fun _ _ x hq => h.reaches_write hClosed hOwn ht hDeep i e hq x

theorem Separated.resolve_write_of_ne (h : Separated child root own mem) (hClosed : PrefixClosed own)
    (hOwn : own r p) (ht : Reaches child root mem r p t) (hDeep : ∀ j, ¬ own r (p ++ [j])) {i : ι} {e : ε}
    {r' : ρ} {a : α} (hRoot : root r' = some a) {q : List ι} (hq : own r' q) {k : ι}
    (hOther : ¬ (r' = r ∧ q = p ∧ k = i)) :
    resolve child live (setEntry mem t i e) a q k = resolve child live mem a q k := by
  refine resolve_of_reaches hClosed hRoot hq fun q' j c hq' hc hMet => ?_
  rw [setEntry_of_ne]
  rintro ⟨rfl, rfl⟩
  obtain ⟨rfl, rfl⟩ := h r' r q' p c hq' hOwn hc ht
  rcases List.prefix_concat_iff.mp hMet with hEq | hNext
  · obtain ⟨rfl, hLast⟩ := List.append_inj' hEq rfl
    exact hOther ⟨rfl, rfl, (List.singleton_inj.mp hLast).symm⟩
  · exact hDeep j (own_of_isPrefix hClosed hq hNext)

theorem Separated.resolve_write_self (h : Separated child root own mem) (hClosed : PrefixClosed own)
    (hOwn : own r p) (ht : Reaches child root mem r p t) (hDeep : ∀ j, ¬ own r (p ++ [j])) {i : ι} {e : ε}
    {a : α} (hRoot : root r = some a) :
    resolve child live (setEntry mem t i e) a p i = if live e then some (e, 0) else none := by
  have hReach := (h.reaches_write hClosed hOwn ht hDeep i e hOwn t).mpr ht
  unfold Reaches at hReach
  rw [hRoot, Option.bind_some] at hReach
  have hEnd : resolve child live (setEntry mem t i e) a (p ++ []) i = _ := resolve_append hReach
  rw [List.append_nil] at hEnd
  rw [hEnd, resolve, setEntry_self]

end Leaves

/-! ### A new table -/

section Tables

variable [DecidableEq α] [DecidableEq ι]

def install (mem : α → ι → ε) (zero : ε) (t : α) (i : ι) (e : ε) (c : α) : α → ι → ε :=
  setEntry (Function.update mem c fun _ => zero) t i e

variable {r : ρ} {p : List ι} {i : ι} {t c : α} {zero e : ε}

theorem install_of_ne {x : α} {j : ι} (hx : x ≠ c) (h : ¬ (x = t ∧ j = i)) :
    install mem zero t i e c x j = mem x j := by
  rw [install, setEntry_of_ne e h, Function.update_of_ne hx]

theorem install_new {j : ι} (hNe : c ≠ t) : install mem zero t i e c c j = zero := by
  rw [install, setEntry_of_ne e fun h => hNe h.1, Function.update_self]

/-- What is known when a table `c` is put at entry `i` of the table at the end of `p`. -/
structure Installs (child : ε → Option α) (live : ε → Bool) (root : ρ → Option α)
    (own : ρ → List ι → Prop) (mem : α → ι → ε) (r : ρ) (p : List ι) (i : ι) (t c : α) (zero e : ε) :
    Prop where
  own_next : own r (p ++ [i])
  reaches : Reaches child root mem r p t
  vacant : child (mem t i) = none
  dead : live (mem t i) = false
  fresh : ∀ r' q, own r' q → ¬ Reaches child root mem r' q c
  leads : child e = some c
  zero_child : child zero = none
  zero_dead : live zero = false

omit [DecidableEq α] [DecidableEq ι] in
theorem Installs.ne (hInst : Installs child live root own mem r p i t c zero e)
    (hClosed : PrefixClosed own) : c ≠ t := by
  rintro rfl
  exact hInst.fresh r p (hClosed r p i hInst.own_next) hInst.reaches

variable (hInst : Installs child live root own mem r p i t c zero e) (hClosed : PrefixClosed own)
  (hSep : Separated child root own mem)

include hInst hClosed hSep

theorem Installs.reaches_iff {r' : ρ} {q : List ι} (hq : own r' q) (x : α) :
    Reaches child root (install mem zero t i e c) r' q x ↔
      Reaches child root mem r' q x ∨ r' = r ∧ q = p ++ [i] ∧ x = c := by
  have hNe := hInst.ne hClosed
  have hOwnP := hClosed r p i hInst.own_next
  induction q using List.reverseRecOn generalizing x with
  | nil =>
    refine ⟨Or.inl, fun h => h.resolve_right ?_⟩
    rintro ⟨-, hEq, -⟩
    cases p <;> cases hEq
  | append_singleton q j ih =>
    have hOwnQ := hClosed r' q j hq
    rw [reaches_concat, reaches_concat]
    constructor
    · rintro ⟨d, hd, hChild⟩
      rcases (ih hOwnQ d).mp hd with hOld | ⟨rfl, rfl, rfl⟩
      · have hd' : d ≠ c := fun hEq => hInst.fresh r' q hOwnQ (hEq ▸ hOld)
        by_cases hHere : d = t ∧ j = i
        · obtain ⟨rfl, rfl⟩ := hHere
          obtain ⟨rfl, rfl⟩ := hSep r' r q p d hOwnQ hOwnP hOld hInst.reaches
          rw [install, setEntry_self, hInst.leads] at hChild
          exact Or.inr ⟨rfl, rfl, (Option.some.inj hChild).symm⟩
        · rw [install_of_ne hd' hHere] at hChild
          exact Or.inl ⟨d, hOld, hChild⟩
      · rw [install_new hNe, hInst.zero_child] at hChild
        cases hChild
    · rintro (⟨d, hOld, hChild⟩ | ⟨rfl, hEq, rfl⟩)
      · have hd' : d ≠ c := fun hEq => hInst.fresh r' q hOwnQ (hEq ▸ hOld)
        refine ⟨d, (ih hOwnQ d).mpr (Or.inl hOld), ?_⟩
        rw [install_of_ne hd', hChild]
        rintro ⟨rfl, rfl⟩
        rw [hInst.vacant] at hChild
        cases hChild
      · obtain ⟨rfl, hSame⟩ := List.append_inj' hEq rfl
        obtain rfl : j = i := List.singleton_inj.mp hSame
        refine ⟨t, (ih hOwnQ t).mpr (Or.inl hInst.reaches), ?_⟩
        rw [install, setEntry_self, hInst.leads]

theorem Installs.separated : Separated child root own (install mem zero t i e c) := by
  intro r₁ r₂ p₁ p₂ x hp₁ hp₂ h₁ h₂
  rcases (hInst.reaches_iff hClosed hSep hp₁ x).mp h₁ with hOld₁ | ⟨rfl, rfl, rfl⟩
  · rcases (hInst.reaches_iff hClosed hSep hp₂ x).mp h₂ with hOld₂ | ⟨-, -, rfl⟩
    · exact hSep r₁ r₂ p₁ p₂ x hp₁ hp₂ hOld₁ hOld₂
    · exact absurd hOld₁ (hInst.fresh r₁ p₁ hp₁)
  · rcases (hInst.reaches_iff hClosed hSep hp₂ x).mp h₂ with hOld₂ | ⟨rfl, rfl, -⟩
    · exact absurd hOld₂ (hInst.fresh r₂ p₂ hp₂)
    · exact ⟨rfl, rfl⟩

theorem Installs.resolve_eq {r' : ρ} {a : α} (hRoot : root r' = some a) {q : List ι} (hq : own r' q)
    {k : ι} (hEnd : q ≠ p) :
    resolve child live (install mem zero t i e c) a q k = resolve child live mem a q k := by
  have hNe := hInst.ne hClosed
  have hOwnP := hClosed r p i hInst.own_next
  by_cases hThrough : r' = r ∧ p ++ [i] <+: q
  · obtain ⟨rfl, rest, rfl⟩ := hThrough
    have hOld : follow child mem a p = some t := by
      have h := hInst.reaches
      unfold Reaches at h
      rwa [hRoot] at h
    have hNew : follow child (install mem zero t i e c) a p = some t := by
      have h := (hInst.reaches_iff hClosed hSep hOwnP t).mpr (Or.inl hInst.reaches)
      unfold Reaches at h
      rwa [hRoot] at h
    have hLeads : child (install mem zero t i e c t i) = some c := by
      rw [install, setEntry_self, hInst.leads]
    rw [List.append_assoc, List.singleton_append, resolve_append hOld, resolve_append hNew, resolve,
      resolve, hLeads, hInst.vacant, hInst.dead]
    show resolve child live (install mem zero t i e c) c rest k = none
    cases rest with
    | nil => rw [resolve, install_new hNe, hInst.zero_dead]; rfl
    | cons j rest => rw [resolve, install_new hNe, hInst.zero_child, hInst.zero_dead]; rfl
  · refine resolve_of_reaches hClosed hRoot hq fun q' j d hq' hd hMet => install_of_ne ?_ ?_
    · rintro rfl
      exact hInst.fresh r' q' hq' hd
    · rintro ⟨rfl, rfl⟩
      obtain ⟨rfl, rfl⟩ := hSep r' r q' p d hq' hOwnP hd hInst.reaches
      rcases List.prefix_concat_iff.mp hMet with hEq | hNext
      · exact hEnd (List.append_inj' hEq rfl).1.symm
      · exact hThrough ⟨rfl, hNext⟩

end Tables

/-! ### A new root -/

section Roots

variable [DecidableEq ρ] {r : ρ} {a : α}

/-- What is known when the table `a` becomes the root `r`: nobody came to it, and nothing that `r` owns
goes on from it. -/
structure Plants (child : ε → Option α) (root : ρ → Option α) (own : ρ → List ι → Prop)
    (mem mem' : α → ι → ε) (r : ρ) (a : α) : Prop where
  absent : root r = none
  fresh : ∀ r' q, own r' q → ¬ Reaches child root mem r' q a
  others : ∀ x, x ≠ a → mem' x = mem x
  empty : ∀ j, own r [j] → child (mem' a j) = none

variable (hPlant : Plants child root own mem mem' r a) (hClosed : PrefixClosed own)

include hPlant

omit [DecidableEq ρ] in
theorem Plants.not_reaches (q : List ι) (x : α) : ¬ Reaches child root mem r q x := by
  intro h
  unfold Reaches at h
  rw [hPlant.absent] at h
  cases h

include hClosed

theorem Plants.reaches_iff {r' : ρ} {q : List ι} (hq : own r' q) (x : α) :
    Reaches child (Function.update root r (some a)) mem' r' q x ↔
      Reaches child root mem r' q x ∨ r' = r ∧ q = [] ∧ x = a := by
  induction q using List.reverseRecOn generalizing x with
  | nil =>
    by_cases hr : r' = r
    · subst hr
      have hAt : Reaches child (Function.update root r' (some a)) mem' r' [] x ↔ a = x := by
        unfold Reaches
        rw [Function.update_self]
        exact Option.some_inj
      have hNo := hPlant.not_reaches [] x
      tauto
    · have hAt : Reaches child (Function.update root r (some a)) mem' r' [] x ↔
          Reaches child root mem r' [] x := by
        unfold Reaches
        rw [Function.update_of_ne hr]
        exact Iff.rfl
      tauto
  | append_singleton q j ih =>
    have hOwnQ := hClosed r' q j hq
    rw [reaches_concat, reaches_concat]
    constructor
    · rintro ⟨d, hd, hChild⟩
      rcases (ih hOwnQ d).mp hd with hOld | ⟨rfl, rfl, rfl⟩
      · rw [hPlant.others d fun hEq => hPlant.fresh r' q hOwnQ (hEq ▸ hOld)] at hChild
        exact Or.inl ⟨d, hOld, hChild⟩
      · rw [hPlant.empty j hq] at hChild
        cases hChild
    · rintro (⟨d, hOld, hChild⟩ | ⟨-, hEq, -⟩)
      · refine ⟨d, (ih hOwnQ d).mpr (Or.inl hOld), ?_⟩
        rwa [hPlant.others d fun hEq => hPlant.fresh r' q hOwnQ (hEq ▸ hOld)]
      · exact absurd hEq (List.append_ne_nil_of_right_ne_nil q (List.cons_ne_nil j []))

theorem Plants.separated (hSep : Separated child root own mem) :
    Separated child (Function.update root r (some a)) own mem' := by
  intro r₁ r₂ p₁ p₂ x hp₁ hp₂ h₁ h₂
  rcases (hPlant.reaches_iff hClosed hp₁ x).mp h₁ with hOld₁ | ⟨rfl, rfl, rfl⟩
  · rcases (hPlant.reaches_iff hClosed hp₂ x).mp h₂ with hOld₂ | ⟨-, -, rfl⟩
    · exact hSep r₁ r₂ p₁ p₂ x hp₁ hp₂ hOld₁ hOld₂
    · exact absurd hOld₁ (hPlant.fresh r₁ p₁ hp₁)
  · rcases (hPlant.reaches_iff hClosed hp₂ x).mp h₂ with hOld₂ | ⟨rfl, rfl, -⟩
    · exact absurd hOld₂ (hPlant.fresh r₂ p₂ hp₂)
    · exact ⟨rfl, rfl⟩

omit [DecidableEq ρ] in
theorem Plants.resolve_eq {r' : ρ} {b : α} (hRoot : root r' = some b) {q : List ι} (hq : own r' q)
    {k : ι} : resolve child live mem' b q k = resolve child live mem b q k := by
  refine resolve_of_reaches hClosed hRoot hq fun q' j d hq' hd _ => ?_
  rw [hPlant.others d fun hEq => hPlant.fresh r' q' hq' (hEq ▸ hd)]

end Roots

end Forests

end TableForest
