import Mathlib.Algebra.BigOperators.Group.Finset.Basic
import Mathlib.Algebra.GroupWithZero.Nat
import Mathlib.Algebra.Order.BigOperators.Group.Finset

/-! # Removing what a work stack reaches

Every vertex has a key of its own and the key of its parent. A stack of keys is worked off: the top
key is popped, every vertex that is alive and has it for a parent is taken, its key is pushed and the
vertex is removed. At most one vertex is pinned: it is taken like the others, and never removed.

The stack empties unless the pinned vertex is reached and has its own key for a parent, and what is
removed then is what the links reach, the pinned vertex apart. The stack never outgrows the vertices.
-/

namespace Worklist

variable {V K : Type*} [DecidableEq V] [DecidableEq K]

structure Work (V K : Type*) where
  alive : Finset V
  stack : List K

variable (parent key : V → K) (pin : Option V)

def taken (w : Work V K) (k : K) : Finset V := w.alive.filter fun v => parent v = k

structure Pops (w w' : Work V K) (k : K) (rest pushed : List K) : Prop where
  before : w.stack = k :: rest
  after : w'.stack = pushed ++ rest
  keys : (pushed : Multiset K) = (taken parent w k).val.map key
  alive : w'.alive = w.alive.filter fun v => parent v ≠ k ∨ pin = some v

inductive Reach (alive : Finset V) (root : K) : V → Prop
  | child {v : V} : v ∈ alive → parent v = root → Reach alive root v
  | step {u v : V} : Reach alive root u → v ∈ alive → parent v = key u → Reach alive root v

variable {parent key pin}

omit [DecidableEq V] [DecidableEq K] in
theorem Reach.mem {alive : Finset V} {root : K} {v : V} (h : Reach parent key alive root v) :
    v ∈ alive := by
  cases h with
  | child hMem _ => exact hMem
  | step _ hMem _ => exact hMem

theorem Pops.mem_pushed {w w' : Work V K} {k : K} {rest pushed : List K}
    (h : Pops parent key pin w w' k rest pushed) {k' : K} :
    k' ∈ pushed ↔ ∃ v ∈ w.alive, parent v = k ∧ key v = k' := by
  rw [← Multiset.mem_coe, h.keys, Multiset.mem_map]
  simp only [taken, Finset.mem_val, Finset.mem_filter, and_assoc]

/-! ### What is removed -/

structure Progress (parent key : V → K) (pin : Option V) (alive : Finset V) (root : K)
    (w : Work V K) (done : K → Prop) : Prop where
  reached : ∀ k, k ∈ w.stack ∨ done k → k = root ∨ ∃ u, Reach parent key alive root u ∧ key u = k
  subset : w.alive ⊆ alive
  removed : ∀ v ∈ alive, v ∉ w.alive →
    Reach parent key alive root v ∧ pin ≠ some v ∧ (key v ∈ w.stack ∨ done (key v))
  closed : ∀ v ∈ w.alive, done (parent v) → pin = some v ∧ (key v ∈ w.stack ∨ done (key v))
  start : root ∈ w.stack ∨ done root
  loops : ∀ v, pin = some v → v ∈ alive → parent v = key v → done (key v) → key v ∈ w.stack

omit [DecidableEq V] [DecidableEq K] in
theorem Progress.init (alive : Finset V) (root : K) :
    Progress parent key pin alive root ⟨alive, [root]⟩ fun _ => False where
  reached := by
    intro k hk
    rcases hk with hMem | hFalse
    · exact Or.inl (List.mem_singleton.mp hMem)
    · exact hFalse.elim
  subset := Finset.Subset.refl alive
  removed := fun _ hMem hNot => absurd hMem hNot
  closed := fun _ _ hDone => hDone.elim
  start := Or.inl List.mem_cons_self
  loops := fun _ _ _ _ hDone => hDone.elim

omit [DecidableEq V] in
theorem Progress.reach_of_taken {alive : Finset V} {root : K} {w : Work V K} {done : K → Prop}
    {k : K} {rest : List K} (h : Progress parent key pin alive root w done)
    (hStack : w.stack = k :: rest) {v : V} (hTaken : v ∈ taken parent w k) :
    Reach parent key alive root v := by
  obtain ⟨hMem, hParent⟩ := Finset.mem_filter.mp hTaken
  have hKey : k ∈ w.stack ∨ done k := by
    rw [hStack]
    exact Or.inl List.mem_cons_self
  rcases h.reached k hKey with hRoot | ⟨u, hReach, hEq⟩
  · exact .child (h.subset hMem) (hParent.trans hRoot)
  · exact .step hReach (h.subset hMem) (hParent.trans hEq.symm)

theorem Progress.pop {alive : Finset V} {root : K} {w w' : Work V K} {done : K → Prop}
    {k : K} {rest pushed : List K} (h : Progress parent key pin alive root w done)
    (hPop : Pops parent key pin w w' k rest pushed) :
    Progress parent key pin alive root w' fun k' => done k' ∨ k' = k := by
  have hKey : k = root ∨ ∃ u, Reach parent key alive root u ∧ key u = k := by
    apply h.reached
    rw [hPop.before]
    exact Or.inl List.mem_cons_self
  -- A key that was on the stack or done is so still.
  have hKeep : ∀ k', k' ∈ w.stack ∨ done k' → k' ∈ w'.stack ∨ done k' ∨ k' = k := by
    intro k' hOld
    rw [hPop.after]
    rw [hPop.before, List.mem_cons] at hOld
    rcases hOld with (hEq | hRest) | hDone
    · exact Or.inr (Or.inr hEq)
    · exact Or.inl (List.mem_append_right _ hRest)
    · exact Or.inr (Or.inl hDone)
  have hTaken : ∀ v ∈ w.alive, parent v = k → Reach parent key alive root v := by
    intro v hMem hParent
    exact h.reach_of_taken hPop.before (Finset.mem_filter.mpr ⟨hMem, hParent⟩)
  have hPush : ∀ v ∈ w.alive, parent v = k → key v ∈ w'.stack := by
    intro v hMem hParent
    rw [hPop.after]
    exact List.mem_append_left _ (hPop.mem_pushed.mpr ⟨v, hMem, hParent, rfl⟩)
  have hPinned : ∀ v ∈ alive, pin = some v → v ∈ w.alive := by
    intro v hMem hPin
    by_contra hNot
    exact (h.removed v hMem hNot).2.1 hPin
  constructor
  · intro k' hk
    rw [hPop.after, List.mem_append] at hk
    rcases hk with (hNew | hRest) | hDone | hEq
    · obtain ⟨v, hMem, hParent, hEq⟩ := hPop.mem_pushed.mp hNew
      exact Or.inr ⟨v, hTaken v hMem hParent, hEq⟩
    · apply h.reached
      rw [hPop.before]
      exact Or.inl (List.mem_cons_of_mem _ hRest)
    · exact h.reached k' (Or.inr hDone)
    · rw [hEq]
      exact hKey
  · rw [hPop.alive]
    exact (Finset.filter_subset _ _).trans h.subset
  · intro v hMem hNot
    rw [hPop.alive, Finset.mem_filter] at hNot
    by_cases hOld : v ∈ w.alive
    · simp only [hOld, true_and, not_or, not_not] at hNot
      exact ⟨hTaken v hOld hNot.1, hNot.2, Or.inl (hPush v hOld hNot.1)⟩
    · obtain ⟨hReach, hPin, hWhere⟩ := h.removed v hMem hOld
      exact ⟨hReach, hPin, hKeep _ hWhere⟩
  · intro v hMem hDone
    rw [hPop.alive, Finset.mem_filter] at hMem
    rcases hDone with hDone | hEq
    · obtain ⟨hPin, hWhere⟩ := h.closed v hMem.1 hDone
      exact ⟨hPin, hKeep _ hWhere⟩
    · exact ⟨hMem.2.resolve_left fun hNe => hNe hEq, Or.inl (hPush v hMem.1 hEq)⟩
  · exact hKeep root h.start
  · intro v hPin hMem hLoop hDone
    rcases hDone with hDone | hEq
    · by_cases hTop : key v = k
      · exact hPush v (hPinned v hMem hPin) (hLoop.trans hTop)
      · have hOld := h.loops v hPin hMem hLoop hDone
        rw [hPop.before, List.mem_cons] at hOld
        rw [hPop.after]
        exact List.mem_append_right _ (hOld.resolve_left hTop)
    · exact hPush v (hPinned v hMem hPin) (hLoop.trans hEq)

section Empty

variable {alive : Finset V} {root : K} {w : Work V K} {done : K → Prop}

omit [DecidableEq K] in
theorem Progress.reach_done (h : Progress parent key pin alive root w done)
    (hEmpty : w.stack = []) {v : V} (hReach : Reach parent key alive root v) :
    done (parent v) ∧ done (key v) ∧ (v ∈ w.alive → pin = some v) := by
  have hDone : ∀ k, k ∈ w.stack ∨ done k → done k := by
    intro k hk
    rcases hk with hMem | hDone
    · rw [hEmpty] at hMem
      cases hMem
    · exact hDone
  have hParent : done (parent v) := by
    induction hReach with
    | child _ hEq =>
      rw [hEq]
      exact hDone _ h.start
    | @step u v _ _ hEq ih =>
      rw [hEq]
      by_cases hMem : u ∈ w.alive
      · exact hDone _ (h.closed u hMem ih).2
      · next hReach _ => exact hDone _ (h.removed u hReach.mem hMem).2.2
  refine ⟨hParent, ?_, fun hMem => (h.closed v hMem hParent).1⟩
  by_cases hMem : v ∈ w.alive
  · exact hDone _ (h.closed v hMem hParent).2
  · exact hDone _ (h.removed v hReach.mem hMem).2.2

omit [DecidableEq K] in
theorem Progress.not_mem_iff (h : Progress parent key pin alive root w done)
    (hEmpty : w.stack = []) {v : V} (hMem : v ∈ alive) :
    v ∉ w.alive ↔ Reach parent key alive root v ∧ pin ≠ some v := by
  constructor
  · intro hNot
    obtain ⟨hReach, hPin, _⟩ := h.removed v hMem hNot
    exact ⟨hReach, hPin⟩
  · rintro ⟨hReach, hPin⟩ hAlive
    exact hPin ((h.reach_done hEmpty hReach).2.2 hAlive)

omit [DecidableEq K] in
theorem Progress.parent_ne_key (h : Progress parent key pin alive root w done)
    (hEmpty : w.stack = []) {v : V} (hPin : pin = some v)
    (hReach : Reach parent key alive root v) : parent v ≠ key v := by
  intro hLoop
  have hMem := h.loops v hPin hReach.mem hLoop (h.reach_done hEmpty hReach).2.1
  rw [hEmpty] at hMem
  cases hMem

end Empty

/-! ### How often a key is worked off -/

/-- A key is pushed with the vertex that has it, when the key of its parent is worked off; and no key comes twice. -/
structure Once (parent key : V → K) (alive : Finset V) (root : K) (w : Work V K) (done : K → Prop) : Prop where
  nodup : w.stack.Nodup
  fresh : ∀ k ∈ w.stack, ¬ done k
  origin : ∀ k, k ∈ w.stack ∨ done k → k = root ∨ ∃ u ∈ alive, key u = k ∧ done (parent u)

section Once

variable {alive : Finset V} {root : K} {w w' : Work V K} {done : K → Prop} {k : K} {rest pushed : List K}

omit [DecidableEq V] [DecidableEq K] in
theorem Once.init (alive : Finset V) (root : K) :
    Once parent key alive root ⟨alive, [root]⟩ fun _ => False where
  nodup := List.nodup_singleton root
  fresh := fun _ _ hDone => hDone
  origin := by
    intro k hk
    rcases hk with hMem | hFalse
    · exact Or.inl (List.mem_singleton.mp hMem)
    · exact hFalse.elim

variable (hOnce : Once parent key alive root w done) (hProgress : Progress parent key pin alive root w done)
  (hKeys : ∀ u ∈ alive, ∀ v ∈ alive, key u = key v → u = v)
  (hRoot : ∀ v, Reach parent key alive root v → key v ≠ root)
include hOnce hProgress hKeys hRoot

omit [DecidableEq V] in
theorem Once.not_seen (hStack : w.stack = k :: rest) {v : V} (hTaken : v ∈ taken parent w k) :
    ¬ (key v ∈ w.stack ∨ done (key v)) := by
  intro hSeen
  obtain ⟨hMem, hParent⟩ := Finset.mem_filter.mp hTaken
  have hTop : ¬ done k := by
    apply hOnce.fresh
    rw [hStack]
    exact List.mem_cons_self
  rcases hOnce.origin _ hSeen with hFirst | ⟨u, hu, hKey, hDone⟩
  · exact hRoot v (hProgress.reach_of_taken hStack hTaken) hFirst
  · have hSame := hKeys u hu v (hProgress.subset hMem) hKey
    rw [hSame, hParent] at hDone
    exact hTop hDone

theorem Once.pop (hPop : Pops parent key pin w w' k rest pushed) :
    Once parent key alive root w' fun k' => done k' ∨ k' = k := by
  have hNew : ∀ k' ∈ pushed, (k' ∉ w.stack ∧ ¬ done k') ∧ ∃ u ∈ alive, key u = k' ∧ parent u = k := by
    intro k' hk'
    obtain ⟨v, hMem, hParent, rfl⟩ := hPop.mem_pushed.mp hk'
    have hTaken : v ∈ taken parent w k := Finset.mem_filter.mpr ⟨hMem, hParent⟩
    exact ⟨not_or.mp (hOnce.not_seen hProgress hKeys hRoot hPop.before hTaken),
      v, hProgress.subset hMem, rfl, hParent⟩
  have hOld := hOnce.nodup
  have hFresh := hOnce.fresh
  rw [hPop.before, List.nodup_cons] at hOld
  rw [hPop.before] at hFresh
  constructor
  · rw [hPop.after, List.nodup_append]
    refine ⟨?_, hOld.2, ?_⟩
    · rw [← Multiset.coe_nodup, hPop.keys, Multiset.nodup_map_iff_inj_on (taken parent w k).nodup]
      intro u hu v hv hEq
      have hAlive : ∀ x ∈ (taken parent w k).val, x ∈ alive := fun x hx =>
        hProgress.subset (Finset.mem_filter.mp hx).1
      exact hKeys u (hAlive u hu) v (hAlive v hv) hEq
    · rintro k' hk' _ hRest rfl
      apply (hNew k' hk').1.1
      rw [hPop.before]
      exact List.mem_cons_of_mem k hRest
  · intro k' hk' hDone
    rw [hPop.after, List.mem_append] at hk'
    rcases hk' with hPushed | hRest
    · rcases hDone with hDone | rfl
      · exact (hNew k' hPushed).1.2 hDone
      · apply (hNew k' hPushed).1.1
        rw [hPop.before]
        exact List.mem_cons_self
    · rcases hDone with hDone | rfl
      · exact hFresh k' (List.mem_cons_of_mem k hRest) hDone
      · exact hOld.1 hRest
  · have hKeep : ∀ k', k' ∈ w.stack ∨ done k' → k' = root ∨ ∃ u ∈ alive, key u = k' ∧ (done (parent u) ∨ parent u = k) := by
      intro k' hk'
      rcases hOnce.origin k' hk' with hFirst | ⟨u, hu, hKey, hDone⟩
      · exact Or.inl hFirst
      · exact Or.inr ⟨u, hu, hKey, Or.inl hDone⟩
    intro k' hk'
    rw [hPop.after, List.mem_append] at hk'
    rcases hk' with (hPushed | hRest) | hDone | rfl
    · obtain ⟨-, u, hu, hKey, hParent⟩ := hNew k' hPushed
      exact Or.inr ⟨u, hu, hKey, Or.inr hParent⟩
    · apply hKeep k'
      rw [hPop.before]
      exact Or.inl (List.mem_cons_of_mem k hRest)
    · exact hKeep k' (Or.inr hDone)
    · apply hKeep k'
      rw [hPop.before]
      exact Or.inl List.mem_cons_self

end Once

/-! ### How long it takes, and how large the stack gets -/

def loose (pin : Option V) (w : Work V K) : Finset V := w.alive.filter fun v => pin ≠ some v

/-- The key that takes the pinned vertex costs one more, for the key that is pushed then. -/
def weight (parent : V → K) (pin : Option V) (k : K) : Nat :=
  if pin.map parent = some k then 2 else 1

def size (parent : V → K) (pin : Option V) (w : Work V K) : Nat :=
  3 * (loose pin w).card + (w.stack.map (weight parent pin)).sum

omit [DecidableEq V] in
theorem weight_le (k : K) : weight parent pin k ≤ 2 := by
  unfold weight
  split <;> omega

theorem pinned_weight {w : Work V K} {k : K}
    (hLoop : ∀ v ∈ taken parent w k, pin = some v → parent v ≠ key v) :
    ∑ v ∈ (taken parent w k).filter (fun v => ¬ pin ≠ some v), weight parent pin (key v) + 1 ≤
      weight parent pin k := by
  by_cases hPinned : ∃ v ∈ taken parent w k, pin = some v
  · obtain ⟨c, hTaken, hPin⟩ := hPinned
    have hOnly : (taken parent w k).filter (fun v => ¬ pin ≠ some v) = {c} := by
      ext v
      rw [Finset.mem_filter, Finset.mem_singleton, not_not, hPin]
      constructor
      · rintro ⟨_, hEq⟩
        exact (Option.some.inj hEq).symm
      · rintro rfl
        exact ⟨hTaken, rfl⟩
    have hParent : parent c = k := (Finset.mem_filter.mp hTaken).2
    have hNe := hLoop c hTaken hPin
    rw [hOnly, Finset.sum_singleton]
    simp [weight, hPin, hParent ▸ hNe, hParent]
  · have hNone : (taken parent w k).filter (fun v => ¬ pin ≠ some v) = ∅ := by
      rw [Finset.filter_eq_empty_iff]
      intro v hTaken hPin
      exact hPinned ⟨v, hTaken, not_not.mp hPin⟩
    rw [hNone, Finset.sum_empty]
    unfold weight
    split <;> omega

theorem taken_card_le (parent : V → K) (pin : Option V) (w : Work V K) (k : K) :
    (taken parent w k).card ≤ ((taken parent w k).filter fun v => pin ≠ some v).card +
      (if pin.isSome then 1 else 0) := by
  have hSplit := Finset.card_filter_add_card_filter_not (s := taken parent w k)
    (p := fun v => pin ≠ some v)
  have hOne : ((taken parent w k).filter fun v => ¬ pin ≠ some v).card ≤
      if pin.isSome then 1 else 0 := by
    cases pin with
    | none => simp
    | some c =>
      simp only [Option.isSome_some, if_true, Finset.card_le_one]
      intro a ha b hb
      simp only [ne_eq, Option.some.injEq, not_not, Finset.mem_filter] at ha hb
      rw [← ha.2, ← hb.2]
  omega

/-- The stack, the vertices that can still be removed and the pinned one have room in `n` places, one
key apart. -/
def Fits (pin : Option V) (n : Nat) (w : Work V K) : Prop :=
  w.stack.length + (loose pin w).card + (if pin.isSome then 1 else 0) ≤ n + 1

theorem Fits.room (parent : V → K) {n : Nat} {w : Work V K} {k : K} {rest : List K} (hFits : Fits pin n w)
    (hStack : w.stack = k :: rest) : rest.length + (taken parent w k).card ≤ n := by
  have hTaken := taken_card_le parent pin w k
  have hLoose : ((taken parent w k).filter fun v => pin ≠ some v).card ≤ (loose pin w).card := by
    apply Finset.card_le_card
    intro v hMem
    simp only [loose, taken, Finset.mem_filter] at hMem ⊢
    exact ⟨hMem.1.1, hMem.2⟩
  unfold Fits at hFits
  rw [hStack, List.length_cons] at hFits
  omega

section Pop

variable {w w' : Work V K} {k : K} {rest pushed : List K}
  (h : Pops parent key pin w w' k rest pushed)
include h

theorem Pops.loose_card :
    (loose pin w').card + ((taken parent w k).filter fun v => pin ≠ some v).card =
      (loose pin w).card := by
  have hUnion : loose pin w =
      loose pin w' ∪ (taken parent w k).filter fun v => pin ≠ some v := by
    ext v
    simp only [loose, taken, h.alive, Finset.mem_union, Finset.mem_filter]
    tauto
  have hDisjoint : Disjoint (loose pin w') ((taken parent w k).filter fun v => pin ≠ some v) := by
    rw [Finset.disjoint_left]
    intro v hLoose hTaken
    simp only [loose, taken, h.alive, Finset.mem_filter] at hLoose hTaken
    tauto
  rw [hUnion, Finset.card_union_of_disjoint hDisjoint]

theorem Pops.size_lt (hLoop : ∀ v ∈ taken parent w k, pin = some v → parent v ≠ key v) :
    size parent pin w' < size parent pin w := by
  have hSum : (pushed.map (weight parent pin)).sum =
      ∑ v ∈ taken parent w k, weight parent pin (key v) := by
    rw [← Multiset.sum_coe, ← Multiset.map_coe, h.keys, Multiset.map_map]
    rfl
  have hSplit := Finset.sum_filter_add_sum_filter_not (taken parent w k) (fun v => pin ≠ some v)
    fun v => weight parent pin (key v)
  have hLoose : ∑ v ∈ (taken parent w k).filter (fun v => pin ≠ some v), weight parent pin (key v) ≤
      ((taken parent w k).filter fun v => pin ≠ some v).card * 2 :=
    Finset.sum_le_card_nsmul _ _ 2 fun v _ => weight_le (key v)
  have hPinned := pinned_weight hLoop
  have hCard := h.loose_card
  simp only [size, h.before, h.after, List.map_append, List.sum_append, List.map_cons,
    List.sum_cons]
  omega

theorem Pops.fits {n : Nat} (hFits : Fits pin n w) : Fits pin n w' := by
  have hLength : pushed.length = (taken parent w k).card := by
    have hCard := congrArg Multiset.card h.keys
    simpa using hCard
  have hTaken := taken_card_le parent pin w k
  have hCard := h.loose_card
  have hOne : (if pin.isSome then 1 else 0) ≤ 1 := by split <;> omega
  unfold Fits at hFits ⊢
  rw [h.before, List.length_cons] at hFits
  rw [h.after, List.length_append]
  omega

end Pop

end Worklist
