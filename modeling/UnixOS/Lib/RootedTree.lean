import Mathlib.Data.List.Induction
import Mathlib.Logic.Function.Basic
import Mathlib.Logic.Relation

/-! # Rooted trees given by child lists

A finite or infinite graph whose nodes list their children. It is a tree below `root` as soon as no
node has two parents, the root has none and everything alive can be reached: paths are then unique and
cycles impossible. The tree survives a new leaf, the loss of a leaf and the move of a subtree to a node
outside of it.
-/

namespace RootedTree

variable {α : Type*} {kids : α → List α} {root : α} {live : α → Prop}

def Edge (kids : α → List α) (a b : α) : Prop := b ∈ kids a

def Reach (kids : α → List α) : α → α → Prop := Relation.ReflTransGen (Edge kids)

structure Rooted (kids : α → List α) (root : α) (live : α → Prop) : Prop where
  root_live : live root
  edge_live : ∀ {a b}, b ∈ kids a → live a ∧ live b
  nodup : ∀ a, (kids a).Nodup
  parent_unique : ∀ {a a' b}, b ∈ kids a → b ∈ kids a' → a = a'
  root_free : ∀ a, root ∉ kids a
  reach : ∀ {b}, live b → Reach kids root b

/-- A path downwards from `a` to `b`, as the list of nodes after `a`. -/
def Trail (kids : α → List α) : α → List α → α → Prop
  | a, [], b => a = b
  | a, c :: cs, b => c ∈ kids a ∧ Trail kids c cs b

theorem trail_append {a b : α} {xs ys : List α} :
    Trail kids a (xs ++ ys) b ↔ ∃ c, Trail kids a xs c ∧ Trail kids c ys b := by
  induction xs generalizing a with
  | nil => simp [Trail]
  | cons x xs ih => simp [Trail, ih, and_assoc]

theorem trail_concat {a b c : α} {xs : List α} :
    Trail kids a (xs ++ [c]) b ↔ c = b ∧ ∃ d, Trail kids a xs d ∧ c ∈ kids d := by
  rw [trail_append]
  constructor
  · rintro ⟨d, hTrail, hMem, rfl⟩
    exact ⟨rfl, d, hTrail, hMem⟩
  · rintro ⟨rfl, d, hTrail, hMem⟩
    exact ⟨d, hTrail, hMem, rfl⟩

theorem Reach.exists_trail {a b : α} (h : Reach kids a b) : ∃ xs, Trail kids a xs b := by
  induction h with
  | refl => exact ⟨[], rfl⟩
  | tail _ hEdge ih =>
    obtain ⟨xs, hTrail⟩ := ih
    exact ⟨xs ++ [_], trail_concat.mpr ⟨rfl, _, hTrail, hEdge⟩⟩

namespace Rooted

theorem trail_unique (h : Rooted kids root live) {xs ys : List α} {b : α}
    (hXs : Trail kids root xs b) (hYs : Trail kids root ys b) : xs = ys := by
  induction xs using List.reverseRecOn generalizing ys b with
  | nil =>
    obtain rfl : root = b := hXs
    cases ys using List.reverseRecOn with
    | nil => rfl
    | append_singleton ys c =>
      obtain ⟨rfl, d, -, hMem⟩ := trail_concat.mp hYs
      exact absurd hMem (h.root_free d)
  | append_singleton xs c ih =>
    obtain ⟨rfl, d, hTrail, hMem⟩ := trail_concat.mp hXs
    cases ys using List.reverseRecOn with
    | nil =>
      obtain rfl : root = c := hYs
      exact absurd hMem (h.root_free d)
    | append_singleton ys c' =>
      obtain ⟨rfl, d', hTrail', hMem'⟩ := trail_concat.mp hYs
      obtain rfl := h.parent_unique hMem hMem'
      rw [ih hTrail hTrail']

theorem existsUnique_trail (h : Rooted kids root live) {b : α} (hb : live b) :
    ∃! xs, Trail kids root xs b := by
  obtain ⟨xs, hTrail⟩ := (h.reach hb).exists_trail
  exact ⟨xs, hTrail, fun ys hYs => h.trail_unique hYs hTrail⟩

theorem no_cycle (h : Rooted kids root live) {b : α} (hb : live b) {xs : List α} (hXs : xs ≠ []) :
    ¬ Trail kids b xs b := by
  intro hCycle
  obtain ⟨ys, hTrail⟩ := (h.reach hb).exists_trail
  have hLonger : Trail kids root (ys ++ xs) b := trail_append.mpr ⟨b, hTrail, hCycle⟩
  have hSame := congrArg List.length (h.trail_unique hLonger hTrail)
  rw [List.length_append] at hSame
  exact hXs (List.length_eq_zero_iff.mp (by omega))

end Rooted

section Surgery

variable [DecidableEq α]

def attach (kids : α → List α) (p c : α) : α → List α := Function.update kids p (c :: kids p)

def detach (kids : α → List α) (p c : α) : α → List α := Function.update kids p ((kids p).erase c)

theorem mem_attach {p c a b : α} : b ∈ attach kids p c a ↔ b ∈ kids a ∨ a = p ∧ b = c := by
  by_cases hp : a = p
  · subst hp
    simp [attach, or_comm]
  · simp [attach, hp]

theorem Reach.attach {p c a b : α} (h : Reach kids a b) : Reach (attach kids p c) a b := by
  induction h with
  | refl => exact .refl
  | tail _ hEdge ih => exact ih.tail (mem_attach.mpr (.inl hEdge))

theorem nodup_attach (h : ∀ a, (kids a).Nodup) {p c : α} (hNew : c ∉ kids p) (a : α) :
    (attach kids p c a).Nodup := by
  by_cases hp : a = p
  · subst hp
    simp [attach, hNew, h a]
  · simpa [attach, hp] using h a

theorem nodup_detach (h : ∀ a, (kids a).Nodup) (p c a : α) : (detach kids p c a).Nodup := by
  by_cases hp : a = p
  · subst hp
    simpa [detach] using (h a).erase c
  · simpa [detach, hp] using h a

namespace Rooted

theorem mem_detach (h : Rooted kids root live) {p c a b : α} (hc : c ∈ kids p) :
    b ∈ detach kids p c a ↔ b ∈ kids a ∧ b ≠ c := by
  by_cases hp : a = p
  · subst hp
    simp [detach, (h.nodup a).mem_erase_iff, and_comm]
  · have hOther : c ∉ kids a := fun hMem => hp (h.parent_unique hMem hc)
    simp only [detach, Function.update_of_ne hp]
    exact ⟨fun hMem => ⟨hMem, fun hEq => hOther (hEq ▸ hMem)⟩, And.left⟩

theorem attach_leaf (h : Rooted kids root live) {p c : α} (hp : live p) (hc : ¬ live c) :
    Rooted (attach kids p c) root fun x => x = c ∨ live x where
  root_live := .inr h.root_live
  edge_live := by
    intro a b hMem
    obtain hOld | ⟨rfl, rfl⟩ := mem_attach.mp hMem
    · exact ⟨.inr (h.edge_live hOld).1, .inr (h.edge_live hOld).2⟩
    · exact ⟨.inr hp, .inl rfl⟩
  nodup := nodup_attach h.nodup fun hMem => hc (h.edge_live hMem).2
  parent_unique := by
    intro a a' b hMem hMem'
    obtain hOld | ⟨rfl, rfl⟩ := mem_attach.mp hMem
    · obtain hOld' | ⟨rfl, rfl⟩ := mem_attach.mp hMem'
      · exact h.parent_unique hOld hOld'
      · exact absurd (h.edge_live hOld).2 hc
    · obtain hOld' | ⟨rfl, -⟩ := mem_attach.mp hMem'
      · exact absurd (h.edge_live hOld').2 hc
      · rfl
  root_free := by
    intro a hMem
    obtain hOld | ⟨rfl, rfl⟩ := mem_attach.mp hMem
    · exact h.root_free a hOld
    · exact hc h.root_live
  reach := by
    rintro b (rfl | hb)
    · exact (h.reach hp).attach.tail (mem_attach.mpr (.inr ⟨rfl, rfl⟩))
    · exact (h.reach hb).attach

theorem detach_leaf (h : Rooted kids root live) {p c : α} (hc : c ∈ kids p) (hLeaf : kids c = []) :
    Rooted (detach kids p c) root fun x => x ≠ c ∧ live x where
  root_live := ⟨fun hEq => h.root_free p (hEq ▸ hc), h.root_live⟩
  edge_live := by
    intro a b hMem
    obtain ⟨hOld, hNe⟩ := (h.mem_detach hc).mp hMem
    refine ⟨⟨?_, (h.edge_live hOld).1⟩, hNe, (h.edge_live hOld).2⟩
    rintro rfl
    simp [hLeaf] at hOld
  nodup := nodup_detach h.nodup p c
  parent_unique := fun hMem hMem' =>
    h.parent_unique ((h.mem_detach hc).mp hMem).1 ((h.mem_detach hc).mp hMem').1
  root_free := fun a hMem => h.root_free a ((h.mem_detach hc).mp hMem).1
  reach := by
    rintro b ⟨hNe, hb⟩
    have hReach := h.reach hb
    clear hb
    induction hReach with
    | refl => exact .refl
    | tail _ hEdge ih =>
      -- the step above `b` is not the leaf, which has no children
      refine (ih ?_).tail ((h.mem_detach hc).mpr ⟨hEdge, hNe⟩)
      rintro rfl
      simp [Edge, hLeaf] at hEdge

theorem reach_detach (h : Rooted kids root live) {p t b : α} (ht : t ∈ kids p)
    (hb : Reach kids root b) (hOut : ¬ Reach kids t b) : Reach (detach kids p t) root b := by
  induction hb with
  | refl => exact .refl
  | @tail a b _ hEdge ih =>
    have hAbove : ¬ Reach kids t a := fun hReach => hOut (hReach.tail hEdge)
    refine (ih hAbove).tail ((h.mem_detach ht).mpr ⟨hEdge, ?_⟩)
    rintro rfl
    exact hOut .refl

theorem mem_move (h : Rooted kids root live) {p q t a b : α} (ht : t ∈ kids p) :
    b ∈ attach (detach kids p t) q t a ↔ b ∈ kids a ∧ b ≠ t ∨ a = q ∧ b = t := by
  rw [mem_attach, h.mem_detach ht]

theorem move (h : Rooted kids root live) {p q t : α} (ht : t ∈ kids p) (hq : live q)
    (hOut : ¬ Reach kids t q) : Rooted (attach (detach kids p t) q t) root live where
  root_live := h.root_live
  edge_live := by
    intro a b hMem
    obtain ⟨hOld, -⟩ | ⟨rfl, rfl⟩ := (h.mem_move ht).mp hMem
    · exact h.edge_live hOld
    · exact ⟨hq, (h.edge_live ht).2⟩
  nodup := by
    refine nodup_attach (nodup_detach h.nodup p t) ?_
    rw [h.mem_detach ht]
    simp
  parent_unique := by
    intro a a' b hMem hMem'
    obtain ⟨hOld, hNe⟩ | ⟨rfl, hEq⟩ := (h.mem_move ht).mp hMem
    · obtain ⟨hOld', -⟩ | ⟨-, hEq'⟩ := (h.mem_move ht).mp hMem'
      · exact h.parent_unique hOld hOld'
      · exact absurd hEq' hNe
    · obtain ⟨-, hNe'⟩ | ⟨rfl, -⟩ := (h.mem_move ht).mp hMem'
      · exact absurd hEq hNe'
      · rfl
  root_free := by
    intro a hMem
    obtain ⟨hOld, -⟩ | ⟨-, rfl⟩ := (h.mem_move ht).mp hMem
    · exact h.root_free a hOld
    · exact h.root_free p ht
  reach := by
    have hKeep : ∀ {b}, Reach kids root b → ¬ Reach kids t b →
        Reach (attach (detach kids p t) q t) root b := fun hb hOut =>
      (h.reach_detach ht hb hOut).attach
    have hTop : Reach (attach (detach kids p t) q t) root t :=
      (hKeep (h.reach hq) hOut).tail ((h.mem_move ht).mpr (.inr ⟨rfl, rfl⟩))
    intro b hb
    by_cases hIn : Reach kids t b
    · -- inside the moved subtree the old path is kept, only its top is new
      induction hIn with
      | refl => exact hTop
      | @tail a b _ hEdge ih =>
        by_cases hEq : b = t
        · exact hEq ▸ hTop
        · exact (ih (h.edge_live hEdge).1).tail ((h.mem_move ht).mpr (.inl ⟨hEdge, hEq⟩))
    · exact hKeep (h.reach hb) hIn

end Rooted

end Surgery

end RootedTree
