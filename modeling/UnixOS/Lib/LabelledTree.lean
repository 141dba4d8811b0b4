import UnixOS.Lib.RootedTree

/-! # Paths of labels in a rooted tree

Every node may carry a label. Where siblings have different labels, a list of labels names at most one
node below a given one; below the root, every node is named by at most one list. A new leaf adds one name,
and the loss of a leaf takes its name away.
-/

namespace LabelledTree

open RootedTree

variable {α ν : Type*} {kids : α → List α} {label : α → Option ν} {root : α} {live : α → Prop}

def Spells (kids : α → List α) (label : α → Option ν) : α → List ν → α → Prop
  | a, [], b => a = b
  | a, n :: ns, b => ∃ c ∈ kids a, label c = some n ∧ Spells kids label c ns b

variable {a b c p t : α} {n : ν} {ns ms : List ν}

theorem spells_append :
    Spells kids label a (ns ++ ms) b ↔ ∃ c, Spells kids label a ns c ∧ Spells kids label c ms b := by
  induction ns generalizing a with
  | nil => simp [Spells]
  | cons n ns ih =>
    simp only [List.cons_append, Spells, ih]
    constructor
    · rintro ⟨d, hd, hLabel, c, hNs, hMs⟩
      exact ⟨c, ⟨d, hd, hLabel, hNs⟩, hMs⟩
    · rintro ⟨c, ⟨d, hd, hLabel, hNs⟩, hMs⟩
      exact ⟨d, hd, hLabel, c, hNs, hMs⟩

theorem spells_concat : Spells kids label a (ns ++ [n]) b ↔
    ∃ c, Spells kids label a ns c ∧ b ∈ kids c ∧ label b = some n := by
  rw [spells_append]
  constructor
  · rintro ⟨c, hNs, d, hd, hLabel, rfl⟩
    exact ⟨c, hNs, hd, hLabel⟩
  · rintro ⟨c, hNs, hb, hLabel⟩
    exact ⟨c, hNs, b, hb, hLabel, rfl⟩

theorem Spells.inj (h : Rooted kids root live) (hNs : Spells kids label root ns b)
    (hMs : Spells kids label root ms b) : ns = ms := by
  induction ns using List.reverseRecOn generalizing ms b with
  | nil =>
    obtain rfl : root = b := hNs
    cases ms using List.reverseRecOn with
    | nil => rfl
    | append_singleton ms m =>
      obtain ⟨c, -, hMem, -⟩ := spells_concat.mp hMs
      exact absurd hMem (h.root_free c)
  | append_singleton ns n ih =>
    obtain ⟨c, hNs', hMem, hLabel⟩ := spells_concat.mp hNs
    cases ms using List.reverseRecOn with
    | nil =>
      obtain rfl : root = b := hMs
      exact absurd hMem (h.root_free c)
    | append_singleton ms m =>
      obtain ⟨c', hMs', hMem', hLabel'⟩ := spells_concat.mp hMs
      obtain rfl := h.parent_unique hMem hMem'
      obtain rfl : n = m := Option.some.inj (hLabel.symm.trans hLabel')
      rw [ih hNs' hMs']

theorem kids_eq_nil (h : Rooted kids root live) (hc : ¬ live c) : kids c = [] := by
  refine List.eq_nil_iff_forall_not_mem.mpr fun b hb => ?_
  exact hc (h.edge_live hb).1

section Surgery

variable [DecidableEq α] {label' : α → Option ν}

theorem spells_attach (h : Rooted kids root live) (hp : live p) (hc : ¬ live c)
    (hOld : ∀ d, live d → label' d = label d) (hNew : label' c = some n) (ha : live a) :
    Spells (attach kids p c) label' a ns b ↔
      Spells kids label a ns b ∨ b = c ∧ ∃ ms, ns = ms ++ [n] ∧ Spells kids label a ms p := by
  induction ns generalizing a with
  | nil => simp [Spells]
  | cons m ns ih =>
    constructor
    · rintro ⟨d, hd, hLabel, hRest⟩
      obtain hMem | ⟨rfl, rfl⟩ := mem_attach.mp hd
      · have hLive := (h.edge_live hMem).2
        rw [hOld d hLive] at hLabel
        rcases (ih hLive).mp hRest with hBelow | ⟨rfl, ms, rfl, hBelow⟩
        · exact .inl ⟨d, hMem, hLabel, hBelow⟩
        · exact .inr ⟨rfl, m :: ms, rfl, d, hMem, hLabel, hBelow⟩
      · -- the new node has no children, so the labels end here
        have hNone : attach kids a d d = [] := by
          have hNe : d ≠ a := fun hEq => hc (hEq ▸ hp)
          rw [attach, Function.update_of_ne hNe]
          exact kids_eq_nil h hc
        obtain rfl : n = m := Option.some.inj (hNew.symm.trans hLabel)
        cases ns with
        | nil => exact .inr ⟨hRest.symm, [], rfl, rfl⟩
        | cons m' ns =>
          obtain ⟨e, he, -⟩ := hRest
          rw [hNone] at he
          cases he
    · rintro (⟨d, hd, hLabel, hRest⟩ | ⟨rfl, ms, hEq, hSpells⟩)
      · have hLive := (h.edge_live hd).2
        exact ⟨d, mem_attach.mpr (.inl hd), (hOld d hLive).trans hLabel, (ih hLive).mpr (.inl hRest)⟩
      · cases ms with
        | nil =>
          obtain ⟨rfl, rfl⟩ := List.cons.inj hEq
          obtain rfl : a = p := hSpells
          exact ⟨b, mem_attach.mpr (.inr ⟨rfl, rfl⟩), hNew, rfl⟩
        | cons m' ms =>
          obtain ⟨rfl, rfl⟩ := List.cons.inj hEq
          obtain ⟨d, hd, hLabel, hRest⟩ := hSpells
          have hLive := (h.edge_live hd).2
          exact ⟨d, mem_attach.mpr (.inl hd), (hOld d hLive).trans hLabel,
            (ih hLive).mpr (.inr ⟨rfl, ms, rfl, hRest⟩)⟩

theorem spells_detach (h : Rooted kids root live) (ht : t ∈ kids p) (hLeaf : kids t = [])
    (hOld : ∀ d, d ≠ t → label' d = label d) (ha : a ≠ t) :
    Spells (detach kids p t) label' a ns b ↔ Spells kids label a ns b ∧ b ≠ t := by
  induction ns generalizing a with
  | nil =>
    constructor
    · rintro rfl
      exact ⟨rfl, ha⟩
    · exact And.left
  | cons m ns ih =>
    constructor
    · rintro ⟨d, hd, hLabel, hRest⟩
      obtain ⟨hd, hNe⟩ := (h.mem_detach ht).mp hd
      rw [hOld d hNe] at hLabel
      obtain ⟨hRest, hb⟩ := (ih hNe).mp hRest
      exact ⟨⟨d, hd, hLabel, hRest⟩, hb⟩
    · rintro ⟨⟨d, hd, hLabel, hRest⟩, hb⟩
      have hNe : d ≠ t := by
        rintro rfl
        cases ns with
        | nil => exact hb hRest.symm
        | cons m' ns =>
          obtain ⟨e, he, -⟩ := hRest
          rw [hLeaf] at he
          cases he
      exact ⟨d, (h.mem_detach ht).mpr ⟨hd, hNe⟩, (hOld d hNe).trans hLabel, (ih hNe).mpr ⟨hRest, hb⟩⟩

end Surgery

end LabelledTree
