import UnixOS.Lib.RootedTree
import UnixOS.Lib.SinglyLinked

/-! # Trees threaded through sibling pointers

Every node points to its first child and to its next sibling. `Links head next kids` says that these
pointers spell out the child lists `kids`.
-/

namespace SiblingLists

open RootedTree SinglyLinked

variable {α : Type*} {head next : α → Option α} {kids : α → List α} {root : α} {live : α → Prop}

def Links (head next : α → Option α) (kids : α → List α) : Prop := ∀ a, Chain next (head a) (kids a)

variable [DecidableEq α]

theorem Links.attach (h : Links head next kids) {p c : α} (hNew : ∀ a, c ∉ kids a) :
    Links (Function.update head p (some c)) (Function.update next c (head p)) (attach kids p c) := by
  intro a
  by_cases hp : a = p
  · subst hp
    simpa [RootedTree.attach] using (h a).push (hNew a)
  · simp only [RootedTree.attach, Function.update_of_ne hp]
    refine (h a).congr fun x hx => Function.update_of_ne ?_ _ _
    rintro rfl
    exact hNew a hx

theorem Links.detach_head (h : Links head next kids) {p t : α} (hHead : head p = some t) :
    Links (Function.update head p (next t)) next (detach kids p t) := by
  intro a
  by_cases hp : a = p
  · subst hp
    have hChain := h a
    rw [hHead] at hChain
    cases hKids : kids a with
    | nil => simp [hKids, Chain] at hChain
    | cons x xs =>
      rw [hKids] at hChain
      obtain ⟨hEq, hRest⟩ := hChain
      obtain rfl := Option.some.inj hEq
      simpa [detach, hKids] using hRest
  · simp only [detach, Function.update_of_ne hp]
    exact h a

theorem Links.detach_next (h : Links head next kids) (hTree : Rooted kids root live) {p y t : α}
    {xs ys : List α} (hKids : kids p = xs ++ y :: t :: ys) :
    Links head (Function.update next y (next t)) (detach kids p t) := by
  have hNodup := hTree.nodup p
  intro a
  by_cases hp : a = p
  · subst hp
    have hChain := h a
    rw [hKids] at hChain hNodup
    have hErase : (xs ++ y :: t :: ys).erase t = xs ++ y :: ys := by
      rw [List.nodup_append] at hNodup
      obtain ⟨-, hTail, hApart⟩ := hNodup
      rw [List.erase_append_right _ fun hMem => hApart t hMem t (by simp) rfl]
      rw [List.erase_cons_tail (by simp only [List.nodup_cons, List.mem_cons] at hTail; simp; tauto),
        List.erase_cons_head]
    simp only [detach, Function.update_self, hKids, hErase]
    exact hChain.unlink hNodup
  · simp only [detach, Function.update_of_ne hp]
    refine (h a).congr fun x hx => Function.update_of_ne ?_ _ _
    rintro rfl
    exact hp (hTree.parent_unique hx (by simp [hKids]))

end SiblingLists
