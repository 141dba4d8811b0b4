import Mathlib.Data.Finset.Card
import UnixOS.Fs.RamfsTree
import UnixOS.Lib.SiblingLists

/-! # The RAM filesystem stays a tree

The pointers of the inodes spell out a rooted tree with distinct names among siblings. Creating,
removing and renaming keep it, except for a rename that moves an inode below itself or below something
that is not a directory: `ramfs_rename` checks neither.
-/

namespace UnixOS.Fs

open RootedTree SinglyLinked SiblingLists

namespace Ramfs

structure View where
  live : Nat → Prop
  mode : Nat → Option UInt32
  parent : Nat → Option Nat
  head : Nat → Option Nat
  next : Nat → Option Nat
  name : Nat → Option (List Char)

variable {s s' : Ramfs} {kids : Nat → List Nat} {a p q t : Nat}

def view (s : Ramfs) : View where
  live a := (s.inodes a).isSome = true
  mode a := (s.inodes a).map RamfsInode.mode
  parent a := (s.inodes a).bind RamfsInode.parent
  head a := (s.inodes a).bind RamfsInode.children
  next a := (s.inodes a).bind RamfsInode.sibling
  name a := (s.inodes a).map RamfsInode.name

instance (s : Ramfs) (a : Nat) : Decidable (s.view.live a) :=
  inferInstanceAs (Decidable ((s.inodes a).isSome = true))

theorem live_iff : s.view.live a ↔ ∃ i, s.inodes a = some i := Option.isSome_iff_exists

section Setters

variable {v : Option Nat}

theorem bind_modify {β : Type*} (f : RamfsInode → RamfsInode) (get : RamfsInode → Option β)
    (x : Nat) : ((s.modify a f).inodes x).bind get =
      if x = a then (s.inodes a).bind fun i => get (f i) else (s.inodes x).bind get := by
  by_cases hx : x = a
  · subst hx
    cases hInode : s.inodes x <;> simp [modify, hInode]
  · simp [modify, hx]

theorem map_modify {β : Type*} (f : RamfsInode → RamfsInode) (get : RamfsInode → β) (x : Nat) :
    ((s.modify a f).inodes x).map get =
      if x = a then (s.inodes a).map fun i => get (f i) else (s.inodes x).map get := by
  by_cases hx : x = a
  · subst hx
    cases hInode : s.inodes x <;> simp [modify, hInode]
  · simp [modify, hx]

theorem isSome_modify (f : RamfsInode → RamfsInode) (x : Nat) :
    ((s.modify a f).inodes x).isSome = (s.inodes x).isSome := by
  by_cases hx : x = a
  · subst hx
    cases hInode : s.inodes x <;> simp [modify, hInode]
  · simp [modify, hx]

theorem if_eq_update {β : Type*} (g : Nat → β) (b : β) :
    (fun x => if x = a then b else g x) = Function.update g a b := by
  funext x
  by_cases hx : x = a <;> simp [hx]

theorem if_same {β : Type*} (g : Nat → β) : (fun x => if x = a then g a else g x) = g := by
  funext x
  by_cases hx : x = a <;> simp [hx]

theorem view_setParent (h : s.view.live a) :
    (s.setParent a v).view = { s.view with parent := Function.update s.view.parent a v } := by
  obtain ⟨i, hi⟩ := live_iff.mp h
  have hOwn : ((s.inodes a).bind fun _ => v) = v := by simp [hi]
  simp only [view, setParent, isSome_modify, bind_modify, map_modify, hOwn, ← if_eq_update]
  congr <;> exact if_same _

theorem view_setChildren (h : s.view.live a) :
    (s.setChildren a v).view = { s.view with head := Function.update s.view.head a v } := by
  obtain ⟨i, hi⟩ := live_iff.mp h
  have hOwn : ((s.inodes a).bind fun _ => v) = v := by simp [hi]
  simp only [view, setChildren, isSome_modify, bind_modify, map_modify, hOwn, ← if_eq_update]
  congr <;> exact if_same _

theorem view_setSibling (h : s.view.live a) :
    (s.setSibling a v).view = { s.view with next := Function.update s.view.next a v } := by
  obtain ⟨i, hi⟩ := live_iff.mp h
  have hOwn : ((s.inodes a).bind fun _ => v) = v := by simp [hi]
  simp only [view, setSibling, isSome_modify, bind_modify, map_modify, hOwn, ← if_eq_update]
  congr <;> exact if_same _

theorem view_setName (h : s.view.live a) {name : List Char} :
    (s.setName a name).view = { s.view with name := Function.update s.view.name a (some name) } := by
  obtain ⟨i, hi⟩ := live_iff.mp h
  have hOwn : ((s.inodes a).map fun _ => name) = some name := by simp [hi]
  simp only [view, setName, isSome_modify, bind_modify, map_modify, hOwn, ← if_eq_update]
  congr <;> exact if_same _

end Setters

theorem view_ramfsAllocInode (h : ¬ s.view.live a) (mode : UInt32) (name : List Char) :
    (s.ramfsAllocInode a mode name).view = { s.view with
      live := fun x => x = a ∨ s.view.live x
      mode := Function.update s.view.mode a (some mode)
      name := Function.update s.view.name a (some (name.take nameMax)) } := by
  have hNone : s.inodes a = none := by simpa [view] using h
  simp only [view, ramfsAllocInode, View.mk.injEq]
  refine ⟨?_, ?_, ?_, ?_, ?_, ?_⟩ <;> funext x <;> by_cases hx : x = a <;> simp [hx, hNone]

theorem view_ramfsFreeInode (a : Nat) :
    (s.ramfsFreeInode a).view = {
      live := fun x => x ≠ a ∧ s.view.live x
      mode := Function.update s.view.mode a none
      parent := Function.update s.view.parent a none
      head := Function.update s.view.head a none
      next := Function.update s.view.next a none
      name := Function.update s.view.name a none } := by
  simp only [view, ramfsFreeInode, View.mk.injEq]
  refine ⟨?_, ?_, ?_, ?_, ?_, ?_⟩ <;> funext x <;> by_cases hx : x = a <;> simp [hx]

def IsDir (s : Ramfs) (a : Nat) : Prop := ∃ m, s.view.mode a = some m ∧ sIsDir m = true

/-- The inodes form a tree, whose child lists are `kids`. -/
structure TreeInv (s : Ramfs) (kids : Nat → List Nat) : Prop where
  rooted : Rooted kids s.root s.view.live
  links : Links s.view.head s.view.next kids
  dirs : ∀ {a}, kids a ≠ [] → s.IsDir a
  parent : ∀ {a b}, b ∈ kids a → s.view.parent b = some a
  named : ∀ {a b}, b ∈ kids a → s.view.name b ≠ some []
  distinct : ∀ {a b c}, b ∈ kids a → c ∈ kids a → s.view.name b = s.view.name c → b = c
  count : ∃ nodes : Finset Nat, (∀ a, a ∈ nodes ↔ s.view.live a) ∧ nodes.card = s.inodeCount

section Walks

variable {name : List Char}

theorem findChild_eq {xs : List Nat} {h : Option Nat} {fuel : Nat} (hChain : Chain s.view.next h xs)
    (hLive : ∀ x ∈ xs, s.view.live x) (hFuel : xs.length < fuel) :
    s.findChild name fuel h = some (xs.find? fun x => s.view.name x = some name) := by
  induction xs generalizing h fuel with
  | nil =>
    obtain rfl : h = none := hChain
    cases fuel with
    | zero => simp at hFuel
    | succ fuel => rfl
  | cons x xs ih =>
    obtain ⟨rfl, hRest⟩ := hChain
    cases fuel with
    | zero => simp at hFuel
    | succ fuel =>
      obtain ⟨i, hi⟩ := live_iff.mp (hLive x (by simp))
      have hNext : s.view.next x = i.sibling := by simp [view, hi]
      have hName : s.view.name x = some i.name := by simp [view, hi]
      rw [hNext] at hRest
      have hTail := ih hRest (fun z hz => hLive z (by simp [hz])) (by simpa using hFuel)
      simp only [findChild, hi, List.find?_cons, hName, Option.some.injEq]
      by_cases hEq : i.name = name
      · simp [hEq]
      · simp [hEq, hTail]

theorem findPrevious_eq {xs ys : List Nat} {h : Option Nat} {fuel y : Nat}
    (hChain : Chain s.view.next h (xs ++ y :: t :: ys)) (hNodup : (xs ++ y :: t :: ys).Nodup)
    (hLive : ∀ x ∈ xs ++ y :: t :: ys, s.view.live x) (hFuel : xs.length < fuel) :
    s.findPrevious t fuel h = some (some y) := by
  induction xs generalizing h fuel with
  | nil =>
    obtain ⟨rfl, hNext, -⟩ := hChain
    cases fuel with
    | zero => simp at hFuel
    | succ fuel =>
      obtain ⟨i, hi⟩ := live_iff.mp (hLive y (by simp))
      have hSibling : i.sibling = some t := by simpa [view, hi] using hNext
      simp [findPrevious, hi, hSibling]
  | cons x xs ih =>
    obtain ⟨rfl, hRest⟩ := hChain
    cases fuel with
    | zero => simp at hFuel
    | succ fuel =>
      obtain ⟨i, hi⟩ := live_iff.mp (hLive x (by simp))
      have hNext : s.view.next x = i.sibling := by simp [view, hi]
      rw [hNext] at hRest
      -- the inode after `x` comes before `t`, so it is not `t`
      have hNot : i.sibling ≠ some t := by
        cases xs with
        | nil =>
          rw [hRest.1]
          simp only [List.nil_append, List.cons_append, List.nodup_cons, List.mem_cons] at hNodup
          simp only [ne_eq, Option.some.injEq]
          tauto
        | cons x' xs =>
          rw [hRest.1]
          simp only [List.cons_append, List.nodup_cons, List.mem_cons, List.mem_append] at hNodup
          simp only [ne_eq, Option.some.injEq]
          tauto
      simp only [findPrevious, hi, hNot, if_false]
      exact ih hRest (List.nodup_cons.mp hNodup).2 (fun z hz => hLive z (by simp [hz]))
        (by simpa using hFuel)

end Walks

namespace TreeInv

variable {name : List Char}

theorem live_of_mem (h : TreeInv s kids) {b : Nat} (hb : b ∈ kids a) : s.view.live b :=
  (h.rooted.edge_live hb).2

theorem length_lt_walkFuel (h : TreeInv s kids) (a : Nat) : (kids a).length < s.walkFuel := by
  obtain ⟨nodes, hNodes, hCard⟩ := h.count
  have hSub : (kids a).toFinset ⊆ nodes := by
    intro b hb
    exact (hNodes b).mpr (h.live_of_mem (List.mem_toFinset.mp hb))
  have hLe := Finset.card_le_card hSub
  rw [List.toFinset_card_of_nodup (h.rooted.nodup a)] at hLe
  simp only [walkFuel]
  omega

theorem lookup (h : TreeInv s kids) (ha : s.view.live a) (name : List Char) :
    ∃ r, s.ramfsLookupChild a name = some r ∧
      (∀ c, r = some c → c ∈ kids a ∧ s.view.name c = some name) ∧
      (r = none → s.IsDir a → ∀ c ∈ kids a, s.view.name c ≠ some name) := by
  obtain ⟨i, hi⟩ := live_iff.mp ha
  have hHead : s.view.head a = i.children := by simp [view, hi]
  have hChain := h.links a
  rw [hHead] at hChain
  simp only [ramfsLookupChild, hi]
  split
  · refine ⟨_, findChild_eq hChain (fun _ => h.live_of_mem) (h.length_lt_walkFuel a), ?_, ?_⟩
    · intro c hc
      exact ⟨List.mem_of_find?_eq_some hc, by simpa using List.find?_some hc⟩
    · intro hNone _ c hc
      simpa using List.find?_eq_none.mp hNone c hc
  · rename_i hDir
    refine ⟨none, rfl, by simp, ?_⟩
    rintro - ⟨m, hm, hIsDir⟩
    obtain rfl : i.mode = m := by simpa [view, hi] using hm
    exact absurd hIsDir hDir

theorem unlink (h : TreeInv s kids) (ht : t ∈ kids p) :
    ∃ s' hd nx, s.unlinkChild p t = some s' ∧ s'.root = s.root ∧ s'.inodeCount = s.inodeCount ∧
      s'.view = { s.view with head := hd, next := nx } ∧ Links hd nx (detach kids p t) := by
  have hp := (h.rooted.edge_live ht).1
  have hLive := (h.rooted.edge_live ht).2
  obtain ⟨d, hd⟩ := live_iff.mp hp
  obtain ⟨i, hi⟩ := live_iff.mp hLive
  have hHead : s.view.head p = d.children := by simp [view, hd]
  have hNext : s.view.next t = i.sibling := by simp [view, hi]
  simp only [unlinkChild, hd, hi]
  split
  · rename_i hFirst
    rw [← hNext]
    exact ⟨_, _, _, rfl, rfl, rfl, view_setChildren hp, h.links.detach_head (hHead.trans hFirst)⟩
  · rename_i hFirst
    obtain ⟨xs, ys, hKids⟩ := List.append_of_mem ht
    have hChain := h.links p
    cases xs using List.reverseRecOn with
    | nil =>
      rw [hKids, hHead] at hChain
      exact absurd hChain.1 hFirst
    | append_singleton xs y =>
      rw [List.append_assoc, List.singleton_append] at hKids
      have hFuel := h.length_lt_walkFuel p
      rw [hKids] at hChain hFuel
      rw [hHead] at hChain
      have hy : y ∈ kids p := by simp [hKids]
      have hShort : xs.length < s.walkFuel := by
        simp only [List.length_append] at hFuel
        omega
      have hPrev := findPrevious_eq hChain (hKids ▸ h.rooted.nodup p)
        (fun x hx => h.live_of_mem (a := p) (by rw [hKids]; exact hx)) hShort
      rw [hPrev, ← hNext]
      exact ⟨_, _, _, rfl, rfl, rfl, view_setSibling (h.live_of_mem hy),
        h.links.detach_next h.rooted hKids⟩

theorem congr (h : TreeInv s kids) (hView : s'.view = s.view) (hRoot : s'.root = s.root)
    (hCount : s'.inodeCount = s.inodeCount) : TreeInv s' kids := by
  refine ⟨?_, ?_, ?_, ?_, ?_, ?_, ?_⟩
  · rw [hView, hRoot]
    exact h.rooted
  · rw [hView]
    exact h.links
  · intro a ha
    obtain ⟨m, hm⟩ := h.dirs ha
    exact ⟨m, by rw [hView]; exact hm⟩
  · rw [hView]
    exact h.parent
  · rw [hView]
    exact h.named
  · rw [hView]
    exact h.distinct
  · rw [hView, hCount]
    exact h.count

theorem attach_new (h : TreeInv s kids) {c : Nat} (hp : s.IsDir p) (hpLive : s.view.live p)
    (hc : ¬ s.view.live c) {m : UInt32} (hName : name ≠ [])
    (hFresh : ∀ b ∈ kids p, s.view.name b ≠ some name) (hRoot : s'.root = s.root)
    (hCount : s'.inodeCount = s.inodeCount + 1)
    (hView : s'.view = {
      live := fun x => x = c ∨ s.view.live x
      mode := Function.update s.view.mode c (some m)
      parent := Function.update s.view.parent c (some p)
      head := Function.update s.view.head p (some c)
      next := Function.update s.view.next c (s.view.head p)
      name := Function.update s.view.name c (some name) }) :
    TreeInv s' (attach kids p c) := by
  have hNew : ∀ {a b}, b ∈ kids a → b ≠ c := by
    rintro a b hb rfl
    exact hc (h.live_of_mem hb)
  have hDirKeep : ∀ {a}, s.view.live a → s.IsDir a → s'.IsDir a := by
    rintro a ha ⟨n, hn, hDir⟩
    have hNe : a ≠ c := fun hEq => hc (hEq ▸ ha)
    exact ⟨n, by rw [hView]; simpa [hNe] using hn, hDir⟩
  refine ⟨?_, ?_, ?_, ?_, ?_, ?_, ?_⟩
  · rw [hView, hRoot]
    exact h.rooted.attach_leaf hpLive hc
  · rw [hView]
    exact h.links.attach fun a ha => hNew ha rfl
  · intro a ha
    obtain ⟨b, hb⟩ := List.exists_mem_of_ne_nil _ ha
    obtain hOld | ⟨rfl, -⟩ := mem_attach.mp hb
    · exact hDirKeep (h.rooted.edge_live hOld).1 (h.dirs (List.ne_nil_of_mem hOld))
    · exact hDirKeep hpLive hp
  · intro a b hb
    rw [hView]
    obtain hOld | ⟨rfl, rfl⟩ := mem_attach.mp hb
    · simpa [hNew hOld] using h.parent hOld
    · simp
  · intro a b hb
    rw [hView]
    obtain hOld | ⟨-, rfl⟩ := mem_attach.mp hb
    · simpa [hNew hOld] using h.named hOld
    · simpa using hName
  · intro a b b' hb hb' hEq
    rw [hView] at hEq
    obtain hOld | ⟨rfl, rfl⟩ := mem_attach.mp hb
    · obtain hOld' | ⟨rfl, rfl⟩ := mem_attach.mp hb'
      · exact h.distinct hOld hOld' (by simpa [hNew hOld, hNew hOld'] using hEq)
      · exact absurd (by simpa [hNew hOld] using hEq) (hFresh b hOld)
    · obtain hOld' | ⟨-, rfl⟩ := mem_attach.mp hb'
      · exact absurd (by simpa [hNew hOld'] using hEq.symm) (hFresh b' hOld')
      · rfl
  · obtain ⟨nodes, hNodes, hCard⟩ := h.count
    refine ⟨insert c nodes, ?_, ?_⟩
    · intro a
      rw [hView, Finset.mem_insert, hNodes]
    · rw [Finset.card_insert_of_notMem fun hMem => hc ((hNodes c).mp hMem), hCard, hCount]

theorem detach_free (h : TreeInv s kids) (ht : t ∈ kids p) (hLeaf : kids t = [])
    {hd nx : Nat → Option Nat} (hLinks : Links hd nx (detach kids p t)) (hRoot : s'.root = s.root)
    (hCount : s'.inodeCount = s.inodeCount) (hView : s'.view = { s.view with head := hd, next := nx }) :
    TreeInv (s'.ramfsFreeInode t) (detach kids p t) := by
  have hMem : ∀ {a b}, b ∈ detach kids p t a ↔ b ∈ kids a ∧ b ≠ t := h.rooted.mem_detach ht
  have hKids : detach kids p t t = [] := by
    refine List.eq_nil_iff_forall_not_mem.mpr fun b hb => ?_
    simp [hMem, hLeaf] at hb
  refine ⟨?_, ?_, ?_, ?_, ?_, ?_, ?_⟩
  · rw [view_ramfsFreeInode, hView]
    simp only [ramfsFreeInode, hRoot]
    exact h.rooted.detach_leaf ht hLeaf
  · rw [view_ramfsFreeInode, hView]
    intro a
    have hChain := hLinks a
    by_cases ha : a = t
    · subst ha
      simp [hKids, Chain]
    · simp only [Function.update_of_ne ha]
      refine hChain.congr fun x hx => Function.update_of_ne ?_ _ _
      exact (hMem.mp hx).2
  · intro a ha
    obtain ⟨b, hb⟩ := List.exists_mem_of_ne_nil _ ha
    obtain ⟨hOld, -⟩ := hMem.mp hb
    obtain ⟨m, hm, hDir⟩ := h.dirs (List.ne_nil_of_mem hOld)
    have hNe : a ≠ t := by
      rintro rfl
      simp [hLeaf] at hOld
    refine ⟨m, ?_, hDir⟩
    rw [view_ramfsFreeInode, hView]
    simpa [hNe] using hm
  · intro a b hb
    obtain ⟨hOld, hNe⟩ := hMem.mp hb
    rw [view_ramfsFreeInode, hView]
    simpa [hNe] using h.parent hOld
  · intro a b hb
    obtain ⟨hOld, hNe⟩ := hMem.mp hb
    rw [view_ramfsFreeInode, hView]
    simpa [hNe] using h.named hOld
  · intro a b c hb hc hEq
    obtain ⟨hOld, hNe⟩ := hMem.mp hb
    obtain ⟨hOld', hNe'⟩ := hMem.mp hc
    rw [view_ramfsFreeInode, hView] at hEq
    exact h.distinct hOld hOld' (by simpa [hNe, hNe'] using hEq)
  · obtain ⟨nodes, hNodes, hCard⟩ := h.count
    refine ⟨nodes.erase t, ?_, ?_⟩
    · intro a
      rw [view_ramfsFreeInode, hView, Finset.mem_erase, hNodes]
    · rw [Finset.card_erase_of_mem ((hNodes t).mpr (h.live_of_mem ht)), hCard, ramfsFreeInode, hCount]

theorem move_named (h : TreeInv s kids) (ht : t ∈ kids p) (hq : s.IsDir q) (hqLive : s.view.live q)
    (hOut : ¬ Reach kids t q) (hName : name ≠ [])
    (hFresh : ∀ b ∈ kids q, s.view.name b ≠ some name) (hRoot : s'.root = s.root)
    (hCount : s'.inodeCount = s.inodeCount) {hd nx : Nat → Option Nat}
    (hLinks : Links hd nx (detach kids p t))
    (hView : s'.view = { s.view with
      parent := Function.update s.view.parent t (some q)
      head := Function.update hd q (some t)
      next := Function.update nx t (hd q)
      name := Function.update s.view.name t (some name) }) :
    TreeInv s' (attach (detach kids p t) q t) := by
  have hMem : ∀ {a b}, b ∈ attach (detach kids p t) q t a ↔ b ∈ kids a ∧ b ≠ t ∨ a = q ∧ b = t :=
    h.rooted.mem_move ht
  have hDirKeep : ∀ {a}, s.IsDir a → s'.IsDir a := by
    rintro a ⟨m, hm, hDir⟩
    exact ⟨m, by rw [hView]; exact hm, hDir⟩
  refine ⟨?_, ?_, ?_, ?_, ?_, ?_, ?_⟩
  · rw [hView, hRoot]
    exact h.rooted.move ht hqLive hOut
  · rw [hView]
    refine hLinks.attach fun a ha => ?_
    exact ((h.rooted.mem_detach ht).mp ha).2 rfl
  · intro a ha
    obtain ⟨b, hb⟩ := List.exists_mem_of_ne_nil _ ha
    obtain ⟨hOld, -⟩ | ⟨rfl, -⟩ := hMem.mp hb
    · exact hDirKeep (h.dirs (List.ne_nil_of_mem hOld))
    · exact hDirKeep hq
  · intro a b hb
    rw [hView]
    obtain ⟨hOld, hNe⟩ | ⟨rfl, rfl⟩ := hMem.mp hb
    · simpa [hNe] using h.parent hOld
    · simp
  · intro a b hb
    rw [hView]
    obtain ⟨hOld, hNe⟩ | ⟨-, rfl⟩ := hMem.mp hb
    · simpa [hNe] using h.named hOld
    · simpa using hName
  · intro a b c hb hc hEq
    rw [hView] at hEq
    obtain ⟨hOld, hNe⟩ | ⟨rfl, rfl⟩ := hMem.mp hb
    · obtain ⟨hOld', hNe'⟩ | ⟨rfl, rfl⟩ := hMem.mp hc
      · exact h.distinct hOld hOld' (by simpa [hNe, hNe'] using hEq)
      · exact absurd (by simpa [hNe] using hEq) (hFresh b hOld)
    · obtain ⟨hOld', hNe'⟩ | ⟨-, rfl⟩ := hMem.mp hc
      · exact absurd (by simpa [hNe'] using hEq.symm) (hFresh c hOld')
      · rfl
  · rw [hView, hCount]
    exact h.count

end TreeInv

end Ramfs

end UnixOS.Fs
