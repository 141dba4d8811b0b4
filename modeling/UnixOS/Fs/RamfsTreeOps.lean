import UnixOS.Fs.RamfsTreeInv

/-! # Runs of path operations on the RAM filesystem

Each operation of the VFS returns on a tree and leaves one, as long as a rename does not move an inode
below itself and its new parent is a directory.
-/

namespace UnixOS.Fs

open RootedTree SinglyLinked SiblingLists

namespace Ramfs

variable {s s' : Ramfs} {kids : Nat → List Nat} {a p q t : Nat} {name : List Char}

theorem components_spec {path : List Char} (h : name ∈ components path) :
    name ≠ [] ∧ name.take nameMax = name := by
  simp only [components, pathComponents, List.mem_map, List.mem_filter, decide_eq_true_eq] at h
  obtain ⟨comp, ⟨-, hComp⟩, rfl⟩ := h
  constructor
  · intro hNil
    rw [List.take_eq_nil_iff] at hNil
    rcases hNil with hZero | hNil
    · simp [nameMax] at hZero
    · exact hComp hNil
  · simp

def Keeps (r : Option (Ramfs × Int)) : Prop := ∃ s' ret kids', r = some (s', ret) ∧ TreeInv s' kids'

theorem TreeInv.keeps (h : TreeInv s kids) (ret : Int) : Keeps (some (s, ret)) :=
  ⟨s, ret, kids, rfl, h⟩

def Makes (s : Ramfs) (a : Nat) (r : Option (Ramfs × Int)) : Prop :=
  ∃ s' ret kids', r = some (s', ret) ∧ TreeInv s' kids' ∧ s'.root = s.root ∧
    (∀ x, s'.view.live x ↔ s.view.live x ∨ ret = 0 ∧ x = a) ∧
    ∀ x, x ≠ a → s'.view.parent x = s.view.parent x

def Removes (s : Ramfs) (t : Nat) (r : Option (Ramfs × Int)) : Prop :=
  ∃ s' ret kids', r = some (s', ret) ∧ TreeInv s' kids' ∧
    (ret ≠ 0 ∧ s' = s ∨ ret = 0 ∧ t ≠ s.root ∧ s'.root = s.root ∧
      (∀ x, s'.view.live x ↔ x ≠ t ∧ s.view.live x) ∧
      ∀ x, x ≠ t → s'.view.parent x = s.view.parent x)

theorem Makes.keeps {r : Option (Ramfs × Int)} (h : s.Makes a r) : Keeps r := by
  obtain ⟨s', ret, kids', hr, hTree, -⟩ := h
  exact ⟨s', ret, kids', hr, hTree⟩

theorem Removes.keeps {r : Option (Ramfs × Int)} (h : s.Removes t r) : Keeps r := by
  obtain ⟨s', ret, kids', hr, hTree, -⟩ := h
  exact ⟨s', ret, kids', hr, hTree⟩

theorem TreeInv.makes (h : TreeInv s kids) {ret : Int} (hRet : ret ≠ 0) :
    s.Makes a (some (s, ret)) := by
  refine ⟨s, ret, kids, rfl, h, rfl, fun x => ⟨Or.inl, ?_⟩, fun _ _ => rfl⟩
  rintro (hLive | ⟨hZero, -⟩)
  · exact hLive
  · exact absurd hZero hRet

theorem TreeInv.removes (h : TreeInv s kids) {ret : Int} (hRet : ret ≠ 0) :
    s.Removes t (some (s, ret)) :=
  ⟨s, ret, kids, rfl, h, Or.inl ⟨hRet, rfl⟩⟩

theorem TreeInv.walkParent (h : TreeInv s kids) (names : List (List Char)) (ha : s.view.live a) :
    ∃ r, s.walkParent a names = some r ∧
      ∀ p name, r = some (p, name) → s.view.live p ∧ name ∈ names := by
  induction names generalizing a with
  | nil => exact ⟨none, rfl, by simp⟩
  | cons n rest ih =>
    cases rest with
    | nil =>
      refine ⟨some (a, n), rfl, ?_⟩
      rintro p name hEq
      obtain ⟨rfl, rfl⟩ : a = p ∧ n = name := by simpa using hEq
      exact ⟨ha, by simp⟩
    | cons n' rest =>
      obtain ⟨r, hLookup, hFound, -⟩ := h.lookup ha n
      cases r with
      | none => exact ⟨none, by simp [Ramfs.walkParent, hLookup], by simp⟩
      | some c =>
        obtain ⟨r', hWalk, hr'⟩ := ih (h.live_of_mem (hFound c rfl).1)
        refine ⟨r', by simp [Ramfs.walkParent, hLookup, hWalk], ?_⟩
        intro p name hEq
        obtain ⟨hp, hName⟩ := hr' p name hEq
        exact ⟨hp, List.mem_cons_of_mem n hName⟩

theorem TreeInv.vfsLookupParent (h : TreeInv s kids) (path : List Char) :
    ∃ r, s.vfsLookupParent path = some r ∧ ∀ p name, r = some (p, name) →
      s.view.live p ∧ name ≠ [] ∧ name.take nameMax = name := by
  obtain ⟨r, hWalk, hr⟩ := h.walkParent (components path) h.rooted.root_live
  refine ⟨r, hWalk, fun p name hEq => ?_⟩
  obtain ⟨hp, hName⟩ := hr p name hEq
  exact ⟨hp, components_spec hName⟩

theorem view_linkNew (hp : s.view.live p) (ha : ¬ s.view.live a) {d : RamfsInode} (hd : s.inodes p = some d)
    (hTake : name.take nameMax = name) (mode : UInt32) :
    ((((s.ramfsAllocInode a mode name).setParent a (some p)).setSibling a d.children).setChildren p
      (some a)).view = {
        live := fun x => x = a ∨ s.view.live x
        mode := Function.update s.view.mode a (some mode)
        parent := Function.update s.view.parent a (some p)
        head := Function.update s.view.head p (some a)
        next := Function.update s.view.next a (s.view.head p)
        name := Function.update s.view.name a (some name) } := by
  have hAlloc := view_ramfsAllocInode ha mode name
  have hHead : d.children = s.view.head p := by simp [view, hd]
  rw [view_setChildren, view_setSibling, view_setParent, hAlloc, hTake, hHead]
  · simp [hAlloc]
  · simp [view_setParent, hAlloc]
  · simp [view_setSibling, view_setParent, hAlloc, hp]

theorem TreeInv.ramfsMake (h : TreeInv s kids) (hp : s.view.live p) (hName : name ≠ [])
    (hTake : name.take nameMax = name) (ha : ¬ s.view.live a) (type mode : UInt32) :
    s.Makes a (s.ramfsMake type p name mode a) := by
  obtain ⟨r, hLookup, -, hMissing⟩ := h.lookup hp name
  cases r with
  | some c =>
    have hExist : -eExist ≠ 0 := by decide
    simpa [Ramfs.ramfsMake, hName, hLookup] using h.makes (a := a) hExist
  | none =>
    have hNe : p ≠ a := fun hEq => ha (hEq ▸ hp)
    obtain ⟨d, hd⟩ := live_iff.mp hp
    have hDead : s.inodes a = none := by simpa [view] using ha
    have hDir : (s.ramfsAllocInode a (type ||| mode) name).inodes p = some d := by
      simp [ramfsAllocInode, hNe, hd]
    simp only [Ramfs.ramfsMake, hName, hLookup, if_false, Option.bind_eq_bind, Option.bind_some,
      ramfsAddChild, hDir]
    split
    · rename_i hIsDir
      have hpDir : s.IsDir p := ⟨d.mode, by simp [view, hd], hIsDir⟩
      have hView := view_linkNew hp ha hd hTake (type ||| mode)
      refine ⟨_, _, attach kids p a, rfl, ?_, rfl, ?_, ?_⟩
      · exact h.attach_new hpDir hp ha hName (hMissing rfl hpDir) rfl rfl hView
      · intro x
        rw [hView]
        simp only [true_and]
        exact or_comm
      · intro x hx
        rw [hView]
        exact Function.update_of_ne hx _ _
    · -- the new inode is freed again
      have hBack : ((s.ramfsAllocInode a (type ||| mode) name).ramfsFreeInode a).inodes = s.inodes := by
        simp [ramfsFreeInode, ramfsAllocInode, ← hDead]
      have hView : ((s.ramfsAllocInode a (type ||| mode) name).ramfsFreeInode a).view = s.view := by
        simp only [view, hBack]
      refine ⟨_, _, kids, rfl, h.congr hView rfl rfl, rfl, ?_, ?_⟩
      · intro x
        rw [hView]
        exact ⟨Or.inl, fun hx => hx.elim id fun hNew => absurd hNew.1 (by decide)⟩
      · intro x _
        rw [hView]

theorem TreeInv.leaf (h : TreeInv s kids) {i : RamfsInode}
    (hi : s.inodes t = some i) (hNone : sIsDir i.mode = false ∨ i.children = none) : kids t = [] := by
  rcases hNone with hFile | hEmpty
  · by_contra hKids
    obtain ⟨m, hm, hDir⟩ := h.dirs hKids
    obtain rfl : i.mode = m := by simpa [view, hi] using hm
    simp [hFile] at hDir
  · have hChain := h.links t
    have hHead : s.view.head t = none := by simp [view, hi, hEmpty]
    rw [hHead] at hChain
    cases hKids : kids t with
    | nil => rfl
    | cons x xs => simp [hKids, Chain] at hChain

theorem TreeInv.unlinkFree (h : TreeInv s kids) (ht : t ∈ kids p) (hLeaf : kids t = []) :
    s.Removes t ((s.unlinkChild p t).bind fun s => some (s.ramfsFreeInode t, 0)) := by
  obtain ⟨s', hd, nx, hUnlink, hRoot, hCount, hView, hLinks⟩ := h.unlink ht
  rw [hUnlink]
  refine ⟨_, _, _, rfl, h.detach_free ht hLeaf hLinks hRoot hCount hView, Or.inr ⟨rfl, ?_, hRoot, ?_, ?_⟩⟩
  · rintro rfl
    exact h.rooted.root_free p ht
  · intro x
    rw [view_ramfsFreeInode, hView]
  · intro x hx
    rw [view_ramfsFreeInode, hView]
    exact Function.update_of_ne hx _ _

theorem TreeInv.ramfsUnlink (h : TreeInv s kids) (ht : t ∈ kids p)
    (hLookup : s.ramfsLookupChild p name = some (some t)) : s.Removes t (s.ramfsUnlink p name) := by
  obtain ⟨i, hi⟩ := live_iff.mp (h.live_of_mem ht)
  simp only [Ramfs.ramfsUnlink, hLookup, Option.bind_eq_bind, Option.bind_some, hi]
  split
  · exact h.removes (by decide)
  · rename_i hFile
    exact h.unlinkFree ht (h.leaf hi (.inl (by simpa using hFile)))

theorem TreeInv.ramfsRmdir (h : TreeInv s kids) (ht : t ∈ kids p)
    (hLookup : s.ramfsLookupChild p name = some (some t)) : s.Removes t (s.ramfsRmdir p name) := by
  obtain ⟨i, hi⟩ := live_iff.mp (h.live_of_mem ht)
  simp only [Ramfs.ramfsRmdir, hLookup, Option.bind_eq_bind, Option.bind_some, hi]
  split
  · exact h.removes (by decide)
  · split
    · exact h.removes (by decide)
    · rename_i hEmpty
      exact h.unlinkFree ht (h.leaf hi (.inr (by simpa using hEmpty)))

theorem TreeInv.ramfsRename (h : TreeInv s kids) (ht : t ∈ kids p) (hq : s.view.live q)
    (hName : name ≠ []) (hTake : name.take nameMax = name)
    (hSafe : s.ramfsLookupChild q name = some none → s.IsDir q ∧ ¬ Reach kids t q) :
    Keeps (s.ramfsRename p t q name) := by
  obtain ⟨r, hLookup, -, hMissing⟩ := h.lookup hq name
  simp only [Ramfs.ramfsRename, hLookup, Option.bind_eq_bind, Option.bind_some]
  cases r with
  | some c => exact h.keeps (-eExist)
  | none =>
    obtain ⟨hDir, hOut⟩ := hSafe hLookup
    have hFresh := hMissing rfl hDir
    obtain ⟨s₁, hd, nx, hUnlink, hRoot, hCount, hView, hLinks⟩ := h.unlink ht
    have hLive : s₁.view.live = s.view.live := by rw [hView]
    have hq₁ : s₁.view.live q := by rw [hLive]; exact hq
    have ht₁ : s₁.view.live t := by rw [hLive]; exact h.live_of_mem ht
    obtain ⟨d, hInode⟩ := live_iff.mp hq₁
    have hHead : d.children = hd q := by
      have hField : s₁.view.head q = d.children := by simp [view, hInode]
      rw [← hField, hView]
    simp only [hUnlink, Option.bind_some]
    by_cases hSame : p = q
    · subst hSame
      simp only [ne_eq, not_true, if_false, hInode, Option.bind_some, pure]
      refine ⟨_, _, _, rfl, h.move_named ht hDir hq hOut hName hFresh hRoot hCount hLinks ?_⟩
      have hParent : Function.update s.view.parent t (some p) = s.view.parent := by
        rw [Function.update_eq_self_iff, h.parent ht]
      rw [view_setName, view_setChildren, view_setSibling ht₁, hView, hTake, hHead, hParent]
      · simp [view_setSibling ht₁, hq₁]
      · rw [view_setChildren]
        · simp [view_setSibling ht₁, ht₁]
        · simp [view_setSibling ht₁, hq₁]
    · simp only [ne_eq, hSame, not_false_iff, if_true, hInode, Option.bind_some, pure]
      refine ⟨_, _, _, rfl, h.move_named ht hDir hq hOut hName hFresh hRoot hCount hLinks ?_⟩
      have h₂ := view_setSibling (v := d.children) ht₁
      have h₃ := view_setChildren (s := s₁.setSibling t d.children) (v := some t)
        (a := q) (by simp [h₂, hq₁])
      have h₄ := view_setParent (s := (s₁.setSibling t d.children).setChildren q (some t))
        (v := some q) (a := t) (by simp [h₃, h₂, ht₁])
      rw [view_setName (by simp [h₄, h₃, h₂, ht₁]), h₄, h₃, h₂, hView, hTake, hHead]

def Below (s : Ramfs) (t q : Nat) : Prop :=
  Relation.ReflTransGen (fun a b => s.view.parent b = some a) t q

theorem TreeInv.below_of_reach (h : TreeInv s kids) (hReach : Reach kids t q) : s.Below t q := by
  induction hReach with
  | refl => exact .refl
  | tail _ hEdge ih => exact ih.tail (h.parent hEdge)

/-- What a step asks for: memory from the allocator that is not in use, and no rename of an inode to
a place that is below it or not in a directory. -/
def Allowed (s : Ramfs) : TreeOp → Prop
  | .create _ _ addr => ¬ s.view.live addr
  | .mkdir _ _ addr => ¬ s.view.live addr
  | .rename old new => ∀ oldParent oldName newParent newName target,
    s.vfsLookupParent old = some (some (oldParent, oldName)) →
    s.vfsLookupParent new = some (some (newParent, newName)) →
    s.ramfsLookupChild oldParent oldName = some (some target) →
    s.ramfsLookupChild newParent newName = some none →
    s.IsDir newParent ∧ ¬ s.Below target newParent
  | .unlink _ => True
  | .rmdir _ => True

def AllowedAlong (s : Ramfs) : List TreeOp → Prop
  | [] => True
  | op :: ops => s.Allowed op ∧ ∀ s' ret, s.step op = some (s', ret) → s'.AllowedAlong ops

theorem TreeInv.vfsRename (h : TreeInv s kids) {old new : List Char}
    (hAllowed : s.Allowed (.rename old new)) : Keeps (s.vfsRename old new) := by
  obtain ⟨r, hOld, hr⟩ := h.vfsLookupParent old
  simp only [Ramfs.vfsRename, hOld, Option.bind_eq_bind, Option.bind_some]
  rcases r with - | ⟨p, oldName⟩
  · exact h.keeps (-eNoEnt)
  obtain ⟨hp, -, -⟩ := hr p oldName rfl
  obtain ⟨r', hNew, hr'⟩ := h.vfsLookupParent new
  simp only [hNew, Option.bind_some]
  rcases r' with - | ⟨q, newName⟩
  · exact h.keeps (-eNoEnt)
  obtain ⟨hq, hName, hTake⟩ := hr' q newName rfl
  obtain ⟨c, hLookup, hFound, -⟩ := h.lookup hp oldName
  simp only [hLookup, Option.bind_some]
  cases c with
  | none => exact h.keeps (-eNoEnt)
  | some t =>
    refine h.ramfsRename (hFound t rfl).1 hq hName hTake fun hMissing => ?_
    obtain ⟨hDir, hOut⟩ := hAllowed p oldName q newName t hOld hNew hLookup hMissing
    exact ⟨hDir, fun hReach => hOut (h.below_of_reach hReach)⟩

/-- The inode that a path names, by the lookups of `vfs_unlink` and `vfs_rmdir`. -/
def target (s : Ramfs) (path : List Char) : Option (Option Nat) := do
  match ← s.vfsLookupParent path with
  | none => return none
  | some (parent, name) => s.ramfsLookupChild parent name

theorem TreeInv.target_cases (h : TreeInv s kids) (path : List Char) :
    (s.target path = some none ∧ s.vfsUnlink path = some (s, -eNoEnt) ∧
        s.vfsRmdir path = some (s, -eNoEnt)) ∨
      ∃ p name t, s.target path = some (some t) ∧ t ∈ kids p ∧
        s.vfsLookupParent path = some (some (p, name)) ∧
        s.ramfsLookupChild p name = some (some t) := by
  obtain ⟨r, hParent, hr⟩ := h.vfsLookupParent path
  simp only [target, Ramfs.vfsUnlink, Ramfs.vfsRmdir, hParent, Option.bind_eq_bind, Option.bind_some]
  rcases r with - | ⟨p, name⟩
  · exact Or.inl ⟨rfl, rfl, rfl⟩
  obtain ⟨hp, -, -⟩ := hr p name rfl
  obtain ⟨c, hLookup, hFound, -⟩ := h.lookup hp name
  simp only [hLookup, Option.bind_some]
  cases c with
  | none => exact Or.inl ⟨rfl, rfl, rfl⟩
  | some t => exact Or.inr ⟨p, name, t, rfl, (hFound t rfl).1, rfl, hLookup⟩

theorem TreeInv.vfsUnlink_removes (h : TreeInv s kids) {path : List Char} (ht : t ∈ kids p)
    (hParent : s.vfsLookupParent path = some (some (p, name)))
    (hLookup : s.ramfsLookupChild p name = some (some t)) : s.Removes t (s.vfsUnlink path) := by
  obtain ⟨i, hi⟩ := live_iff.mp (h.live_of_mem ht)
  simp only [Ramfs.vfsUnlink, hParent, hLookup, hi, Option.bind_eq_bind, Option.bind_some]
  split
  · exact h.removes (by decide)
  · exact h.ramfsUnlink ht hLookup

theorem TreeInv.vfsRmdir_removes (h : TreeInv s kids) {path : List Char} (ht : t ∈ kids p)
    (hParent : s.vfsLookupParent path = some (some (p, name)))
    (hLookup : s.ramfsLookupChild p name = some (some t)) : s.Removes t (s.vfsRmdir path) := by
  obtain ⟨i, hi⟩ := live_iff.mp (h.live_of_mem ht)
  simp only [Ramfs.vfsRmdir, hParent, hLookup, hi, Option.bind_eq_bind, Option.bind_some]
  split
  · exact h.removes (by decide)
  · exact h.ramfsRmdir ht hLookup

theorem TreeInv.vfsUnlink (h : TreeInv s kids) (path : List Char) : Keeps (s.vfsUnlink path) := by
  obtain ⟨-, hNone, -⟩ | ⟨p, name, t, -, ht, hParent, hLookup⟩ := h.target_cases path
  · exact hNone ▸ h.keeps (-eNoEnt)
  · exact (h.vfsUnlink_removes ht hParent hLookup).keeps

theorem TreeInv.vfsRmdir (h : TreeInv s kids) (path : List Char) : Keeps (s.vfsRmdir path) := by
  obtain ⟨-, -, hNone⟩ | ⟨p, name, t, -, ht, hParent, hLookup⟩ := h.target_cases path
  · exact hNone ▸ h.keeps (-eNoEnt)
  · exact (h.vfsRmdir_removes ht hParent hLookup).keeps

theorem TreeInv.vfsMkdir (h : TreeInv s kids) (path : List Char) (mode : UInt32)
    (ha : ¬ s.view.live a) : s.Makes a (s.vfsMkdir path mode a) := by
  obtain ⟨r, hParent, hr⟩ := h.vfsLookupParent path
  simp only [Ramfs.vfsMkdir, hParent, Option.bind_eq_bind, Option.bind_some]
  rcases r with - | ⟨p, name⟩
  · exact h.makes (by decide)
  obtain ⟨hp, hName, hTake⟩ := hr p name rfl
  exact h.ramfsMake hp hName hTake ha sIfDir mode

theorem TreeInv.step (h : TreeInv s kids) {op : TreeOp} (hAllowed : s.Allowed op) :
    Keeps (s.step op) := by
  cases op with
  | create path mode addr =>
    obtain ⟨r, hParent, hr⟩ := h.vfsLookupParent path
    simp only [Ramfs.step, vfsCreate, hParent, Option.bind_eq_bind, Option.bind_some]
    rcases r with - | ⟨p, name⟩
    · exact h.keeps (-eNoEnt)
    obtain ⟨hp, hName, hTake⟩ := hr p name rfl
    exact (h.ramfsMake hp hName hTake hAllowed sIfReg mode).keeps
  | mkdir path mode addr => exact (h.vfsMkdir path mode hAllowed).keeps
  | rename old new => exact h.vfsRename hAllowed
  | unlink path => exact h.vfsUnlink path
  | rmdir path => exact h.vfsRmdir path

theorem TreeInv.run (h : TreeInv s kids) {ops : List TreeOp} (hAllowed : s.AllowedAlong ops) :
    ∃ s' kids', s.run ops = some s' ∧ TreeInv s' kids' := by
  induction ops generalizing s kids with
  | nil => exact ⟨s, kids, rfl, h⟩
  | cons op ops ih =>
    obtain ⟨hOp, hRest⟩ := hAllowed
    obtain ⟨s₁, ret, kids₁, hStep, h₁⟩ := h.step hOp
    obtain ⟨s₂, kids₂, hRun, h₂⟩ := ih h₁ (hRest s₁ ret hStep)
    refine ⟨s₂, kids₂, ?_, h₂⟩
    simp only [Ramfs.run, hStep, Option.bind_eq_bind, Option.bind_some]
    exact hRun

theorem treeInv_ramfsMount (root : Nat) : TreeInv (ramfsMount root) fun _ => [] where
  rooted := {
    root_live := by simp [ramfsMount, view, ramfsAllocInode]
    edge_live := by simp
    nodup := by simp
    parent_unique := by simp
    root_free := by simp
    reach := by
      intro b hb
      obtain rfl : root = b := by
        by_contra hNe
        simp [ramfsMount, view, ramfsAllocInode, Function.update_of_ne (Ne.symm hNe)] at hb
      exact .refl }
  links := by
    intro a
    by_cases ha : a = root
    · simp [ramfsMount, view, ramfsAllocInode, ha, Chain]
    · simp [ramfsMount, view, ramfsAllocInode, ha, Chain]
  dirs := by simp
  parent := by simp
  named := by simp
  distinct := by simp
  count := by
    refine ⟨{root}, ?_, rfl⟩
    intro a
    by_cases ha : a = root
    · simp [ramfsMount, view, ramfsAllocInode, ha]
    · simp [ramfsMount, view, ramfsAllocInode, ha]

/-- Every state of a run is a tree: each live inode has one path from the root, and none leads back
to itself. -/
theorem ramfs_stays_tree (root : Nat) (ops : List TreeOp)
    (hAllowed : (ramfsMount root).AllowedAlong ops) :
    ∃ s kids, (ramfsMount root).run ops = some s ∧ s.TreeInv kids ∧
      (∀ b, s.view.live b → ∃! xs, Trail kids s.root xs b) ∧
      (∀ b xs, s.view.live b → xs ≠ [] → ¬ Trail kids b xs b) := by
  obtain ⟨s, kids, hRun, h⟩ := (treeInv_ramfsMount root).run hAllowed
  refine ⟨s, kids, hRun, h, ?_, ?_⟩
  · intro b hb
    exact h.rooted.existsUnique_trail hb
  · intro b xs hb hXs
    exact h.rooted.no_cycle hb hXs

theorem below_iff : s.Below t q ↔ q = t ∨ ∃ a, s.Below t a ∧ s.view.parent q = some a :=
  Relation.ReflTransGen.cases_tail_iff _ t q

theorem ramfs_stays_tree_moved :
    ∃ s kids, (ramfsMount 0).run
        [.mkdir ['/', 'a'] 0 1, .mkdir ['/', 'b'] 0 2, .rename ['/', 'a'] ['/', 'b', '/', 'c']] = some s ∧
      s.TreeInv kids := by
  obtain ⟨s, kids, hRun, h, -⟩ := ramfs_stays_tree 0
    [.mkdir ['/', 'a'] 0 1, .mkdir ['/', 'b'] 0 2, .rename ['/', 'a'] ['/', 'b', '/', 'c']] (by
      refine ⟨by change ¬ View.live _ _; decide, ?_⟩
      intro s₁ ret₁ h₁
      obtain ⟨rfl, rfl⟩ := Prod.mk.inj (Option.some.inj h₁)
      refine ⟨by change ¬ View.live _ _; decide, ?_⟩
      intro s₂ ret₂ h₂
      obtain ⟨rfl, rfl⟩ := Prod.mk.inj (Option.some.inj h₂)
      refine ⟨?_, fun _ _ _ => trivial⟩
      intro p oldName q newName t hOld hNew hTarget _
      obtain ⟨rfl, rfl⟩ := Prod.mk.inj (Option.some.inj (Option.some.inj hOld))
      obtain ⟨rfl, rfl⟩ := Prod.mk.inj (Option.some.inj (Option.some.inj hNew))
      obtain rfl := Option.some.inj (Option.some.inj hTarget)
      refine ⟨⟨_, rfl, by decide⟩, ?_⟩
      rw [below_iff]
      rintro (hEq | ⟨a, hBelow, hParent⟩)
      · exact absurd hEq (by decide)
      · obtain rfl := Option.some.inj hParent
        rw [below_iff] at hBelow
        rcases hBelow with hEq | ⟨b, -, hNone⟩
        · exact absurd hEq (by decide)
        · nomatch hNone)
  exact ⟨s, kids, hRun, h⟩

theorem ramfs_rename_detaches_subtree :
    ∃ s, (ramfsMount 0).run
        [.mkdir ['/', 'a'] 0 1, .mkdir ['/', 'a', '/', 'b'] 0 2,
          .rename ['/', 'a'] ['/', 'a', '/', 'b', '/', 'c']] = some s ∧
      s.view.live 1 ∧ ¬ ∃ kids, s.TreeInv kids := by
  refine ⟨_, rfl, by decide, ?_⟩
  rintro ⟨kids, h⟩
  have hEmpty := h.links 0
  have hReach := h.rooted.reach (b := 1) (by decide)
  rcases Relation.ReflTransGen.cases_head hReach with hEq | ⟨c, hEdge, -⟩
  · exact absurd hEq (by decide)
  · cases hKids : kids 0 with
    | nil =>
      have hMem : c ∈ kids 0 := hEdge
      simp [hKids] at hMem
    | cons x xs =>
      rw [hKids] at hEmpty
      nomatch hEmpty.1

end Ramfs

end UnixOS.Fs
