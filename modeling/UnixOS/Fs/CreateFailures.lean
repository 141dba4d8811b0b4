import UnixOS.Fs.PathFiles

/-! # Creating when memory runs out

`vfs_create`, `vfs_mkdir` and `vfs_open` of `kernel/fs/vfs.c` over a RAM filesystem mounted on `/`, with
each of their allocations. `ramfs_create` and `ramfs_mkdir` link their inode into its directory before they
ask for the VFS inode, and nothing takes it back when that, or the `struct file` after it, is refused.
-/

namespace UnixOS.Fs

abbrev Grants := Nat → Option Nat

structure Made where
  fs : Ramfs
  ret : Int
  inode : Option Nat

namespace Ramfs

structure SameTree (s s' : Ramfs) : Prop where
  inodes : s'.inodes = s.inodes
  root : s'.root = s.root
  inodeCount : s'.inodeCount = s.inodeCount

section Calls

variable (s : Ramfs) (grant : Grants)

/-- `ramfs_lookup`: the number of the next request, and the inode if `d_inode` was set. -/
def ramfsLookup (t dir : Nat) (name : List Char) : Option (Nat × Option Nat) := do
  match ← s.ramfsLookupChild dir name with
  | none => return (t, none)
  | some child =>
    match grant t with
    | none => return (t + 1, none)
    | some _ => return (t + 1, some child)

/-- The walk of `vfs_lookup_parent`, with a dentry for every name but the last. -/
def walkParentFrom : Nat → Nat → List (List Char) → Option (Nat × Option (Nat × List Char))
  | t, _, [] => some (t, none)
  | t, curr, [name] => some (t, some (curr, name))
  | t, curr, name :: rest =>
    match grant t with
    | none => some (t + 1, none)
    | some _ => do
      match ← s.ramfsLookup grant (t + 1) curr name with
      | (t, none) => return (t, none)
      | (t, some child) => walkParentFrom t child rest

def ramfsMakeFrom (type : UInt32) (t dir : Nat) (name : List Char) (mode : UInt32) : Option Made :=
  if name = [] then some ⟨s, -eInval, none⟩
  else do
    match ← s.ramfsLookupChild dir name with
    | some _ => return ⟨s, -eExist, none⟩
    | none =>
      match grant t with
      | none => return ⟨s, -eNoMem, none⟩
      | some addr =>
        let s' := s.ramfsAllocInode addr (type ||| mode) name
        match ← s'.ramfsAddChild dir addr with
        | (s'', 0) =>
          match grant (t + 1) with
          | none => return ⟨s'', -eNoMem, none⟩
          | some _ => return ⟨s'', 0, some addr⟩
        | (s'', _) => return ⟨s''.ramfsFreeInode addr, -eNotDir, none⟩

def vfsMakeFrom (type : UInt32) (path : List Char) (mode : UInt32) : Option (Ramfs × Int) := do
  match ← s.walkParentFrom grant 0 s.root (components path) with
  | (_, none) => return (s, -eNoEnt)
  | (t, some (parent, name)) =>
    if name = [] then return (s, -eInval)
    match grant t with
    | none => return (s, -eNoMem)
    | some _ =>
      let made ← s.ramfsMakeFrom grant type (t + 1) parent name mode
      return (made.fs, made.ret)

def vfsCreateFrom (path : List Char) (mode : UInt32) : Option (Ramfs × Int) :=
  s.vfsMakeFrom grant sIfReg path mode

def vfsMkdirFrom (path : List Char) (mode : UInt32) : Option (Ramfs × Int) :=
  s.vfsMakeFrom grant sIfDir path mode

def openMade (t addr : Nat) (flags : UInt32) : Option (Ramfs × Option OpenFile) :=
  match grant t with
  | none => some (s, none)
  | some _ => do
    let inode ← s.inodes addr
    let f := vfsOpenInode inode flags
    return (s.modify addr fun _ => f.inode, some ⟨sIsDir inode.mode, addr, f.iSize, f.fPos⟩)

def openIn (t parent : Nat) (name : List Char) (flags mode : UInt32) :
    Option (Ramfs × Option OpenFile) :=
  match grant t with
  | none => some (s, none)
  | some _ =>
    if name = [] then some (s, none)
    else do
      match ← s.ramfsLookup grant (t + 1) parent name with
      | (t, some child) => s.openMade grant t child flags
      | (t, none) =>
        if flags &&& oCreat = 0 then return (s, none)
        else
          let made ← s.ramfsMakeFrom grant sIfReg t parent name mode
          match made.inode with
          | none => return (made.fs, none)
          | some addr => made.fs.openMade grant (t + 2) addr flags

/-- `vfs_open`. For `/` itself the file is used without a look at whether there is one. -/
def vfsOpenFrom (path : List Char) (flags mode : UInt32) : Option (Ramfs × Option OpenFile) :=
  if path = [] then some (s, none)
  else if path = ['/'] then (grant 0).map fun _ => (s, some ⟨true, s.root, 0, 0⟩)
  else if pathCompare ['/'] path then some (s, (grant 0).map fun _ => ⟨true, s.root, 0, 0⟩)
  else do
    match ← s.walkParentFrom grant 0 s.root (components path) with
    | (t, some (parent, name)) => s.openIn grant t parent name flags mode
    | (t, none) =>
      -- the name is taken from the path itself, if it is the only one
      let name := skipSlashes path
      if '/' ∈ name then return (s, none) else s.openIn grant t s.root (name.take nameMax) flags mode

/-- The name is new in its directory, and the request `last` is the first to be refused. -/
def RefusedLate (path : List Char) (last : Nat) : Prop :=
  components path ≠ [] ∧ s.objAt (components path).dropLast = some .dir ∧
    s.objAt (components path) = none ∧ (∀ t < last, grant t ≠ none) ∧ grant last = none

end Calls

variable {s s' : Ramfs} {kids : Nat → List Nat} {grant : Grants} {a p t : Nat} {ret : Int} {n : List Char}
  {P : List (List Char)} {path : List Char} {type mode flags : UInt32}

theorem SameTree.refl (s : Ramfs) : s.SameTree s := ⟨rfl, rfl, rfl⟩

/-! ### The walk -/

theorem walkParentFrom_cons {names : List (List Char)} (hNames : names ≠ []) :
    s.walkParentFrom grant t a (n :: names) = match grant t with
      | none => some (t + 1, none)
      | some _ => (s.ramfsLookup grant (t + 1) a n).bind fun found => match found.2 with
        | none => some (found.1, none)
        | some child => s.walkParentFrom grant found.1 child names := by
  obtain ⟨m, rest, rfl⟩ := List.exists_cons_of_ne_nil hNames
  rw [walkParentFrom]
  · cases grant t with
    | none => rfl
    | some b =>
      refine Option.bind_congr fun found _ => ?_
      obtain ⟨t', child⟩ := found
      cases child <;> rfl
  · exact hNames

theorem TreeInv.walkParentFrom_concat (h : s.TreeInv kids) (ha : s.view.live a) (grant : Grants) (t : Nat) :
    (∃ p, s.resolve a P = some p ∧ (∀ r < 2 * P.length, grant (t + r) ≠ none) ∧
      s.walkParentFrom grant t a (P ++ [n]) = some (t + 2 * P.length, some (p, n))) ∨
    ((s.resolve a P = none ∨ ∃ r < 2 * P.length, grant (t + r) = none) ∧
      ∃ t', s.walkParentFrom grant t a (P ++ [n]) = some (t', none)) := by
  induction P generalizing a t with
  | nil => exact .inl ⟨a, rfl, by simp, rfl⟩
  | cons m P ih =>
    obtain ⟨r, hLookup, hFound, -⟩ := h.lookup ha m
    rw [List.cons_append, walkParentFrom_cons (by simp), Ramfs.resolve, hLookup]
    cases hDentry : grant t with
    | none => exact .inr ⟨.inr ⟨0, by simp, hDentry⟩, t + 1, rfl⟩
    | some b =>
      cases r with
      | none => exact .inr ⟨.inl rfl, t + 1, by simp [ramfsLookup, hLookup]⟩
      | some c =>
        cases hInode : grant (t + 1) with
        | none =>
          refine .inr ⟨.inr ⟨1, by rw [List.length_cons]; omega, hInode⟩, t + 2, ?_⟩
          simp [ramfsLookup, hLookup, hInode]
        | some b' =>
          have hStep : s.ramfsLookup grant (t + 1) a m = some (t + 2, some c) := by
            simp [ramfsLookup, hLookup, hInode]
          simp only [hStep, Option.bind_some, Option.join_some]
          rcases ih (h.live_of_mem (hFound c rfl).1) (t + 2) with
            ⟨p, hp, hGrants, hEq⟩ | ⟨hFail, t', hEq⟩
          · refine .inl ⟨p, hp, fun r hr => ?_, ?_⟩
            · rcases r with _ | _ | r
              · simp [hDentry]
              · simp [hInode]
              · rw [show t + (r + 1 + 1) = t + 2 + r by omega]
                exact hGrants r (by rw [List.length_cons] at hr; omega)
            · rw [hEq, List.length_cons, show t + 2 + 2 * P.length = t + 2 * (P.length + 1) by omega]
          · refine .inr ⟨?_, t', hEq⟩
            rcases hFail with hNone | ⟨r, hr, hNone⟩
            · exact .inl hNone
            · refine .inr ⟨r + 2, by rw [List.length_cons]; omega, ?_⟩
              rwa [show t + (r + 2) = t + 2 + r by omega]

theorem FileTree.walkParentFrom_cases (h : s.FileTree kids) (grant : Grants) (path : List Char) :
    (components path = [] ∧ s.walkParentFrom grant 0 s.root (components path) = some (0, none)) ∨
    ∃ P n, components path = P ++ [n] ∧ n ≠ [] ∧ n.length ≤ nameMax ∧
      ((∃ p, s.resolve s.root P = some p ∧ (∀ t < 2 * P.length, grant t ≠ none) ∧
        s.walkParentFrom grant 0 s.root (components path) = some (2 * P.length, some (p, n))) ∨
      ((s.objAt P = none ∨ ∃ t < 2 * P.length, grant t = none) ∧
        ∃ t', s.walkParentFrom grant 0 s.root (components path) = some (t', none))) := by
  rcases List.eq_nil_or_concat' (components path) with hNil | ⟨P, n, hEq⟩
  · exact .inl ⟨hNil, by rw [hNil]; rfl⟩
  obtain ⟨hName, hTake⟩ := components_spec (show n ∈ components path by simp [hEq])
  have hFits : n.length ≤ nameMax := by
    rw [← hTake]
    simp
  have hWalk := h.tree.walkParentFrom_concat (P := P) (n := n) h.tree.rooted.root_live grant 0
  simp only [Nat.zero_add, ← hEq, ← h.tree.objAt_eq_none] at hWalk
  exact .inr ⟨P, n, hEq, hName, hFits, hWalk⟩

/-! ### The new node -/

theorem ramfsMake_failed (hMake : s.ramfsMake type p n mode a = some (s', ret)) (hRet : ret ≠ 0)
    (hFree : s.inodes a = none) : s.SameTree s' := by
  have hGone : Function.update s.inodes a none = s.inodes := by rw [← hFree, Function.update_eq_self]
  unfold Ramfs.ramfsMake at hMake
  split at hMake
  · obtain ⟨rfl, -⟩ := Prod.mk.inj (Option.some.inj hMake)
    exact .refl s
  obtain ⟨r, -, hMake⟩ := Option.bind_eq_some_iff.mp hMake
  cases r with
  | some c =>
    obtain ⟨rfl, -⟩ := Prod.mk.inj (Option.some.inj hMake)
    exact .refl s
  | none =>
    obtain ⟨⟨s₁, r⟩, hAdd, hMake⟩ := Option.bind_eq_some_iff.mp hMake
    unfold ramfsAddChild at hAdd
    split at hAdd
    case h_1 => cases hAdd
    case h_2 d hd =>
      split at hAdd
      · obtain ⟨rfl, rfl⟩ := Prod.mk.inj (Option.some.inj hAdd)
        obtain ⟨-, rfl⟩ := Prod.mk.inj (Option.some.inj hMake)
        exact absurd rfl hRet
      · obtain ⟨rfl, rfl⟩ := Prod.mk.inj (Option.some.inj hAdd)
        obtain ⟨rfl, -⟩ := Prod.mk.inj (Option.some.inj hMake)
        exact ⟨by simp [ramfsFreeInode, ramfsAllocInode, hGone], rfl, rfl⟩

theorem ramfsMakeFrom_granted (hGrant : grant t = some a) :
    s.ramfsMakeFrom grant type t p n mode = (s.ramfsMake type p n mode a).map fun made =>
      if made.2 = 0 then
        match grant (t + 1) with
        | none => ⟨made.1, -eNoMem, none⟩
        | some _ => ⟨made.1, 0, some a⟩
      else ⟨made.1, made.2, none⟩ := by
  unfold ramfsMakeFrom Ramfs.ramfsMake
  split
  · rfl
  cases s.ramfsLookupChild p n with
  | none => rfl
  | some r =>
    cases r with
    | some c => rfl
    | none =>
      simp only [Option.bind_eq_bind, Option.bind_some, hGrant]
      unfold ramfsAddChild
      split
      · rfl
      · split
        · cases grant (t + 1) <;> rfl
        · rfl

theorem FileTree.makeFrom (h : s.FileTree kids) (hFree : ∀ t a, grant t = some a → s.inodes a = none)
    (hP : s.resolve s.root P = some p) (hName : n ≠ []) (hFits : n.length ≤ nameMax) (type mode : UInt32)
    (t : Nat) :
    (s.objAt P = some .dir ∧ s.objAt (P ++ [n]) = none ∧ grant t ≠ none ∧ ∃ s' a i,
      s'.inodes a = some i ∧ ¬ s.SameTree s' ∧ s.ramfsMakeFrom grant type t p n mode = some
        (match grant (t + 1) with
        | none => ⟨s', -eNoMem, none⟩
        | some _ => ⟨s', 0, some a⟩)) ∨
    (¬ (s.objAt P = some .dir ∧ s.objAt (P ++ [n]) = none ∧ grant t ≠ none) ∧ ∃ s' ret,
      s.ramfsMakeFrom grant type t p n mode = some ⟨s', ret, none⟩ ∧ ret ≠ 0 ∧ s.SameTree s') := by
  cases hGrant : grant t with
  | none =>
    obtain ⟨r, hLookup, -⟩ := h.tree.lookup (h.tree.resolve_live h.tree.rooted.root_live hP) n
    refine .inr ⟨fun hAll => hAll.2.2 rfl, s, if r = none then -eNoMem else -eExist, ?_, ?_, .refl s⟩
    · cases r <;> simp [ramfsMakeFrom, hName, hLookup, hGrant]
    · split <;> decide
  | some a =>
    have hDead := hFree t a hGrant
    have ha : ¬ s.view.live a := by simp [view, hDead]
    rw [ramfsMakeFrom_granted hGrant]
    rcases h.make ha hP hName hFits type mode with
      ⟨hDir, hNone, s', i, hMake, -, hAt, -⟩ | ⟨hNot, s', ret, hMake, hRet, -⟩
    · refine .inl ⟨hDir, hNone, by simp, s', a, i, hAt.2, fun hSame => ?_, by simp [hMake]⟩
      have hOld := hSame.inodes ▸ hAt.2
      rw [hDead] at hOld
      cases hOld
    · refine .inr ⟨fun hAll => hNot ⟨hAll.1, hAll.2.1⟩, s', ret, ?_, hRet, ramfsMake_failed hMake hRet hDead⟩
      simp [hMake, hRet]

/-! ### The calls -/

theorem refusedLate_iff {last : Nat} (hEq : components path = P ++ [n]) :
    s.RefusedLate grant path last ↔ s.objAt P = some .dir ∧ s.objAt (P ++ [n]) = none ∧
      (∀ t < last, grant t ≠ none) ∧ grant last = none := by
  rw [RefusedLate, hEq, List.dropLast_concat]
  simp

theorem not_refusedLate {last : Nat} (hEq : components path = P ++ [n])
    (hLast : 2 * (components path).length ≤ last)
    (hFail : s.objAt P = none ∨ ∃ t < 2 * P.length, grant t = none) : ¬ s.RefusedLate grant path last := by
  rw [refusedLate_iff hEq]
  rintro ⟨hDir, -, hGrants, -⟩
  rcases hFail with hNone | ⟨t, ht, hNone⟩
  · rw [hNone] at hDir
    cases hDir
  · rw [hEq, List.length_append, List.length_singleton] at hLast
    exact hGrants t (by omega) hNone

theorem FileTree.vfsMakeFrom (h : s.FileTree kids) (hFree : ∀ t a, grant t = some a → s.inodes a = none)
    (path : List Char) (type mode : UInt32) :
    ∃ s' ret, s.vfsMakeFrom grant type path mode = some (s', ret) ∧
      ((ret ≠ 0 → s.SameTree s') ↔ ¬ s.RefusedLate grant path (2 * (components path).length)) := by
  rcases h.walkParentFrom_cases grant path with
    ⟨hNil, hWalk⟩ | ⟨P, n, hEq, hName, hFits, ⟨p, hP, hGrants, hWalk⟩ | ⟨hFail, t, hWalk⟩⟩
  · refine ⟨s, -eNoEnt, by simp [Ramfs.vfsMakeFrom, hWalk], fun _ hLate => hLate.1 hNil, fun _ _ => .refl s⟩
  · have hCall : s.vfsMakeFrom grant type path mode = match grant (2 * P.length) with
        | none => some (s, -eNoMem)
        | some _ => (s.ramfsMakeFrom grant type (2 * P.length + 1) p n mode).map fun made =>
          (made.fs, made.ret) := by
      simp only [Ramfs.vfsMakeFrom, hWalk, Option.bind_eq_bind, Option.bind_some, hName, if_false]
      cases grant (2 * P.length) with
      | none => rfl
      | some b => cases s.ramfsMakeFrom grant type (2 * P.length + 1) p n mode <;> rfl
    have hLast : 2 * (components path).length = 2 * P.length + 1 + 1 := by
      rw [hEq, List.length_append, List.length_singleton]
      omega
    rw [hCall, refusedLate_iff hEq, hLast]
    cases hDentry : grant (2 * P.length) with
    | none =>
      refine ⟨s, -eNoMem, rfl, fun _ hLate => ?_, fun _ _ => .refl s⟩
      exact hLate.2.2.1 (2 * P.length) (by omega) hDentry
    | some b =>
      rcases h.makeFrom hFree hP hName hFits type mode (2 * P.length + 1) with
        ⟨hDir, hNone, hInode, s', a, i, -, hChanged, hMake⟩ | ⟨hNot, s', ret, hMake, -, hSame⟩
      · cases hLater : grant (2 * P.length + 1 + 1) with
        | none =>
          rw [hLater] at hMake
          refine ⟨s', -eNoMem, by rw [hMake]; rfl, fun hSame => ?_, fun hNot => ?_⟩
          · exact absurd (hSame (by decide)) hChanged
          · refine absurd ⟨hDir, hNone, fun t ht => ?_, rfl⟩ hNot
            obtain hLt | rfl | rfl : t < 2 * P.length ∨ t = 2 * P.length ∨ t = 2 * P.length + 1 := by omega
            · exact hGrants t hLt
            · simp [hDentry]
            · exact hInode
        | some c =>
          rw [hLater] at hMake
          refine ⟨s', 0, by rw [hMake]; rfl, fun _ hLate => ?_, fun _ hRet => absurd rfl hRet⟩
          exact absurd hLate.2.2.2 (Option.some_ne_none c)
      · refine ⟨s', ret, by rw [hMake]; rfl, fun _ hLate => ?_, fun _ _ => hSame⟩
        exact hNot ⟨hLate.1, hLate.2.1, hLate.2.2.1 _ (by omega)⟩
  · refine ⟨s, -eNoEnt, by simp [Ramfs.vfsMakeFrom, hWalk], fun _ => ?_, fun _ _ => .refl s⟩
    exact not_refusedLate hEq le_rfl hFail

def Undone (s : Ramfs) (opened : Option (Ramfs × Option OpenFile)) : Prop :=
  ∀ s', opened = some (s', none) → s.SameTree s'

theorem undone_same (s : Ramfs) : s.Undone (some (s, none)) := by
  intro s' hEq
  obtain ⟨rfl, -⟩ := Prod.mk.inj (Option.some.inj hEq)
  exact .refl s

theorem undone_openMade (s : Ramfs) (grant : Grants) (t a : Nat) (flags : UInt32) :
    s.Undone (s.openMade grant t a flags) := by
  unfold openMade
  cases grant t with
  | none => exact undone_same s
  | some b =>
    intro s' hEq
    obtain ⟨i, -, hEq⟩ := Option.bind_eq_some_iff.mp hEq
    cases hEq

theorem FileTree.openIn (h : s.FileTree kids) (hFree : ∀ t a, grant t = some a → s.inodes a = none)
    (hEq : components path = P ++ [n]) (hP : s.resolve s.root P = some p) (hName : n ≠ [])
    (hFits : n.length ≤ nameMax) (hGrants : ∀ t < 2 * P.length, grant t ≠ none) (hCreat : flags &&& oCreat ≠ 0)
    (mode : UInt32) :
    s.Undone (s.openIn grant (2 * P.length) p n flags mode) ↔
      ¬ s.RefusedLate grant path (2 * (components path).length) ∧
      ¬ s.RefusedLate grant path (2 * (components path).length + 1) := by
  have hLength : 2 * (components path).length = 2 * P.length + 1 + 1 := by
    rw [hEq, List.length_append, List.length_singleton]
    omega
  rw [hLength, refusedLate_iff hEq, refusedLate_iff hEq]
  have hEarly : ∀ t < 2 * P.length + 1 + 1,
      grant t = none ∨ ¬ (s.objAt P = some .dir ∧ s.objAt (P ++ [n]) = none) →
      ∀ last ≥ 2 * P.length + 1 + 1, ¬ (s.objAt P = some .dir ∧ s.objAt (P ++ [n]) = none ∧
        (∀ t < last, grant t ≠ none) ∧ grant last = none) := by
    rintro t ht hBlocked last hLast ⟨hDir, hNone, hAll, -⟩
    rcases hBlocked with hRefused | hNot
    · exact hAll t (by omega) hRefused
    · exact hNot ⟨hDir, hNone⟩
  have hIdle : ∀ {t}, t < 2 * P.length + 1 + 1 →
      grant t = none ∨ ¬ (s.objAt P = some .dir ∧ s.objAt (P ++ [n]) = none) → _ ∧ _ :=
    fun ht hBlocked => ⟨hEarly _ ht hBlocked (2 * P.length + 1 + 1) le_rfl,
      hEarly _ ht hBlocked (2 * P.length + 1 + 1 + 1) (Nat.le_succ _)⟩
  unfold Ramfs.openIn
  cases hDentry : grant (2 * P.length) with
  | none => exact iff_of_true (undone_same s) (hIdle (by omega) (.inl hDentry))
  | some b =>
    obtain ⟨r, hLookup, -⟩ := h.tree.lookup (h.tree.resolve_live h.tree.rooted.root_live hP) n
    have hThere := h.tree.objAt_child (n := n) hP
    simp only [hName, if_false, ramfsLookup, hLookup, Option.bind_eq_bind, Option.pure_def, Option.bind_some,
      hCreat]
    cases r with
    | some c =>
      have hBlocked : ¬ (s.objAt P = some .dir ∧ s.objAt (P ++ [n]) = none) := by
        rw [hThere, hLookup]
        simp
      refine iff_of_true ?_ (hIdle (t := 0) (by omega) (.inr hBlocked))
      cases hInode : grant (2 * P.length + 1) with
      | some c => exact undone_openMade s grant _ _ flags
      | none =>
        simp [ramfsMakeFrom, hName, hLookup, undone_same]
    | none =>
      rcases h.makeFrom hFree hP hName hFits sIfReg mode (2 * P.length + 1) with
        ⟨hDir, hNone, hInode, s', a, i, hi, hChanged, hMake⟩ | ⟨hNot, s', ret, hMake, -, hSame⟩
      · have hBefore : ∀ t < 2 * P.length + 1 + 1, grant t ≠ none := by
          intro t ht
          obtain hLt | rfl | rfl : t < 2 * P.length ∨ t = 2 * P.length ∨ t = 2 * P.length + 1 := by omega
          · exact hGrants t hLt
          · simp [hDentry]
          · exact hInode
        rcases Option.eq_none_or_eq_some (grant (2 * P.length + 1 + 1)) with hLater | ⟨c, hLater⟩
        · simp only [hLater] at hMake
          simp only [hMake, Option.bind_some]
          refine iff_of_false (fun hUndone => hChanged (hUndone s' rfl)) fun hLate => hLate.1 ?_
          exact ⟨hDir, hNone, hBefore, hLater⟩
        · simp only [hLater] at hMake
          simp only [hMake, Option.bind_some]
          have hFirst : grant (2 * P.length + 1 + 1) ≠ none := by simp [hLater]
          rw [Ramfs.openMade]
          rcases Option.eq_none_or_eq_some (grant (2 * P.length + 1 + 2)) with hFile | ⟨d, hFile⟩
          · rw [hFile]
            refine iff_of_false (fun hUndone => hChanged (hUndone s' rfl)) fun hLate => hLate.2 ?_
            refine ⟨hDir, hNone, fun t ht => ?_, rfl⟩
            obtain hLt | rfl : t < 2 * P.length + 1 + 1 ∨ t = 2 * P.length + 1 + 1 := by omega
            · exact hBefore t hLt
            · exact hFirst
          · rw [hFile]
            refine iff_of_true ?_ ⟨fun hLate => hFirst hLate.2.2.2, fun hLate => nomatch hLate.2.2.2⟩
            intro s₁ hCall
            rw [hi] at hCall
            cases hCall
      · simp only [hMake, Option.bind_some]
        refine iff_of_true ?_ ⟨?_, ?_⟩
        · intro s₁ hCall
          obtain ⟨rfl, -⟩ := Prod.mk.inj (Option.some.inj hCall)
          exact hSame
        all_goals exact fun hLate => hNot ⟨hLate.1, hLate.2.1, hLate.2.2.1 _ (by omega)⟩

theorem FileTree.slash_of_failed_walk (h : s.FileTree kids) (hEq : components path = P ++ [n])
    (hFail : s.objAt P = none ∨ ∃ t < 2 * P.length, grant t = none) : '/' ∈ skipSlashes path := by
  by_contra hSingle
  have hParent : P = [] := by
    rcases Vfs.Single.components hSingle with hNil | ⟨name, hOne⟩
    · simp [hEq] at hNil
    · rw [hEq] at hOne
      simpa using congrArg List.length hOne
  subst hParent
  rcases hFail with hNone | ⟨t, ht, -⟩
  · obtain ⟨i, hi, -⟩ := h.at_root
    rw [hi.objAt] at hNone
    cases hNone
  · exact absurd ht (Nat.not_lt_zero t)

theorem FileTree.vfsOpenFrom (h : s.FileTree kids) (hFree : ∀ t a, grant t = some a → s.inodes a = none)
    (path : List Char) (mode : UInt32) (hCreat : flags &&& oCreat ≠ 0) :
    s.Undone (s.vfsOpenFrom grant path flags mode) ↔
      ¬ s.RefusedLate grant path (2 * (components path).length) ∧
      ¬ s.RefusedLate grant path (2 * (components path).length + 1) := by
  have hRoot : components path = [] → (¬ s.RefusedLate grant path (2 * (components path).length) ∧
      ¬ s.RefusedLate grant path (2 * (components path).length + 1)) :=
    fun hNil => ⟨fun hLate => hLate.1 hNil, fun hLate => hLate.1 hNil⟩
  unfold Ramfs.vfsOpenFrom
  split
  case isTrue hPath =>
    subst hPath
    exact iff_of_true (undone_same s) (hRoot rfl)
  case isFalse hPath =>
    split
    case isTrue hSlash =>
      subst hSlash
      refine iff_of_true ?_ (hRoot rfl)
      intro s' hEq
      obtain ⟨b, -, hEq⟩ := Option.map_eq_some_iff.mp hEq
      cases hEq
    case isFalse hOther =>
      split
      case isTrue hMount =>
        have hNil := Vfs.components_eq_nil.mpr ((Vfs.compare_root_iff hPath).mp hMount)
        refine iff_of_true ?_ (hRoot hNil)
        intro s' hEq
        obtain ⟨rfl, -⟩ := Prod.mk.inj (Option.some.inj hEq)
        exact .refl s
      case isFalse hBelow =>
        rcases h.walkParentFrom_cases grant path with
          ⟨hNil, -⟩ | ⟨P, n, hEq, hName, hFits, ⟨p, hP, hGrants, hWalk⟩ | ⟨hFail, t, hWalk⟩⟩
        · exact absurd ((Vfs.compare_root_iff hPath).mpr (Vfs.components_eq_nil.mp hNil)) hBelow
        · simp only [hWalk, Option.bind_eq_bind, Option.bind_some]
          exact h.openIn hFree hEq hP hName hFits hGrants hCreat mode
        · have hMany := h.slash_of_failed_walk hEq hFail
          simp only [hWalk, Option.bind_eq_bind, Option.bind_some, hMany, if_true]
          exact iff_of_true (undone_same s)
            ⟨not_refusedLate hEq le_rfl hFail, not_refusedLate hEq (Nat.le_succ _) hFail⟩

/-- A failed call leaves the tree as it was unless memory runs out for a VFS inode or a file whose node is
linked in already. -/
theorem failed_creation_undone_iff (h : s.Good) (hFree : ∀ t a, grant t = some a → s.inodes a = none)
    (path : List Char) (mode flags : UInt32) (hCreat : flags &&& oCreat ≠ 0) :
    (∃ s' ret, s.vfsCreateFrom grant path mode = some (s', ret) ∧ ((ret ≠ 0 → s.SameTree s') ↔
      ¬ s.RefusedLate grant path (2 * (components path).length))) ∧
    (∃ s' ret, s.vfsMkdirFrom grant path mode = some (s', ret) ∧ ((ret ≠ 0 → s.SameTree s') ↔
      ¬ s.RefusedLate grant path (2 * (components path).length))) ∧
    ((∀ s', s.vfsOpenFrom grant path flags mode = some (s', none) → s.SameTree s') ↔
      ¬ s.RefusedLate grant path (2 * (components path).length) ∧
      ¬ s.RefusedLate grant path (2 * (components path).length + 1)) := by
  obtain ⟨kids, h⟩ := h
  exact ⟨h.vfsMakeFrom hFree path sIfReg mode, h.vfsMakeFrom hFree path sIfDir mode,
    h.vfsOpenFrom hFree path mode hCreat⟩

/-- Memory without end, but for the request with the number `refused`. -/
def refusing (refused : Nat) : Grants := fun t => if t = refused then none else some (t + 1)

theorem refusing_free (refused t a : Nat) (h : refusing refused t = some a) :
    (ramfsMount 0).inodes a = none := by
  unfold refusing at h
  split at h
  · cases h
  · obtain rfl := Option.some.inj h
    rfl

theorem failed_creation_undone_mounted :
    (∃ s' ret, (ramfsMount 0).vfsCreateFrom (refusing 1) ['/', 'a'] 0o644 = some (s', ret) ∧
      ((ret ≠ 0 → (ramfsMount 0).SameTree s') ↔ ¬ (ramfsMount 0).RefusedLate (refusing 1) ['/', 'a'] 2)) ∧
    (∃ s' ret, (ramfsMount 0).vfsMkdirFrom (refusing 1) ['/', 'a'] 0o644 = some (s', ret) ∧
      ((ret ≠ 0 → (ramfsMount 0).SameTree s') ↔ ¬ (ramfsMount 0).RefusedLate (refusing 1) ['/', 'a'] 2)) ∧
    ((∀ s', (ramfsMount 0).vfsOpenFrom (refusing 1) ['/', 'a'] oCreat 0o644 = some (s', none) →
      (ramfsMount 0).SameTree s') ↔ ¬ (ramfsMount 0).RefusedLate (refusing 1) ['/', 'a'] 2 ∧
        ¬ (ramfsMount 0).RefusedLate (refusing 1) ['/', 'a'] 3) :=
  failed_creation_undone_iff ⟨_, fileTree_ramfsMount 0⟩ (refusing_free 1) ['/', 'a'] 0o644 oCreat
    (by decide)

/-- Without memory for the VFS inode `vfs_create` fails, but there is one node more than before; the same
goes for `vfs_open` without memory for the file. -/
theorem failed_creation_leaves_node :
    (ramfsMount 0).Good ∧ (∀ r t a, refusing r t = some a → (ramfsMount 0).inodes a = none) ∧
    (∃ s', (ramfsMount 0).vfsCreateFrom (refusing 2) ['/', 'a'] 0o644 = some (s', -eNoMem) ∧
      s'.inodeCount = (ramfsMount 0).inodeCount + 1) ∧
    (∃ s', (ramfsMount 0).vfsMkdirFrom (refusing 2) ['/', 'a'] 0o755 = some (s', -eNoMem) ∧
      s'.inodeCount = (ramfsMount 0).inodeCount + 1) ∧
    ∃ s', (ramfsMount 0).vfsOpenFrom (refusing 3) ['/', 'a'] oCreat 0o644 = some (s', none) ∧
      s'.inodeCount = (ramfsMount 0).inodeCount + 1 :=
  ⟨⟨_, fileTree_ramfsMount 0⟩, refusing_free, ⟨_, rfl, rfl⟩, ⟨_, rfl, rfl⟩, _, rfl, rfl⟩

end Ramfs

end UnixOS.Fs
