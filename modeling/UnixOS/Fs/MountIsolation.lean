import UnixOS.Fs.Vfs

/-! # What a mount changes elsewhere

A new entry of the mount table is not consulted for paths that are not below its target. Whether such a
path shows the same as before then depends on what the filesystems share: each mount of the RAM
filesystem replaces the root behind all of them.
-/

namespace UnixOS.Fs

variable {δ : Type*} {p a target : List Char}

/-! ### Routing -/

theorem prefix_of_match {len : Nat} (h : pathHasMountPrefix p a = some len) : AtOrBelow a p := by
  by_cases hRoot : a = ['/']
  · subst hRoot
    rw [AtOrBelow, pathComponents_slash, pathComponents_nil]
    exact List.nil_prefix
  · obtain ⟨-, rest, rfl, hBoundary⟩ := match_inv hRoot h
    obtain rfl | ⟨r, rfl⟩ := hBoundary
    · exact (List.append_nil a).symm ▸ List.prefix_rfl
    · rw [AtOrBelow, pathComponents_append_slash]
      exact List.prefix_append _ _

theorem atOrBelow_of_compare (h : pathCompare a p = true) : AtOrBelow a p := by
  have hSame : pathComponents a = pathComponents p := pathComponents_of_compare h
  unfold AtOrBelow
  exact hSame ▸ List.prefix_rfl

theorem foldl_set_of_idle {α β : Type*} {f : β → α → β} {xs : List α} {i : Nat} {x y : α}
    (hOld : xs[i]? = some x) (hx : ∀ b, f b x = b) (hy : ∀ b, f b y = b) (b : β) :
    (xs.set i y).foldl f b = xs.foldl f b := by
  induction xs generalizing i b with
  | nil => rfl
  | cons z zs ih =>
    cases i with
    | zero =>
      obtain rfl : z = x := Option.some.inj hOld
      simp only [List.set_cons_zero, List.foldl_cons, hx, hy]
    | succ i => exact ih hOld (f b z)

theorem findIdx?_set_of_eq {α : Type*} {f : α → Bool} {xs : List α} {i : Nat} {x y : α}
    (hOld : xs[i]? = some x) (hSame : f y = f x) : (xs.set i y).findIdx? f = xs.findIdx? f := by
  induction xs generalizing i with
  | nil => rfl
  | cons z zs ih =>
    cases i with
    | zero =>
      obtain rfl : z = x := Option.some.inj hOld
      simp only [List.set_cons_zero, List.findIdx?_cons, hSame]
    | succ i =>
      have hTail : zs[i]? = some x := hOld
      simp only [List.set_cons_succ, List.findIdx?_cons, ih hTail]

namespace MountTable

variable {t : MountTable δ} {slot : Nat} {source fstype : List Char} {sRoot : δ}

theorem mounts_enter : (t.enter slot source target fstype sRoot).mounts =
    t.mounts.set slot (some ⟨sRoot, pathCopy source 64, pathCopy target 64, pathCopy fstype 32⟩) := by
  unfold enter
  dsimp only
  split <;> rfl

theorem rootDentry_enter (h : pathCompare target ['/'] = false) :
    (t.enter slot source target fstype sRoot).rootDentry = t.rootDentry := by
  simp only [enter, h, Bool.false_eq_true, if_false]

variable (hFree : t.mounts[slot]? = some none) (hOut : ¬ AtOrBelow (pathCopy target 64) p)

include hFree hOut

theorem findMountForPath_enter :
    (t.enter slot source target fstype sRoot).findMountForPath p = t.findMountForPath p := by
  rw [findMountForPath, mounts_enter]
  refine foldl_set_of_idle hFree (fun _ => rfl) ?_ _
  intro best
  unfold better
  dsimp only
  split
  case h_1 hNone => rfl
  case h_2 len hMatch => exact absurd (prefix_of_match hMatch) hOut

theorem findMountByTarget_enter :
    (t.enter slot source target fstype sRoot).findMountByTarget p = t.findMountByTarget p := by
  have hCompare : pathCompare (pathCopy target 64) p = false := by
    rw [← Bool.not_eq_true]
    exact fun hSame => hOut (atOrBelow_of_compare hSame)
  have hSlot : (t.enter slot source target fstype sRoot).slotByTarget p = t.slotByTarget p := by
    rw [slotByTarget, slotByTarget, mounts_enter]
    exact findIdx?_set_of_eq hFree hCompare
  rw [findMountByTarget, findMountByTarget, hSlot]
  cases hFind : t.slotByTarget p with
  | none => rfl
  | some i =>
    obtain ⟨m, hAt, -⟩ := slotByTarget_some hFind
    have hNe : slot ≠ i := by
      rintro rfl
      exact Holds.not_at_of_free hFree m hAt
    simp only [Option.bind_some, mounts_enter, List.getD_eq_getElem?_getD, List.getElem?_set_ne hNe]

theorem resolvePathRoot_enter (h : pathCompare target ['/'] = false) :
    (t.enter slot source target fstype sRoot).resolvePathRoot p = t.resolvePathRoot p := by
  rw [resolvePathRoot, resolvePathRoot, findMountForPath_enter hFree hOut, rootDentry_enter h]

end MountTable

namespace Vfs

variable {s s' : Vfs} {path : List Char}

def walkParent (s : Vfs) : VfsInode → List (List Char) → Option (VfsInode × List Char) :=
  parentWalk s.lookup

theorem vfsLookupParent_eq (s : Vfs) (path : List Char) : s.vfsLookupParent path =
    match s.table.rootDentry with
    | none => none
    | some _ =>
      match s.table.resolvePathRoot path with
      | (none, _) => none
      | (some root, rest) => s.walkParent (.root root) (components rest) := by
  unfold vfsLookupParent
  cases s.table.rootDentry with
  | none => rfl
  | some _ =>
    rcases s.table.resolvePathRoot path with ⟨_ | root, rest⟩
    · rfl
    · change lookupParentLoop s.lookup (skipSlashes rest).length (.root root) (skipSlashes rest) =
        parentWalk s.lookup (.root root) (components rest)
      rw [lookupParentLoop_eq s.lookup le_rfl (relative_skipSlashes rest), components,
        pathComponents_skipSlashes, components]

theorem walkParent_cons (s : Vfs) (curr : VfsInode) (name name' : List Char) (rest : List (List Char)) :
    s.walkParent curr (name :: name' :: rest) =
      (s.lookup curr name).bind fun child => s.walkParent child (name' :: rest) := rfl

structure SameRoute (s s' : Vfs) (path : List Char) : Prop where
  root : s'.table.rootDentry = s.table.rootDentry
  target : s'.table.findMountByTarget path = s.table.findMountByTarget path
  resolve : s'.table.resolvePathRoot path = s.table.resolvePathRoot path

theorem SameRoute.vfsOpen (h : SameRoute s s' path) (hRamfs : s'.ramfs = s.ramfs) :
    s'.vfsOpen path = s.vfsOpen path := by
  have hLookup : s'.lookup = s.lookup := by
    unfold lookup
    rw [hRamfs]
  have hWalk : s'.walkParent = s.walkParent := by
    funext curr names
    induction names generalizing curr with
    | nil => rfl
    | cons name rest ih =>
      cases rest with
      | nil => rfl
      | cons name' rest =>
        simp only [walkParent_cons, hLookup, ih]
  simp only [Vfs.vfsOpen, vfsLookupParent_eq, hWalk, hLookup, h.root, h.target, h.resolve]

/-! ### A new root behind the mounts of the RAM filesystem -/

def outside : Option VfsInode → Option VfsInode
  | some (.ramfs _) => none
  | r => r

theorem lookupChild_mountOver (f : Ramfs) (addr : Nat) (name : List Char) :
    (f.mountOver addr).ramfsLookupChild addr name = some none := by
  simp [Ramfs.mountOver, Ramfs.ramfsAllocInode, Ramfs.ramfsLookupChild, Ramfs.walkFuel,
    Ramfs.findChild]

theorem lookup_mountOver {addr : Nat} (hRamfs : s'.ramfs = s.ramfs.mountOver addr)
    {curr : VfsInode} (hCurr : ∀ a, curr ≠ .ramfs a) (name : List Char) :
    s'.lookup curr name = outside (s.lookup curr name) := by
  cases curr with
  | root dentry =>
    cases dentry with
    | ramfs =>
      have hEmpty := lookupChild_mountOver s.ramfs addr name
      have hRoot : (s.ramfs.mountOver addr).root = addr := rfl
      simp only [lookup, hRamfs, hRoot, hEmpty, Option.join_some, Option.map_none]
      cases (s.ramfs.ramfsLookupChild s.ramfs.root name).join <;> rfl
    | iso9660 node =>
      simp only [lookup]
      cases node.findChild name <;> rfl
    | fat32 => rfl
  | ramfs a => exact absurd rfl (hCurr a)
  | iso9660 node =>
    simp only [lookup]
    split
    case isTrue hDir => cases node.findChild name <;> rfl
    case isFalse hFile => rfl

theorem lookup_ramfs {a : Nat} {name : List Char} {v : VfsInode}
    (h : s.lookup (.ramfs a) name = some v) : ∃ c, v = .ramfs c := by
  obtain ⟨c, -, rfl⟩ := Option.map_eq_some_iff.mp h
  exact ⟨c, rfl⟩

theorem walkParent_ramfs {a : Nat} {names : List (List Char)} {v : VfsInode} {name : List Char}
    (h : s.walkParent (.ramfs a) names = some (v, name)) : ∃ c, v = .ramfs c := by
  induction names generalizing a with
  | nil => cases h
  | cons n rest ih =>
    cases rest with
    | nil =>
      cases h
      exact ⟨a, rfl⟩
    | cons n' rest =>
      obtain ⟨child, hChild, hWalk⟩ := Option.bind_eq_some_iff.mp h
      obtain ⟨c, rfl⟩ := lookup_ramfs hChild
      exact ih hWalk

def outsideParent : Option (VfsInode × List Char) → Option (VfsInode × List Char)
  | some (.ramfs _, _) => none
  | r => r

theorem walkParent_mountOver {addr : Nat} (hRamfs : s'.ramfs = s.ramfs.mountOver addr)
    {curr : VfsInode} (hCurr : ∀ a, curr ≠ .ramfs a) (names : List (List Char)) :
    s'.walkParent curr names = outsideParent (s.walkParent curr names) := by
  induction names generalizing curr with
  | nil => rfl
  | cons name rest ih =>
    cases rest with
    | nil =>
      cases curr with
      | ramfs a => exact absurd rfl (hCurr a)
      | root dentry => rfl
      | iso9660 node => rfl
    | cons name' rest =>
      rw [walkParent_cons, walkParent_cons, lookup_mountOver hRamfs hCurr name]
      cases hChild : s.lookup curr name with
      | none => rfl
      | some child =>
        cases child with
        | root dentry => exact ih fun a ha => by cases ha
        | iso9660 node => exact ih fun a ha => by cases ha
        | ramfs a =>
          change none = outsideParent (s.walkParent (.ramfs a) (name' :: rest))
          cases hWalk : s.walkParent (.ramfs a) (name' :: rest) with
          | none => rfl
          | some found =>
            obtain ⟨c, hc⟩ := walkParent_ramfs hWalk
            obtain ⟨v, n⟩ := found
            obtain rfl : v = .ramfs c := hc
            rfl

def Single (p : List Char) : Prop := '/' ∉ skipSlashes p

theorem Single.drop (h : Single p) (n : Nat) : Single (p.drop n) := by
  induction n generalizing p with
  | zero => exact h
  | succ n ih =>
    cases p with
    | nil => exact h
    | cons c q =>
      refine ih (p := q) ?_
      by_cases hc : c = '/'
      · subst hc
        exact h
      · have hWhole : skipSlashes (c :: q) = c :: q := by simp [skipSlashes, hc]
        rw [Single, hWhole] at h
        exact fun hMem => h (List.mem_cons_of_mem c ((List.dropWhile_suffix _).subset hMem))

theorem Single.components (h : Single p) : components p = [] ∨ ∃ name, components p = [name] := by
  by_cases hNil : skipSlashes p = []
  · left
    rw [Fs.components, ← pathComponents_skipSlashes, hNil]
    rfl
  · right
    have hComp : IsComponent (skipSlashes p) := ⟨hNil, fun x hx hSlash => h (hSlash ▸ hx)⟩
    rw [Fs.components, ← pathComponents_skipSlashes, pathComponents_component hComp]
    exact ⟨_, rfl⟩

theorem Single.resolve {t : MountTable δ} (h : Single p) : Single (t.resolvePathRoot p).2 := by
  unfold MountTable.resolvePathRoot
  split
  case h_1 m len hFind =>
    exact fun hMem => h.drop len ((List.dropWhile_suffix _).subset hMem)
  case h_2 hFind => exact h

theorem SameRoute.vfsLookupParent_mountOver (h : SameRoute s s' path) {addr : Nat}
    (hRamfs : s'.ramfs = s.ramfs.mountOver addr) :
    s'.vfsLookupParent path = outsideParent (s.vfsLookupParent path) := by
  rw [vfsLookupParent_eq, vfsLookupParent_eq, h.root, h.resolve]
  split
  case h_1 hNone => rfl
  case h_2 root hRoot =>
    split
    case h_1 hNone => rfl
    case h_2 r rest hResolve => exact walkParent_mountOver hRamfs (fun a ha => by cases ha) _

theorem not_single_of_ramfs {a : Nat} {name : List Char}
    (h : s.vfsLookupParent path = some (.ramfs a, name)) : ¬ Single path := by
  intro hSingle
  rw [vfsLookupParent_eq] at h
  split at h
  case h_1 hNone => cases h
  case h_2 root hRoot =>
    have hRest := hSingle.resolve (t := s.table)
    split at h
    case h_1 hNone => cases h
    case h_2 r rest hResolve =>
      rw [hResolve] at hRest
      obtain hNil | ⟨n, hOne⟩ := hRest.components
      · rw [hNil] at h
        cases h
      · rw [hOne] at h
        cases h

theorem SameRoute.vfsOpen_mountOver (h : SameRoute s s' path) {addr : Nat}
    (hRamfs : s'.ramfs = s.ramfs.mountOver addr) :
    s'.vfsOpen path = outside (s.vfsOpen path) := by
  unfold Vfs.vfsOpen
  rw [h.root, h.target, h.vfsLookupParent_mountOver hRamfs]
  split
  case isTrue hEmpty => rfl
  split
  case isTrue hRoot => cases s.table.rootDentry <;> rfl
  cases s.table.findMountByTarget path with
  | some m => rfl
  | none =>
    cases hParent : s.vfsLookupParent path with
    | none =>
      dsimp only [outsideParent]
      split
      case isTrue hPlain => rfl
      case isFalse hName =>
        cases s.table.rootDentry with
        | none => rfl
        | some root => exact lookup_mountOver hRamfs (fun a ha => by cases ha) _
    | some found =>
      obtain ⟨parent, name⟩ := found
      cases parent with
      | root dentry => exact lookup_mountOver hRamfs (fun a ha => by cases ha) name
      | iso9660 node => exact lookup_mountOver hRamfs (fun a ha => by cases ha) name
      | ramfs a =>
        have hMany : '/' ∈ skipSlashes path := not_not.mp (not_single_of_ramfs hParent)
        dsimp only [outsideParent]
        rw [if_pos (Or.inl hMany)]
        cases hLookup : s.lookup (.ramfs a) name with
        | none => rfl
        | some v =>
          obtain ⟨c, rfl⟩ := lookup_ramfs hLookup
          rfl

/-! ### Mounting -/

theorem mountFs_fst (s : Vfs) (fs : FsType) (addr : Nat) (tree : Option IsoNode) :
    (s.mountFs fs addr tree).1 =
      { s with ramfs := if fs = .ramfs then s.ramfs.mountOver addr else s.ramfs } := by
  cases fs <;> rfl

theorem vfsMount_cases {source fstype : List Char} {addr : Nat} {tree : Option IsoNode}
    (h : (s.vfsMount source target fstype addr tree).2 = 0) :
    (∃ m, s.table.findMountByTarget target = some m) ∧
        (s.vfsMount source target fstype addr tree).1 = s ∨
      ∃ fs sRoot slot, s.findFilesystem fstype = some fs ∧
        s.table.findMountByTarget target = none ∧ s.table.mounts[slot]? = some none ∧
        (s.vfsMount source target fstype addr tree).1 =
          { s with
            table := s.table.enter slot source target fstype sRoot
            ramfs := if fs = .ramfs then s.ramfs.mountOver addr else s.ramfs } := by
  unfold Vfs.vfsMount at h ⊢
  cases hFs : s.findFilesystem fstype with
  | none => simp [hFs, eNoDev] at h
  | some fs =>
    simp only [hFs] at h ⊢
    cases hFind : s.table.findMountByTarget target with
    | some m =>
      refine Or.inl ⟨⟨m, rfl⟩, ?_⟩
      dsimp only
      split <;> rfl
    | none =>
      simp only [hFind] at h ⊢
      split at h
      case isTrue hFull => simp [eNoMem] at h
      case isFalse hRoom =>
        rw [if_neg hRoom]
        have hDriver := mountFs_fst s fs addr tree
        cases hMount : s.mountFs fs addr tree with
        | mk s₁ sb =>
          rw [hMount] at hDriver
          obtain rfl : s₁ = _ := hDriver
          simp only [hMount] at h ⊢
          cases sb with
          | none => simp [eIo] at h
          | some sRoot =>
            dsimp only at h ⊢
            split at h
            case h_1 hNoSlot => simp [eNoMem] at h
            case h_2 slot hSlot =>
              obtain ⟨hLt, hFree, -⟩ := List.findIdx?_eq_some_iff_getElem.mp hSlot
              refine Or.inr ⟨fs, sRoot, slot, rfl, trivial, ?_, ?_⟩
              · rw [List.getElem?_eq_getElem hLt]
                simpa using hFree
              · rfl

theorem findFilesystem_name {name : List Char} {fs : FsType} (h : s.findFilesystem name = some fs) :
    fs.name = name := by
  simpa using List.find?_some h

theorem inode_of_findChild {f : Ramfs} {name : List Char} {fuel a : Nat} {head : Option Nat}
    (h : f.findChild name fuel head = some (some a)) : ∃ i, f.inodes a = some i := by
  induction fuel generalizing head with
  | zero => cases h
  | succ fuel ih =>
    cases head with
    | none => cases h
    | some child =>
      rw [Ramfs.findChild] at h
      split at h
      case h_1 hGone => cases h
      case h_2 i hi =>
        split at h
        case isTrue hFound =>
          cases h
          exact ⟨i, hi⟩
        case isFalse hOther => exact ih h

theorem inode_of_lookupChild {f : Ramfs} {name : List Char} {dir a : Nat}
    (h : (f.ramfsLookupChild dir name).join = some a) : ∃ i, f.inodes a = some i := by
  have hFound := Option.join_eq_some_iff.mp h
  unfold Ramfs.ramfsLookupChild at hFound
  split at hFound
  case h_1 hGone => cases hFound
  case h_2 d hd =>
    split at hFound
    case isTrue hDir => exact inode_of_findChild hFound
    case isFalse hFile => cases hFound

theorem inode_of_lookup {v : VfsInode} {name : List Char} {a : Nat}
    (h : s.lookup v name = some (.ramfs a)) : ∃ i, s.ramfs.inodes a = some i := by
  unfold lookup at h
  split at h
  case h_1 =>
    obtain ⟨c, hc, hEq⟩ := Option.map_eq_some_iff.mp h
    cases hEq
    exact inode_of_lookupChild hc
  case h_2 node =>
    obtain ⟨c, -, hEq⟩ := Option.map_eq_some_iff.mp h
    cases hEq
  case h_3 => cases h
  case h_4 addr =>
    obtain ⟨c, hc, hEq⟩ := Option.map_eq_some_iff.mp h
    cases hEq
    exact inode_of_lookupChild hc
  case h_5 node =>
    split at h
    case isTrue hDir =>
      obtain ⟨c, -, hEq⟩ := Option.map_eq_some_iff.mp h
      cases hEq
    case isFalse hFile => cases h

theorem inode_of_vfsOpen {a : Nat} (h : s.vfsOpen path = some (.ramfs a)) :
    ∃ i, s.ramfs.inodes a = some i := by
  unfold Vfs.vfsOpen at h
  split at h
  case isTrue hEmpty => cases h
  split at h
  case isTrue hRoot =>
    obtain ⟨r, -, hEq⟩ := Option.map_eq_some_iff.mp h
    cases hEq
  split at h
  case h_1 m hMounted => cases h
  split at h
  case h_1 parent name hParent => exact inode_of_lookup h
  case h_2 hNone =>
    dsimp only at h
    split at h
    case isTrue hPlain => cases h
    case isFalse hName =>
      obtain ⟨root, -, hLookup⟩ := Option.bind_eq_some_iff.mp h
      exact inode_of_lookup hLookup

theorem seen_ramfs {a : Nat} (h : s.vfsOpen path = some (.ramfs a)) : s.seen path ≠ none := by
  obtain ⟨i, hi⟩ := inode_of_vfsOpen h
  simp [seen, h, entry, hi]

theorem sameRoute_enter {slot : Nat} {source fstype : List Char} {sRoot : RootDentry} {ramfs : Ramfs}
    (hFree : s.table.mounts[slot]? = some none) (hFits : pathComponents (pathCopy target 64) = pathComponents target)
    (hOut : ¬ AtOrBelow target path) :
    SameRoute s { s with table := s.table.enter slot source target fstype sRoot, ramfs } path := by
  have hStored : ¬ AtOrBelow (pathCopy target 64) path := by
    rw [AtOrBelow, hFits]
    exact hOut
  have hRoot : pathCompare target ['/'] = false := by
    rw [← Bool.not_eq_true]
    intro hSame
    apply hOut
    rw [AtOrBelow, pathComponents_of_compare hSame]
    exact List.nil_prefix
  exact ⟨MountTable.rootDentry_enter hRoot, MountTable.findMountByTarget_enter hFree hStored,
    MountTable.resolvePathRoot_enter hFree hStored hRoot⟩

theorem SameRoute.seen_mountOver (h : SameRoute s s' path) {addr : Nat}
    (hRamfs : s'.ramfs = s.ramfs.mountOver addr) :
    s'.seen path = s.seen path ↔ ∀ a, s.vfsOpen path ≠ some (.ramfs a) := by
  have hOpen := h.vfsOpen_mountOver hRamfs
  constructor
  · intro hSeen a hInside
    have hBefore := seen_ramfs hInside
    rw [← hSeen, seen, hOpen, hInside] at hBefore
    exact hBefore rfl
  · intro hNowhere
    rw [seen, hOpen, seen]
    cases hInode : s.vfsOpen path with
    | none => rfl
    | some v =>
      cases v with
      | root dentry => rfl
      | iso9660 node =>
        cases node
        rfl
      | ramfs a => exact absurd hInode (hNowhere a)

theorem SameRoute.seen (h : SameRoute s s' path) (hRamfs : s'.ramfs = s.ramfs) :
    s'.seen path = s.seen path := by
  have hEntry : s'.entry = s.entry := by
    funext v
    cases v with
    | root dentry => rfl
    | iso9660 node =>
      cases node
      rfl
    | ramfs a => rw [entry, entry, hRamfs]
  rw [Vfs.seen, Vfs.seen, h.vfsOpen hRamfs, hEntry]

/-- A mount whose target is stored with all its components shows the same as before at every path
outside it, exactly when it does not put a new root under a RAM filesystem that such a path led
into. -/
theorem mount_isolation_iff (s : Vfs) (source target fstype : List Char) (addr : Nat)
    (tree : Option IsoNode) (hOk : (s.vfsMount source target fstype addr tree).2 = 0)
    (hFits : pathComponents (pathCopy target 64) = pathComponents target) :
    (∀ path, ¬ AtOrBelow target path →
        (s.vfsMount source target fstype addr tree).1.seen path = s.seen path) ↔
      (fstype = FsType.ramfs.name → s.table.findMountByTarget target = none →
        ∀ path, ¬ AtOrBelow target path → ∀ a, s.vfsOpen path ≠ some (.ramfs a)) := by
  obtain ⟨⟨m, hMounted⟩, hSame⟩ | ⟨fs, sRoot, slot, hFs, hNew, hFree, hAfter⟩ := vfsMount_cases hOk
  · rw [hSame]
    refine iff_of_true (fun _ _ => rfl) ?_
    intro _ hNone
    rw [hMounted] at hNone
    cases hNone
  · rw [hAfter]
    have hName := findFilesystem_name hFs
    by_cases hRamfs : fs = .ramfs
    · subst hRamfs
      rw [if_pos rfl]
      constructor
      · intro hSeen _ _ path hOut
        exact ((sameRoute_enter hFree hFits hOut).seen_mountOver rfl).mp (hSeen path hOut)
      · intro hNowhere path hOut
        exact ((sameRoute_enter hFree hFits hOut).seen_mountOver rfl).mpr
          (hNowhere hName.symm hNew path hOut)
    · have hOther : fstype ≠ FsType.ramfs.name := by
        rintro rfl
        cases fs with
        | ramfs => exact hRamfs rfl
        | fat32 => exact absurd hName (by decide)
        | iso9660 => exact absurd hName (by decide)
      refine iff_of_true ?_ fun hSame => absurd hSame hOther
      intro path hOut
      exact (sameRoute_enter hFree hFits hOut).seen (if_neg hRamfs)

def oneFile : Vfs where
  fileSystems := [.iso9660, .ramfs, .fat32]
  table := vfsInit.enter 0 [] ['/'] FsType.ramfs.name .ramfs
  ramfs := (((ramfsMount 0).vfsCreate ['/', 'a'] 0 1).map Prod.fst).getD (ramfsMount 0)

theorem mount_isolation_iso :
    (oneFile.vfsMount ['d'] ['/', 'm'] FsType.iso9660.name 2 (some (.mk [] 0 0 0 true []))).2 = 0 ∧
      pathComponents (pathCopy ['/', 'm'] 64) = pathComponents ['/', 'm'] ∧
      ∀ path, ¬ AtOrBelow ['/', 'm'] path →
        (oneFile.vfsMount ['d'] ['/', 'm'] FsType.iso9660.name 2 (some (.mk [] 0 0 0 true []))).1.seen path =
          oneFile.seen path := by
  have hOk : (oneFile.vfsMount ['d'] ['/', 'm'] FsType.iso9660.name 2
      (some (.mk [] 0 0 0 true []))).2 = 0 := by decide +kernel
  have hFits : pathComponents (pathCopy ['/', 'm'] 64) = pathComponents ['/', 'm'] := by decide +kernel
  refine ⟨hOk, hFits, (mount_isolation_iff _ _ _ _ _ _ hOk hFits).mpr ?_⟩
  intro hSame
  exact absurd hSame (by decide)

/-- A second RAM filesystem is mounted on `/m`, and `/a` is gone. And a directory appears where a
target of 64 characters is cut. -/
theorem second_ramfs_hides_first :
    ((oneFile.vfsMount [] ['/', 'm'] FsType.ramfs.name 2 none).2 = 0 ∧
      ¬ AtOrBelow ['/', 'm'] ['/', 'a'] ∧ oneFile.seen ['/', 'a'] = some (.file []) ∧
      (oneFile.vfsMount [] ['/', 'm'] FsType.ramfs.name 2 none).1.seen ['/', 'a'] = none) ∧
    ((oneFile.vfsMount [] ('/' :: List.replicate 63 'b') FsType.fat32.name 2 none).2 = 0 ∧
      ¬ AtOrBelow ('/' :: List.replicate 63 'b') ('/' :: List.replicate 62 'b') ∧
      oneFile.seen ('/' :: List.replicate 62 'b') = none ∧
      (oneFile.vfsMount [] ('/' :: List.replicate 63 'b') FsType.fat32.name 2 none).1.seen
        ('/' :: List.replicate 62 'b') = some .dir) := by
  refine ⟨⟨?_, ?_, rfl, rfl⟩, ?_, ?_, rfl, rfl⟩
  · decide +kernel
  · unfold AtOrBelow
    decide +kernel
  · decide +kernel
  · unfold AtOrBelow
    decide +kernel

end Vfs

end UnixOS.Fs
