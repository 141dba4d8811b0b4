import UnixOS.Fs.MountIsolation
import UnixOS.Fs.RamfsTreeOps

/-! # Three walks over one tree

`vfs_open`, `ramfs_lookup_inode_path` and `ramfs_lookup_path_info` each read a path on their own. They
come to the same inode as long as the path is not empty, starts with at most one slash and has
no component that overflows a name buffer.
-/

namespace UnixOS.Fs

open RootedTree SinglyLinked SiblingLists

structure PathInfo where
  outSize : Nat
  outIsDir : Bool
  outData : Option Nat

namespace Ramfs

variable (s : Ramfs)

/-- The loop of both lookups of `kernel/fs/ramfs.c`. A component that is too long for the buffer goes
on as the next one. Each round reads a character. -/
def lookupLoop : Nat → Nat → List Char → Option (Option Nat)
  | 0, current, p => if p = [] then some (some current) else none
  | fuel + 1, current, p =>
    if p = [] then some (some current)
    else do
      let component := (firstName p).take nameMax
      let rest := skipSlashes (p.drop component.length)
      match ← s.ramfsLookupChild current component with
      | none => return none
      | some child => lookupLoop fuel child rest

def ramfsLookupInodePath (path : List Char) : Option (Option Nat) :=
  let p := skipSlashes path
  if p = [] then some (some s.root) else s.lookupLoop p.length s.root p

def skipSlash : List Char → List Char
  | '/' :: p => p
  | p => p

def ramfsLookupPathInfo (path : List Char) : Option (Option PathInfo) :=
  let p := skipSlash path
  if p = [] then some (some ⟨0, true, none⟩)
  else do
    match ← s.lookupLoop p.length s.root p with
    | none => return none
    | some current =>
      let inode ← s.inodes current
      return some ⟨inode.size, sIsDir inode.mode, some current⟩

def infoInode (info : PathInfo) : Nat := info.outData.getD s.root

end Ramfs

namespace Vfs

variable (s : Vfs)

/-- The `ramfs_inode` behind an inode of the VFS. -/
def ramfsInode : VfsInode → Option Nat
  | .root .ramfs => some s.ramfs.root
  | .ramfs addr => some addr
  | _ => none

/-- The RAM filesystem is mounted on `/`, and nothing else is mounted. -/
def OnlyRamfs : Prop := ∃ slot < maxMounts, ∃ source fstype,
  s.table = vfsInit.enter slot source ['/'] fstype .ramfs

def WalkersAgree (path : List Char) : Prop := ∃ r,
  (s.vfsOpen path).bind s.ramfsInode = r ∧
    s.ramfs.ramfsLookupInodePath path = some r ∧
    (s.ramfs.ramfsLookupPathInfo path).map (Option.map s.ramfs.infoInode) = some r

end Vfs

/-! ### The names that the walks read -/

/-- The components that the loop of `kernel/fs/ramfs.c` looks up. -/
def ramfsTokens : Nat → List Char → List (List Char)
  | 0, _ => []
  | fuel + 1, p =>
    if p = [] then []
    else
      let component := (firstName p).take nameMax
      component :: ramfsTokens fuel (skipSlashes (p.drop component.length))

variable {p : List Char} {fuel : Nat}

theorem length_next_lt (hp : p ≠ []) :
    (skipSlashes (p.drop ((firstName p).take nameMax).length)).length < p.length := by
  have hSkip : ∀ q : List Char, (skipSlashes q).length ≤ q.length := fun q =>
    (List.dropWhile_suffix _).length_le
  by_cases hRel : Relative p
  · have hName := List.length_pos_iff.mpr (isComponent_firstName hp hRel).1
    have hPos := List.length_pos_iff.mpr hp
    have hRest := hSkip (p.drop ((firstName p).take nameMax).length)
    simp only [List.length_drop, List.length_take, nameMax] at hRest ⊢
    omega
  · cases p with
    | nil => exact absurd rfl hp
    | cons c p =>
      obtain rfl : c = '/' := Option.some.inj (not_not.mp hRel)
      have hRest := hSkip p
      have hDrop : skipSlashes (('/' :: p).drop ((firstName ('/' :: p)).take nameMax).length) =
          skipSlashes p := rfl
      rw [hDrop, List.length_cons]
      omega

theorem drop_firstName (hFits : (firstName p).length ≤ nameMax) :
    (firstName p).take nameMax = firstName p ∧
      p.drop ((firstName p).take nameMax).length = afterName p := by
  have hTake : (firstName p).take nameMax = firstName p := List.take_of_length_le hFits
  refine ⟨hTake, ?_⟩
  rw [hTake]
  nth_rewrite 2 [← firstName_append_afterName p]
  exact List.drop_left

theorem ramfsTokens_eq (hFuel : p.length ≤ fuel) (h : Relative p)
    (hFits : ∀ c ∈ pathComponents p, c.length ≤ nameMax) : ramfsTokens fuel p = pathComponents p := by
  induction fuel generalizing p with
  | zero =>
    obtain rfl := List.length_eq_zero_iff.mp (Nat.le_zero.mp hFuel)
    rfl
  | succ fuel ih =>
    rw [ramfsTokens]
    split
    case isTrue hNil =>
      subst hNil
      rfl
    case isFalse hp =>
      have hUnfold := pathComponents_unfold hp h
      rw [hUnfold] at hFits ⊢
      obtain ⟨hTake, hDrop⟩ := drop_firstName (hFits _ List.mem_cons_self)
      have hLess := length_rest_lt hp h
      dsimp only
      rw [hDrop, hTake, ih (by omega) (relative_skipSlashes _)]
      exact fun c hc => hFits c (List.mem_cons_of_mem _ hc)

theorem long_next (hp : p ≠ []) (h : Relative p) (hLong : nameMax < (firstName p).length) :
    skipSlashes (p.drop ((firstName p).take nameMax).length) = p.drop nameMax ∧
      (pathComponents (p.drop nameMax)).length = (pathComponents p).length := by
  have hName := isComponent_firstName hp h
  have hCut : IsComponent ((firstName p).drop nameMax) := by
    refine ⟨?_, fun x hx => hName.2 x (List.mem_of_mem_drop hx)⟩
    rw [ne_eq, List.drop_eq_nil_iff]
    omega
  have hSplit : p.drop nameMax = (firstName p).drop nameMax ++ afterName p := by
    nth_rewrite 1 [← firstName_append_afterName p]
    exact List.drop_append_of_le_length (by omega)
  have hRel : Relative (p.drop nameMax) := by
    rw [hSplit, Relative]
    obtain ⟨c, q, hCons⟩ := List.exists_cons_of_ne_nil hCut.1
    have hc : c ≠ '/' := hCut.2 c (by rw [hCons]; exact List.mem_cons_self)
    rw [hCons]
    exact fun hHead => hc (Option.some.inj hHead)
  have hLength : ((firstName p).take nameMax).length = nameMax := by
    rw [List.length_take]
    omega
  refine ⟨by rw [hLength, skipSlashes_of_relative hRel], ?_⟩
  rw [hSplit, pathComponents_component_append hCut (atBoundary_afterName p),
    pathComponents_unfold hp h, pathComponents_skipSlashes]
  rfl

theorem length_le_ramfsTokens (hFuel : p.length ≤ fuel) (h : Relative p) :
    (pathComponents p).length ≤ (ramfsTokens fuel p).length ∧
      ((∃ c ∈ pathComponents p, nameMax < c.length) →
        (pathComponents p).length < (ramfsTokens fuel p).length) := by
  induction fuel generalizing p with
  | zero =>
    obtain rfl := List.length_eq_zero_iff.mp (Nat.le_zero.mp hFuel)
    simp
  | succ fuel ih =>
    rw [ramfsTokens]
    split
    case isTrue hNil =>
      subst hNil
      simp
    case isFalse hp =>
      have hUnfold := pathComponents_unfold hp h
      have hLess := length_next_lt hp
      dsimp only
      by_cases hFits : (firstName p).length ≤ nameMax
      · obtain ⟨hTake, hDrop⟩ := drop_firstName hFits
        obtain ⟨hLe, hLt⟩ := ih (p := skipSlashes (afterName p)) (by rw [hDrop] at hLess; omega)
          (relative_skipSlashes _)
        rw [hDrop, hTake, hUnfold, List.length_cons, List.length_cons]
        refine ⟨Nat.succ_le_succ hLe, ?_⟩
        rintro ⟨c, hc, hLong⟩
        obtain rfl | hc := List.mem_cons.mp hc
        · omega
        · exact Nat.succ_lt_succ (hLt ⟨c, hc, hLong⟩)
      · obtain ⟨hNext, hSame⟩ := long_next hp h (Nat.lt_of_not_le hFits)
        have hRel : Relative (p.drop nameMax) := by
          rw [← hNext]
          exact relative_skipSlashes _
        rw [hNext] at hLess ⊢
        obtain ⟨hLe, -⟩ := ih (p := p.drop nameMax) (by omega) hRel
        rw [List.length_cons]
        exact ⟨by omega, fun _ => by omega⟩

/-! ### The walks over those names -/

namespace Ramfs

variable {s : Ramfs} {kids : Nat → List Nat} {a : Nat}

def resolve (s : Ramfs) : Nat → List (List Char) → Option Nat
  | a, [] => some a
  | a, name :: names => (s.ramfsLookupChild a name).join.bind fun c => s.resolve c names

theorem TreeInv.lookupLoop (h : TreeInv s kids) (ha : s.view.live a) (hFuel : p.length ≤ fuel) :
    s.lookupLoop fuel a p = some (s.resolve a (ramfsTokens fuel p)) := by
  induction fuel generalizing a p with
  | zero =>
    obtain rfl := List.length_eq_zero_iff.mp (Nat.le_zero.mp hFuel)
    rfl
  | succ fuel ih =>
    rw [Ramfs.lookupLoop, ramfsTokens]
    split
    case isTrue hNil => rfl
    case isFalse hp =>
      have hLess := length_next_lt hp
      obtain ⟨r, hLookup, hFound, -⟩ := h.lookup ha ((firstName p).take nameMax)
      simp only [resolve, hLookup, Option.bind_eq_bind, Option.bind_some, Option.join_some]
      cases r with
      | none => rfl
      | some c => exact ih (h.live_of_mem (hFound c rfl).1) (by omega)

theorem TreeInv.resolve_live (h : TreeInv s kids) (ha : s.view.live a) {names : List (List Char)} {b : Nat}
    (hResolve : s.resolve a names = some b) : s.view.live b := by
  induction names generalizing a with
  | nil => exact Option.some.inj hResolve ▸ ha
  | cons name names ih =>
    obtain ⟨c, hc, hRest⟩ := Option.bind_eq_some_iff.mp hResolve
    obtain ⟨r, hLookup, hFound, -⟩ := h.lookup ha name
    rw [hLookup, Option.join_some] at hc
    exact ih (h.live_of_mem (hFound c hc).1) hRest

theorem TreeInv.ramfsLookupInodePath (h : TreeInv s kids) (path : List Char) :
    s.ramfsLookupInodePath path =
      some (s.resolve s.root (ramfsTokens (skipSlashes path).length (skipSlashes path))) := by
  unfold Ramfs.ramfsLookupInodePath
  dsimp only
  split
  case isTrue hNil =>
    rw [hNil]
    rfl
  case isFalse hp => exact h.lookupLoop h.rooted.root_live le_rfl

theorem TreeInv.ramfsLookupPathInfo (h : TreeInv s kids) (path : List Char) :
    (s.ramfsLookupPathInfo path).map (Option.map s.infoInode) =
      some (s.resolve s.root (ramfsTokens (skipSlash path).length (skipSlash path))) := by
  unfold Ramfs.ramfsLookupPathInfo
  dsimp only
  split
  case isTrue hNil =>
    rw [hNil]
    rfl
  case isFalse hp =>
    rw [h.lookupLoop h.rooted.root_live le_rfl]
    cases hResolve : s.resolve s.root (ramfsTokens (skipSlash path).length (skipSlash path)) with
    | none => rfl
    | some b =>
      obtain ⟨i, hi⟩ := live_iff.mp (h.resolve_live h.rooted.root_live hResolve)
      simp only [Option.bind_eq_bind, Option.bind_some, hi]
      rfl

end Ramfs

namespace Vfs

variable {s : Vfs} {path : List Char}

theorem lookup_ramfsInode {v : VfsInode} {a : Nat} (h : s.ramfsInode v = some a) (name : List Char) :
    s.lookup v name = (s.ramfs.ramfsLookupChild a name).join.map .ramfs := by
  cases v with
  | root dentry =>
    cases dentry with
    | ramfs =>
      obtain rfl := Option.some.inj h
      rfl
    | iso9660 node => cases h
    | fat32 => cases h
  | ramfs addr =>
    obtain rfl := Option.some.inj h
    rfl
  | iso9660 node => cases h

theorem walk_eq_resolve {v : VfsInode} {a : Nat} (h : s.ramfsInode v = some a)
    {names : List (List Char)} (hNames : names ≠ []) :
    ((s.walkParent v names).bind fun found => s.lookup found.1 found.2).bind s.ramfsInode =
      s.ramfs.resolve a names := by
  induction names generalizing v a with
  | nil => exact absurd rfl hNames
  | cons name rest ih =>
    cases rest with
    | nil =>
      have hOne : s.walkParent v [name] = some (v, name) := rfl
      rw [hOne, Option.bind_some, lookup_ramfsInode h, Ramfs.resolve]
      cases (s.ramfs.ramfsLookupChild a name).join with
      | none => rfl
      | some c => rfl
    | cons name' rest =>
      rw [walkParent_cons, lookup_ramfsInode h, Ramfs.resolve]
      cases (s.ramfs.ramfsLookupChild a name).join with
      | none => rfl
      | some c => exact ih (v := .ramfs c) rfl (List.cons_ne_nil name' rest)

/-! ### The only mount -/

theorem foldl_replicate_none {α β : Type*} {f : β → Option α → β} (hIdle : ∀ b, f b none = b) (n : Nat)
    (b : β) : (List.replicate n none).foldl f b = b := by
  induction n with
  | zero => rfl
  | succ n ih => rw [List.replicate_succ, List.foldl_cons, hIdle, ih]

theorem foldl_replicate_set {α β : Type*} {f : β → Option α → β} {n i : Nat} {x : Option α}
    (hi : i < n) (hIdle : ∀ b, f b none = b) (b : β) :
    ((List.replicate n none).set i x).foldl f b = f b x := by
  induction n generalizing i b with
  | zero => exact absurd hi (Nat.not_lt_zero i)
  | succ n ih =>
    cases i with
    | zero =>
      rw [List.replicate_succ, List.set_cons_zero, List.foldl_cons]
      exact foldl_replicate_none hIdle n _
    | succ i =>
      rw [List.replicate_succ, List.set_cons_succ, List.foldl_cons, hIdle]
      exact ih (Nat.lt_of_succ_lt_succ hi) b

theorem findIdx?_replicate_set {α : Type*} {f : Option α → Bool} {n i : Nat} {x : Option α}
    (hi : i < n) (hIdle : f none = false) :
    ((List.replicate n none).set i x).findIdx? f = if f x then some i else none := by
  induction n generalizing i with
  | zero => exact absurd hi (Nat.not_lt_zero i)
  | succ n ih =>
    cases i with
    | zero => simp [List.replicate_succ, List.findIdx?_cons, hIdle]
    | succ i =>
      have hTail := ih (Nat.lt_of_succ_lt_succ hi)
      simp only [List.replicate_succ, List.set_cons_succ, List.findIdx?_cons, hIdle, hTail,
        Bool.false_eq_true, if_false]
      split <;> rfl

theorem OnlyRamfs.rootDentry (h : s.OnlyRamfs) : s.table.rootDentry = some .ramfs := by
  obtain ⟨slot, -, source, fstype, hTable⟩ := h
  rw [hTable]
  rfl

theorem OnlyRamfs.findMountByTarget (h : s.OnlyRamfs) (path : List Char) :
    (s.table.findMountByTarget path).map VfsMount.mntRoot =
      if pathCompare ['/'] path then some .ramfs else none := by
  obtain ⟨slot, hLt, source, fstype, hTable⟩ := h
  rw [hTable, MountTable.findMountByTarget, MountTable.slotByTarget, MountTable.mounts_enter, vfsInit,
    findIdx?_replicate_set hLt rfl]
  have hStored : pathCopy ['/'] 64 = ['/'] := rfl
  rw [hStored, Option.any_some]
  split
  case isTrue hSame =>
    simp [List.getD_eq_getElem?_getD, hLt]
  case isFalse hOther => rfl

theorem OnlyRamfs.resolvePathRoot (h : s.OnlyRamfs) (path : List Char) :
    ∃ rest, s.table.resolvePathRoot path = (some .ramfs, rest) ∧ components rest = components path := by
  have hRoot := h.rootDentry
  obtain ⟨slot, hLt, source, fstype, hTable⟩ := h
  have hFind : s.table.findMountForPath path = MountTable.better path (none, 0)
      (some ⟨.ramfs, pathCopy source 64, ['/'], pathCopy fstype 32⟩) := by
    rw [hTable, MountTable.findMountForPath, MountTable.mounts_enter, vfsInit,
      foldl_replicate_set hLt fun _ => rfl]
    rfl
  rw [MountTable.resolvePathRoot, hFind, hRoot]
  simp only [MountTable.better, pathHasMountPrefix]
  by_cases hSlash : ['/'] <+: path
  · obtain ⟨q, rfl⟩ := hSlash
    refine ⟨skipSlashes q, ?_, ?_⟩
    · simp [skipSlashes]
    · rw [components, components, pathComponents_skipSlashes, List.singleton_append, pathComponents_slash]
  · exact ⟨path, by simp [hSlash], rfl⟩

theorem OnlyRamfs.vfsLookupParent (h : s.OnlyRamfs) (path : List Char) :
    s.vfsLookupParent path = s.walkParent (.root .ramfs) (components path) := by
  obtain ⟨rest, hResolve, hNames⟩ := h.resolvePathRoot path
  simp only [vfsLookupParent_eq, h.rootDentry, hResolve, hNames]

theorem components_eq_nil : components path = [] ↔ pathComponents path = [] := by
  rw [components, List.map_eq_nil_iff]

theorem compare_root_iff (hp : path ≠ []) : pathCompare ['/'] path = true ↔ pathComponents path = [] := by
  constructor
  · intro hSame
    exact (pathComponents_of_compare hSame).symm
  · intro hNil
    have hAll : ∀ x ∈ path, x = '/' := by
      have hSkip : skipSlashes path = [] := by
        rwa [← pathComponents_eq_nil (relative_skipSlashes path), pathComponents_skipSlashes]
      simpa [skipSlashes] using List.dropWhile_eq_nil_iff.mp hSkip
    have hTrim := trimSlashes_slashes hAll hp
    rw [pathCompare, hTrim]
    rfl

theorem OnlyRamfs.vfsOpen (h : s.OnlyRamfs) (hp : path ≠ []) :
    (s.vfsOpen path).bind s.ramfsInode = s.ramfs.resolve s.ramfs.root (components path) := by
  have hMounted := h.findMountByTarget path
  unfold Vfs.vfsOpen
  rw [if_neg hp]
  split
  case isTrue hSlash =>
    subst hSlash
    rw [h.rootDentry]
    rfl
  case isFalse hOther =>
    by_cases hRoot : pathComponents path = []
    · rw [if_pos ((compare_root_iff hp).mpr hRoot)] at hMounted
      obtain ⟨m, hm, hDentry⟩ := Option.map_eq_some_iff.mp hMounted
      rw [hm]
      dsimp only
      rw [hDentry, components_eq_nil.mpr hRoot]
      rfl
    · rw [if_neg fun hSame => hRoot ((compare_root_iff hp).mp hSame), Option.map_eq_none_iff] at hMounted
      have hNames : components path ≠ [] := fun hNil => hRoot (components_eq_nil.mp hNil)
      have hWalk := walk_eq_resolve (s := s) (v := .root .ramfs) rfl hNames
      rw [hMounted, h.vfsLookupParent, ← hWalk]
      dsimp only
      cases hParent : s.walkParent (.root .ramfs) (components path) with
      | some found => rfl
      | none =>
        -- with a single name the walk has a result, so the attempt from the root is not made
        have hMany : '/' ∈ skipSlashes path := by
          by_contra hSingle
          obtain hNil | ⟨name, hOne⟩ := Single.components hSingle
          · exact hNames hNil
          · rw [hOne] at hParent
            cases hParent
        dsimp only
        rw [if_pos (Or.inl hMany)]
        rfl

end Vfs

/-! ### A tree with one path -/

/-- Directories one below the other, with the names `ns`. -/
def chain (ns : List (List Char)) : Ramfs where
  inodes a :=
    if a ≤ ns.length then some {
      ino := a + 1
      mode := sIfDir ||| 0o755
      size := 0
      data := none
      dataCapacity := 0
      parent := if a = 0 then none else some (a - 1)
      children := if a < ns.length then some (a + 1) else none
      sibling := none
      name := if a = 0 then [] else ns.getD (a - 1) [] }
    else none
  root := 0
  nextIno := ns.length + 2
  inodeCount := ns.length + 1

def chainKids (ns : List (List Char)) (a : Nat) : List Nat := if a < ns.length then [a + 1] else []

variable {ns : List (List Char)} {a b : Nat}

theorem mem_chainKids : b ∈ chainKids ns a ↔ a < ns.length ∧ b = a + 1 := by
  unfold chainKids
  split
  case isTrue hLt => simp [hLt]
  case isFalse hGe => simp [hGe]

theorem live_chain : (chain ns).view.live a ↔ a ≤ ns.length := by
  simp [Ramfs.view, chain]

theorem reach_chain (h : a ≤ ns.length) : Reach (chainKids ns) 0 a := by
  induction a with
  | zero => exact .refl
  | succ a ih => exact (ih (by omega)).tail (mem_chainKids.mpr ⟨h, rfl⟩)

theorem treeInv_chain (hNames : ∀ n ∈ ns, n ≠ []) : (chain ns).TreeInv (chainKids ns) where
  rooted := {
    root_live := live_chain.mpr (Nat.zero_le _)
    edge_live := by
      intro a b hb
      obtain ⟨hLt, rfl⟩ := mem_chainKids.mp hb
      exact ⟨live_chain.mpr (by omega), live_chain.mpr hLt⟩
    nodup := by
      intro a
      unfold chainKids
      split <;> simp
    parent_unique := by
      intro a a' b hb hb'
      have hEq := (mem_chainKids.mp hb).2
      have hEq' := (mem_chainKids.mp hb').2
      omega
    root_free := by
      intro a h
      exact absurd (mem_chainKids.mp h).2 (Nat.succ_ne_zero a).symm
    reach := fun hb => reach_chain (live_chain.mp hb) }
  links := by
    intro a
    by_cases hLt : a < ns.length
    · have hLe : a ≤ ns.length := hLt.le
      have hSucc : a + 1 ≤ ns.length := hLt
      simp [chainKids, Chain, Ramfs.view, chain, hLt, hLe, hSucc]
    · simp only [chainKids, Chain, Ramfs.view, chain, hLt, if_false]
      split <;> rfl
  dirs := by
    intro a hKids
    have hLt : a < ns.length := by
      by_contra hGe
      simp [chainKids, hGe] at hKids
    exact ⟨sIfDir ||| 0o755, by simp [Ramfs.view, chain, hLt.le], by decide⟩
  parent := by
    intro a b hb
    obtain ⟨hLt, rfl⟩ := mem_chainKids.mp hb
    have hSucc : a + 1 ≤ ns.length := hLt
    simp [Ramfs.view, chain, hSucc]
  named := by
    intro a b hb
    obtain ⟨hLt, rfl⟩ := mem_chainKids.mp hb
    have hSucc : a + 1 ≤ ns.length := hLt
    have hName := hNames (ns[a]) (List.getElem_mem hLt)
    simpa [Ramfs.view, chain, hSucc, List.getD_eq_getElem?_getD, hLt] using hName
  distinct := by
    intro a b c hb hc _
    rw [(mem_chainKids.mp hb).2, (mem_chainKids.mp hc).2]
  count := by
    refine ⟨Finset.range (ns.length + 1), fun a => ?_, Finset.card_range _⟩
    rw [Finset.mem_range, live_chain]
    omega

theorem lookup_chain (ha : a ≤ ns.length) (name : List Char) :
    ((chain ns).ramfsLookupChild a name).join = if ns[a]? = some name then some (a + 1) else none := by
  have hDir : sIsDir (sIfDir ||| 0o755) = true := by decide
  by_cases hLt : a < ns.length
  · have hSucc : a + 1 ≤ ns.length := hLt
    simp only [Ramfs.ramfsLookupChild, chain, ha, hLt, hSucc, hDir, if_true, Ramfs.walkFuel,
      Ramfs.findChild]
    simp only [List.getD_eq_getElem?_getD, List.getElem?_eq_getElem hLt, Nat.add_sub_cancel]
    by_cases hName : ns[a] = name
    · simp [hName]
    · simp [hName]
  · simp [Ramfs.ramfsLookupChild, chain, ha, hLt, hDir, Ramfs.walkFuel, Ramfs.findChild]

theorem resolve_chain (ha : a ≤ ns.length) : (chain ns).resolve a (ns.drop a) = some ns.length := by
  induction hRest : ns.drop a generalizing a with
  | nil =>
    have hEnd := List.drop_eq_nil_iff.mp hRest
    rw [Ramfs.resolve, Nat.le_antisymm ha hEnd]
  | cons n rest ih =>
    have hLt : a < ns.length := by
      by_contra hGe
      rw [List.drop_eq_nil_iff.mpr (Nat.le_of_not_lt hGe)] at hRest
      cases hRest
    rw [List.drop_eq_getElem_cons hLt] at hRest
    obtain ⟨rfl, hTail⟩ := List.cons.inj hRest
    rw [Ramfs.resolve, lookup_chain ha, List.getElem?_eq_getElem hLt, if_pos rfl, Option.bind_some]
    exact ih hLt hTail

theorem resolve_chain_long {names : List (List Char)} (ha : a ≤ ns.length)
    (hLong : ns.length < a + names.length) : (chain ns).resolve a names = none := by
  induction names generalizing a with
  | nil => exact absurd hLong (by simpa using ha)
  | cons n names ih =>
    rw [Ramfs.resolve, lookup_chain ha]
    split
    case isTrue hName =>
      have hLt : a < ns.length := (List.getElem?_eq_some_iff.mp hName).1
      rw [Option.bind_some]
      refine ih hLt ?_
      rw [List.length_cons] at hLong
      omega
    case isFalse hOther => rfl

namespace Vfs

variable {s : Vfs} {kids : Nat → List Nat} {path : List Char}

def onlyChain (ns : List (List Char)) : Vfs :=
  ⟨[.ramfs], vfsInit.enter 0 [] ['/'] FsType.ramfs.name .ramfs, chain ns⟩

theorem onlyRamfs_onlyChain (ns : List (List Char)) : (onlyChain ns).OnlyRamfs :=
  ⟨0, by decide, [], FsType.ramfs.name, rfl⟩

theorem components_of_fits (h : ∀ c ∈ pathComponents path, c.length ≤ nameMax) :
    components path = pathComponents path := by
  rw [components, List.map_congr_left fun c hc => List.take_of_length_le (h c hc), List.map_id']

theorem relative_skipSlash (h : ¬ ['/', '/'] <+: path) :
    Relative (Ramfs.skipSlash path) ∧ pathComponents (Ramfs.skipSlash path) = pathComponents path := by
  unfold Ramfs.skipSlash
  split
  case h_1 q =>
    refine ⟨fun hHead => h ?_, (pathComponents_slash q).symm⟩
    obtain ⟨r, rfl⟩ := List.head?_eq_some_iff.mp hHead
    exact ⟨r, rfl⟩
  case h_2 hOther =>
    refine ⟨fun hHead => ?_, rfl⟩
    obtain ⟨r, rfl⟩ := List.head?_eq_some_iff.mp hHead
    exact hOther r rfl

theorem OnlyRamfs.walkersAgree (h : s.OnlyRamfs) (hTree : s.ramfs.TreeInv kids) (hp : path ≠ [])
    (hSlashes : ¬ ['/', '/'] <+: path) (hFits : ∀ c ∈ pathComponents path, c.length ≤ nameMax) :
    s.WalkersAgree path := by
  refine ⟨s.ramfs.resolve s.ramfs.root (pathComponents path), ?_, ?_, ?_⟩
  · rw [h.vfsOpen hp, components_of_fits hFits]
  · have hSame := pathComponents_skipSlashes path
    rw [hTree.ramfsLookupInodePath, ramfsTokens_eq le_rfl (relative_skipSlashes path), hSame]
    rwa [hSame]
  · obtain ⟨hRel, hSame⟩ := relative_skipSlash hSlashes
    rw [hTree.ramfsLookupPathInfo, ramfsTokens_eq le_rfl hRel, hSame]
    rwa [hSame]

theorem vfsOpen_onlyChain (hp : path ≠ []) :
    ((onlyChain (components path)).vfsOpen path).bind (onlyChain (components path)).ramfsInode =
      some (components path).length := by
  rw [(onlyRamfs_onlyChain _).vfsOpen hp]
  exact resolve_chain (Nat.zero_le _)

theorem treeInv_onlyChain (path : List Char) :
    (onlyChain (components path)).ramfs.TreeInv (chainKids (components path)) :=
  treeInv_chain fun _ hn => (Ramfs.components_spec hn).1

theorem not_agree_slashes (hSlashes : ['/', '/'] <+: path) :
    ¬ (onlyChain (components path)).WalkersAgree path := by
  obtain ⟨q, rfl⟩ := hSlashes
  change ¬ (onlyChain (components ('/' :: '/' :: q))).WalkersAgree ('/' :: '/' :: q)
  rintro ⟨r, hOpen, -, hInfo⟩
  rw [vfsOpen_onlyChain (List.cons_ne_nil _ _)] at hOpen
  rw [(treeInv_onlyChain _).ramfsLookupPathInfo, ← hOpen] at hInfo
  -- the second slash is read as an empty name
  have hEmpty : (components ('/' :: '/' :: q))[0]? ≠ some [] := fun hFirst =>
    (Ramfs.components_spec (List.mem_of_getElem? hFirst)).1 rfl
  have hLookup := lookup_chain (Nat.zero_le (components ('/' :: '/' :: q)).length) []
  rw [if_neg hEmpty] at hLookup
  have hNone : (onlyChain (components ('/' :: '/' :: q))).ramfs.resolve 0
      (ramfsTokens ('/' :: q).length ('/' :: q)) = none := by
    rw [List.length_cons, ramfsTokens, if_neg (List.cons_ne_nil _ _)]
    exact congrArg (fun c => Option.bind c _) hLookup
  exact absurd (hNone.symm.trans (Option.some.inj hInfo)) (Option.some_ne_none _).symm

theorem not_agree_long (hp : path ≠ []) (hLong : ∃ c ∈ pathComponents path, nameMax < c.length) :
    ¬ (onlyChain (components path)).WalkersAgree path := by
  rintro ⟨r, hOpen, hInode, -⟩
  rw [vfsOpen_onlyChain hp] at hOpen
  rw [(treeInv_onlyChain path).ramfsLookupInodePath, ← hOpen] at hInode
  have hMore := (length_le_ramfsTokens le_rfl (relative_skipSlashes path)).2
  rw [pathComponents_skipSlashes] at hMore
  have hNone : (onlyChain (components path)).ramfs.resolve 0
      (ramfsTokens (skipSlashes path).length (skipSlashes path)) = none := by
    apply resolve_chain_long (Nat.zero_le _)
    rw [components, List.length_map, Nat.zero_add]
    exact hMore hLong
  exact absurd (hNone.symm.trans (Option.some.inj hInode)) (Option.some_ne_none _).symm

theorem not_agree_empty : ¬ (onlyChain []).WalkersAgree [] := by
  rintro ⟨r, hOpen, hInode, -⟩
  rw [← hOpen] at hInode
  exact absurd (Option.some.inj hInode) (Option.some_ne_none _)

/-- The paths on which the three walks agree in every tree. -/
theorem walkers_agree_iff (path : List Char) :
    (∀ (s : Vfs) (kids : Nat → List Nat), s.OnlyRamfs → s.ramfs.TreeInv kids → s.WalkersAgree path) ↔
      path ≠ [] ∧ ¬ ['/', '/'] <+: path ∧ ∀ c ∈ pathComponents path, c.length ≤ nameMax := by
  constructor
  · intro hAgree
    have hp : path ≠ [] := by
      rintro rfl
      exact not_agree_empty (hAgree _ _ (onlyRamfs_onlyChain []) (treeInv_onlyChain []))
    have hChain := hAgree _ _ (onlyRamfs_onlyChain _) (treeInv_onlyChain path)
    refine ⟨hp, fun hSlashes => not_agree_slashes hSlashes hChain, ?_⟩
    intro c hc
    by_contra hLong
    exact not_agree_long hp ⟨c, hc, Nat.lt_of_not_le hLong⟩ hChain
  · rintro ⟨hp, hSlashes, hFits⟩ s kids hOnly hTree
    exact hOnly.walkersAgree hTree hp hSlashes hFits

theorem double_slash_missed :
    (onlyChain [['a']]).OnlyRamfs ∧ (onlyChain [['a']]).ramfs.TreeInv (chainKids [['a']]) ∧
      ((onlyChain [['a']]).vfsOpen ['/', '/', 'a']).bind (onlyChain [['a']]).ramfsInode = some 1 ∧
      (onlyChain [['a']]).ramfs.ramfsLookupInodePath ['/', '/', 'a'] = some (some 1) ∧
      (onlyChain [['a']]).ramfs.ramfsLookupPathInfo ['/', '/', 'a'] = some none := by
  refine ⟨onlyRamfs_onlyChain _, treeInv_chain ?_, rfl, rfl, rfl⟩
  simp

end Vfs

end UnixOS.Fs
