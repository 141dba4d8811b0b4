import Mathlib.Data.Fintype.EquivFin
import UnixOS.Fs.RamfsSessionSafe
import UnixOS.Fs.VfsCompat
import UnixOS.Lib.LabelledTree

/-! # The RAM filesystem as a map from paths

A tree of inodes shows, at each list of names, nothing, a directory or a file with its bytes. The path
operations change this map at one place, or not at all, and what they do depends on the map alone.
-/

namespace UnixOS.Fs

open ByteMemory RootedTree LabelledTree

inductive Obj where
  | dir
  | file (content : List UInt8)
deriving DecidableEq

abbrev PathMap := List (List Char) → Option Obj

namespace PathMap

variable (M : PathMap)

def mkdirAt (names : List (List Char)) : PathMap :=
  if names ≠ [] ∧ M names.dropLast = some .dir ∧ M names = none then Function.update M names (some .dir)
  else M

def unlinkAt (names : List (List Char)) : PathMap :=
  match M names with
  | some (.file _) => Function.update M names none
  | _ => M

def storeAt (names : List (List Char)) (data : List UInt8) : PathMap × Bool :=
  if M names = some .dir then (M, data.isEmpty)
  else if M names.dropLast = some .dir then (Function.update M names (some (.file data)), true)
  else (M, false)

end PathMap

def RamfsInode.obj (i : RamfsInode) : Obj := if sIsDir i.mode then .dir else .file i.bytes

structure SameFile (i j : RamfsInode) : Prop where
  mode : j.mode = i.mode
  size : j.size = i.size
  data : j.data = i.data
  dataCapacity : j.dataCapacity = i.dataCapacity
  name : j.name = i.name

theorem SameFile.refl (i : RamfsInode) : SameFile i i := ⟨rfl, rfl, rfl, rfl, rfl⟩

theorem SameFile.trans {i j k : RamfsInode} (h : SameFile i j) (h' : SameFile j k) : SameFile i k :=
  ⟨h'.mode.trans h.mode, h'.size.trans h.size, h'.data.trans h.data,
    h'.dataCapacity.trans h.dataCapacity, h'.name.trans h.name⟩

theorem SameFile.bytes {i j : RamfsInode} (h : SameFile i j) : j.bytes = i.bytes := by
  have hByte : j.byte = i.byte := by
    funext k
    rw [RamfsInode.byte, RamfsInode.byte, h.data]
  rw [RamfsInode.bytes, RamfsInode.bytes, h.size, hByte]

theorem SameFile.obj {i j : RamfsInode} (h : SameFile i j) : j.obj = i.obj := by
  rw [RamfsInode.obj, RamfsInode.obj, h.mode, h.bytes]

theorem SameFile.sound {i j : RamfsInode} (h : SameFile i j) (hi : i.Sound) : j.Sound := by
  constructor
  · rw [h.size]
    exact hi.size_lt
  · rw [h.size, h.dataCapacity]
    exact hi.fits
  · intro hNone
    rw [h.dataCapacity]
    exact hi.null (h.data ▸ hNone)

namespace Ramfs

variable {s s' s'' : Ramfs} {kids : Nat → List Nat} {a b p t : Nat} {i : RamfsInode} {n : List Char}
  {P names : List (List Char)}

def objAt (s : Ramfs) : PathMap := fun names =>
  (s.resolve s.root names).bind fun a => (s.inodes a).map RamfsInode.obj

/-- The names lead to the inode `i`, which lies at `b`. -/
def At (s : Ramfs) (names : List (List Char)) (b : Nat) (i : RamfsInode) : Prop :=
  s.resolve s.root names = some b ∧ s.inodes b = some i

def Spares (s s' : Ramfs) (X : Set (List (List Char))) : Prop :=
  ∀ names ∉ X, ∀ b i, s.At names b i → ∃ j, s'.At names b j ∧ SameFile i j

/-- Some child lists make the inodes a tree of files. -/
def Good (s : Ramfs) : Prop := ∃ kids, s.FileTree kids

/-! ### Names and nodes -/

theorem TreeInv.lookup_iff (h : s.TreeInv kids) (ha : s.view.live a) :
    s.ramfsLookupChild a n = some (some b) ↔ b ∈ kids a ∧ s.view.name b = some n := by
  obtain ⟨r, hLookup, hFound, hMissing⟩ := h.lookup ha n
  rw [hLookup, Option.some_inj]
  constructor
  · exact hFound b
  · rintro ⟨hb, hName⟩
    cases r with
    | none => exact absurd hName (hMissing rfl (h.dirs (List.ne_nil_of_mem hb)) b hb)
    | some c =>
      obtain ⟨hc, hName'⟩ := hFound c rfl
      rw [h.distinct hc hb (hName'.trans hName.symm)]

theorem TreeInv.resolve_iff (h : s.TreeInv kids) (ha : s.view.live a) :
    s.resolve a names = some b ↔ Spells kids s.view.name a names b := by
  induction names generalizing a with
  | nil => exact Option.some_inj
  | cons n names ih =>
    rw [resolve, Spells, Option.bind_eq_some_iff]
    constructor
    · rintro ⟨c, hc, hRest⟩
      obtain ⟨hMem, hName⟩ := (h.lookup_iff ha).mp (Option.join_eq_some_iff.mp hc)
      exact ⟨c, hMem, hName, (ih (h.live_of_mem hMem)).mp hRest⟩
    · rintro ⟨c, hMem, hName, hRest⟩
      have hc := (h.lookup_iff ha).mpr ⟨hMem, hName⟩
      exact ⟨c, Option.join_eq_some_iff.mpr hc, (ih (h.live_of_mem hMem)).mpr hRest⟩

theorem TreeInv.resolve_concat (h : s.TreeInv kids) (ha : s.view.live a) :
    s.resolve a (P ++ [n]) = some b ↔
      ∃ c, s.resolve a P = some c ∧ b ∈ kids c ∧ s.view.name b = some n := by
  rw [h.resolve_iff ha, spells_concat]
  exact exists_congr fun c => and_congr_left' (h.resolve_iff ha).symm

theorem TreeInv.walkParent_concat (h : s.TreeInv kids) (ha : s.view.live a) :
    s.walkParent a (P ++ [n]) = some ((s.resolve a P).map fun p => (p, n)) := by
  induction P generalizing a with
  | nil => rfl
  | cons m P ih =>
    obtain ⟨r, hLookup, hFound, -⟩ := h.lookup ha m
    have hCons : ∃ m' rest, P ++ [n] = m' :: rest := List.exists_cons_of_ne_nil (by simp)
    obtain ⟨m', rest, hCons⟩ := hCons
    rw [List.cons_append, hCons, Ramfs.walkParent, hLookup, Ramfs.resolve, hLookup]
    · cases r with
      | none => rfl
      | some c =>
        rw [← hCons]
        exact ih (h.live_of_mem (hFound c rfl).1)
    · simp

/-! ### What lies at a path -/

theorem At.unique {c : Nat} {j : RamfsInode} (h : s.At names b i) (h' : s.At names c j) : b = c ∧ i = j := by
  obtain rfl : b = c := Option.some.inj (h.1.symm.trans h'.1)
  exact ⟨rfl, Option.some.inj (h.2.symm.trans h'.2)⟩

theorem TreeInv.at_inj (h : s.TreeInv kids) {ns ms : List (List Char)} {j : RamfsInode} (hNs : s.At ns b i)
    (hMs : s.At ms b j) : ns = ms := by
  have hTop := h.rooted.root_live
  exact ((h.resolve_iff hTop).mp hNs.1).inj h.rooted ((h.resolve_iff hTop).mp hMs.1)

theorem objAt_eq_some {o : Obj} : s.objAt names = some o ↔ ∃ b i, s.At names b i ∧ i.obj = o := by
  rw [objAt, Option.bind_eq_some_iff]
  simp only [Option.map_eq_some_iff]
  constructor
  · rintro ⟨b, hb, i, hi, ho⟩
    exact ⟨b, i, ⟨hb, hi⟩, ho⟩
  · rintro ⟨b, i, ⟨hb, hi⟩, ho⟩
    exact ⟨b, hb, i, hi, ho⟩

theorem At.objAt (h : s.At names b i) : s.objAt names = some i.obj := objAt_eq_some.mpr ⟨b, i, h, rfl⟩

theorem TreeInv.at_of_resolve (h : s.TreeInv kids) (hResolve : s.resolve s.root names = some b) :
    ∃ i, s.At names b i := by
  obtain ⟨i, hi⟩ := live_iff.mp (h.resolve_live h.rooted.root_live hResolve)
  exact ⟨i, hResolve, hi⟩

theorem TreeInv.objAt_eq_none (h : s.TreeInv kids) : s.objAt names = none ↔ s.resolve s.root names = none := by
  constructor
  · intro hNone
    by_contra hSome
    obtain ⟨b, hb⟩ := Option.ne_none_iff_exists'.mp hSome
    obtain ⟨i, hi⟩ := h.at_of_resolve hb
    rw [hi.objAt] at hNone
    cases hNone
  · intro hNone
    rw [Ramfs.objAt, hNone]
    rfl

theorem obj_eq_dir : i.obj = .dir ↔ sIsDir i.mode = true := by
  unfold RamfsInode.obj
  split <;> simp_all

theorem obj_eq_file {c : List UInt8} : i.obj = .file c ↔ sIsDir i.mode = false ∧ i.bytes = c := by
  unfold RamfsInode.obj
  split <;> simp_all

theorem At.isDir_iff (h : s.At names b i) : s.IsDir b ↔ sIsDir i.mode = true := by
  constructor
  · rintro ⟨m, hm, hDir⟩
    obtain rfl : i.mode = m := by simpa [view, h.2] using hm
    exact hDir
  · intro hDir
    exact ⟨i.mode, by simp [view, h.2], hDir⟩

theorem FileTree.at_root (h : s.FileTree kids) : ∃ i, s.At [] s.root i ∧ i.obj = .dir := by
  have hResolve : s.resolve s.root [] = some s.root := rfl
  obtain ⟨i, hi⟩ := h.tree.at_of_resolve hResolve
  exact ⟨i, hi, obj_eq_dir.mpr (hi.isDir_iff.mp h.root)⟩

theorem FileTree.objAt_parent (h : s.FileTree kids) (hSome : s.objAt (P ++ [n]) ≠ none) :
    s.objAt P = some .dir := by
  have hTop := h.tree.rooted.root_live
  obtain ⟨b, hb⟩ := Option.ne_none_iff_exists'.mp (mt h.tree.objAt_eq_none.mpr hSome)
  obtain ⟨c, hc, hMem, -⟩ := (h.tree.resolve_concat hTop).mp hb
  obtain ⟨i, hi⟩ := h.tree.at_of_resolve hc
  have hDir := hi.isDir_iff.mp (h.tree.dirs (List.ne_nil_of_mem hMem))
  rw [hi.objAt, obj_eq_dir.mpr hDir]

theorem FileTree.objAt_above {r : List (List Char)} (h : s.FileTree kids) (hSome : s.objAt (P ++ r) ≠ none)
    (hr : r ≠ []) : s.objAt P = some .dir := by
  induction r using List.reverseRecOn with
  | nil => exact absurd rfl hr
  | append_singleton r m ih =>
    rw [← List.append_assoc] at hSome
    have hParent := h.objAt_parent hSome
    cases r with
    | nil => simpa using hParent
    | cons n r => exact ih (by simp [hParent]) (by simp)

theorem TreeInv.objAt_child (h : s.TreeInv kids) (hP : s.resolve s.root P = some p) :
    s.objAt (P ++ [n]) = none ↔ s.ramfsLookupChild p n = some none := by
  have hTop := h.rooted.root_live
  have hp := h.resolve_live hTop hP
  obtain ⟨r, hLookup, -⟩ := h.lookup hp n
  rw [h.objAt_eq_none, hLookup, Option.some_inj]
  constructor
  · intro hNone
    by_contra hSome
    obtain ⟨c, rfl⟩ := Option.ne_none_iff_exists'.mp hSome
    obtain ⟨hMem, hName⟩ := (h.lookup_iff hp).mp hLookup
    rw [(h.resolve_concat hTop).mpr ⟨p, hP, hMem, hName⟩] at hNone
    cases hNone
  · rintro rfl
    by_contra hSome
    obtain ⟨b, hb⟩ := Option.ne_none_iff_exists'.mp hSome
    obtain ⟨c, hc, hMem, hName⟩ := (h.resolve_concat hTop).mp hb
    obtain rfl := Option.some.inj (hP.symm.trans hc)
    rw [(h.lookup_iff hp).mpr ⟨hMem, hName⟩] at hLookup
    cases hLookup

/-! ### One place changes -/

/-- The state after an operation: a tree of files that shows `M`, and keeps everything outside `X`. -/
structure Shows (s s' : Ramfs) (M : PathMap) (X : Set (List (List Char))) : Prop where
  good : s'.Good
  objAt : s'.objAt = M
  spares : s.Spares s' X

theorem Good.shows (h : s.Good) (X : Set (List (List Char))) : s.Shows s s.objAt X :=
  ⟨h, rfl, fun _ _ _ i hi => ⟨i, hi, .refl i⟩⟩

theorem Shows.trans {M M' : PathMap} {X : Set (List (List Char))} (h : s.Shows s' M X)
    (h' : s'.Shows s'' M' X) : s.Shows s'' M' X := by
  refine ⟨h'.good, h'.objAt, fun names hNames b i hi => ?_⟩
  obtain ⟨j, hj, hSame⟩ := h.spares names hNames b i hi
  obtain ⟨k, hk, hSame'⟩ := h'.spares names hNames b j hj
  exact ⟨k, hk, hSame.trans hSame'⟩

theorem Shows.mono {M : PathMap} {X Y : Set (List (List Char))} (h : s.Shows s' M X) (hSub : X ⊆ Y) :
    s.Shows s' M Y :=
  ⟨h.good, h.objAt, fun names hNames => h.spares names fun hX => hNames (hSub hX)⟩

theorem shows_update {N : List (List Char)} (hGood : s'.Good) (hSpares : s.Spares s' {N})
    (hBack : ∀ names b j, names ≠ N → s'.At names b j → ∃ i, s.At names b i) :
    s.Shows s' (Function.update s.objAt N (s'.objAt N)) {N} := by
  refine ⟨hGood, ?_, hSpares⟩
  funext names
  by_cases hHere : names = N
  · rw [hHere, Function.update_self]
  · rw [Function.update_of_ne hHere]
    refine Option.ext fun o => ?_
    rw [objAt_eq_some, objAt_eq_some]
    constructor
    · rintro ⟨b, j, hj, ho⟩
      obtain ⟨i, hi⟩ := hBack names b j hHere hj
      obtain ⟨j', hj', hSame⟩ := hSpares names hHere b i hi
      obtain rfl := (hj.unique hj').2
      exact ⟨b, i, hi, hSame.obj ▸ ho⟩
    · rintro ⟨b, i, hi, ho⟩
      obtain ⟨j, hj, hSame⟩ := hSpares names hHere b i hi
      exact ⟨b, j, hj, hSame.obj.trans ho⟩

theorem FileTree.transfer {kids' : Nat → List Nat} (h : s.FileTree kids) (h' : s'.TreeInv kids')
    (hRoot : s'.root = s.root) (hInodes : ∀ c k, s'.inodes c = some k →
      (∃ i, s.inodes c = some i ∧ SameFile i k) ∨ c ≠ s.root ∧ k.name.length ≤ nameMax ∧ k.Sound) :
    s'.FileTree kids' := by
  constructor
  · exact h'
  · obtain ⟨k, hk⟩ := live_iff.mp h'.rooted.root_live
    obtain ⟨m, hm, hDir⟩ := h.root
    rcases hInodes _ k hk with ⟨i, hi, hSame⟩ | ⟨hNe, -⟩
    · refine ⟨k.mode, by simp [view, hk], ?_⟩
      rw [hRoot] at hi
      obtain rfl : i.mode = m := by simpa [view, hi] using hm
      rw [hSame.mode, hDir]
    · exact absurd hRoot hNe
  · intro c k hk
    rcases hInodes c k hk with ⟨i, hi, hSame⟩ | ⟨-, hName, -⟩
    · exact hSame.name ▸ h.names hi
    · exact hName
  · intro c k hk
    rcases hInodes c k hk with ⟨i, hi, hSame⟩ | ⟨-, -, hSound⟩
    · exact hSame.sound (h.sound hi)
    · exact hSound

def Carries (s s' : Ramfs) (b : Nat) : Prop :=
  ∀ i, s.inodes b = some i → ∃ j, s'.inodes b = some j ∧ SameFile i j

theorem Carries.trans (h : s.Carries s' b) (h' : s'.Carries s'' b) : s.Carries s'' b := by
  intro i hi
  obtain ⟨j, hj, hSame⟩ := h i hi
  obtain ⟨k, hk, hSame'⟩ := h' j hj
  exact ⟨k, hk, hSame.trans hSame'⟩

theorem carries_modify {f : RamfsInode → RamfsInode} (hf : ∀ i, SameFile i (f i)) (b : Nat) :
    s.Carries (s.modify a f) b := by
  intro i hi
  by_cases hb : b = a
  · subst hb
    exact ⟨f i, by simp [modify, hi], hf i⟩
  · exact ⟨i, by simp [modify, hb, hi], .refl i⟩

theorem carries_setParent (v : Option Nat) (b : Nat) : s.Carries (s.setParent a v) b := by
  refine carries_modify ?_ b
  exact fun i => ⟨rfl, rfl, rfl, rfl, rfl⟩

theorem carries_setSibling (v : Option Nat) (b : Nat) : s.Carries (s.setSibling a v) b := by
  refine carries_modify ?_ b
  exact fun i => ⟨rfl, rfl, rfl, rfl, rfl⟩

theorem carries_setChildren (v : Option Nat) (b : Nat) : s.Carries (s.setChildren a v) b := by
  refine carries_modify ?_ b
  exact fun i => ⟨rfl, rfl, rfl, rfl, rfl⟩

theorem TreeInv.resolve_congr (h : s.TreeInv kids) (hView : s'.view = s.view) (hRoot : s'.root = s.root)
    (hCount : s'.inodeCount = s.inodeCount) (names : List (List Char)) :
    s'.resolve s'.root names = s.resolve s.root names := by
  have h' := h.congr hView hRoot hCount
  refine Option.ext fun b => ?_
  rw [h'.resolve_iff h'.rooted.root_live, h.resolve_iff h.rooted.root_live, hView, hRoot]

/-! ### A new inode -/

theorem FileTree.make_new (h : s.FileTree kids) (hP : s.resolve s.root P = some p) (hDir : s.IsDir p)
    (ha : ¬ s.view.live a) (hName : n ≠ []) (hFits : n.length ≤ nameMax)
    (hMissing : s.ramfsLookupChild p n = some none) (type mode : UInt32) :
    ∃ s' j, s.ramfsMake type p n mode a = some (s', 0) ∧
      s.Shows s' (Function.update s.objAt (P ++ [n]) (some j.obj)) ∅ ∧ s'.At (P ++ [n]) a j ∧
      j.mode = type ||| mode ∧ j.size = 0 := by
  have hTop := h.tree.rooted.root_live
  have hp := h.tree.resolve_live hTop hP
  obtain ⟨d, hd⟩ := live_iff.mp hp
  have hNe : p ≠ a := fun hEq => ha (hEq ▸ hp)
  have hTake : n.take nameMax = n := List.take_of_length_le hFits
  have hFresh : ∀ c ∈ kids p, s.view.name c ≠ some n := by
    intro c hc hc'
    rw [(h.tree.lookup_iff hp).mpr ⟨hc, hc'⟩] at hMissing
    cases hMissing
  have hIsDir : sIsDir d.mode = true := by
    obtain ⟨m, hm, hDir⟩ := hDir
    obtain rfl : d.mode = m := by simpa [view, hd] using hm
    exact hDir
  have hInodeP : (s.ramfsAllocInode a (type ||| mode) n).inodes p = some d := by
    simp [ramfsAllocInode, hNe, hd]
  have hView := view_linkNew hp ha hd hTake (type ||| mode)
  have hLinks : ∀ b, (s.ramfsAllocInode a (type ||| mode) n).Carries
      ((((s.ramfsAllocInode a (type ||| mode) n).setParent a (some p)).setSibling a d.children).setChildren p
        (some a)) b :=
    fun b => ((carries_setParent (some p) b).trans (carries_setSibling d.children b)).trans
      (carries_setChildren (some a) b)
  have hMake : s.ramfsMake type p n mode a = some
      ((((s.ramfsAllocInode a (type ||| mode) n).setParent a (some p)).setSibling a d.children).setChildren p
        (some a), 0) := by
    simp only [Ramfs.ramfsMake, hName, hMissing, if_false, Option.bind_eq_bind, Option.bind_some,
      ramfsAddChild, hInodeP, hIsDir, if_true]
    rfl
  generalize hs' : ((((s.ramfsAllocInode a (type ||| mode) n).setParent a (some p)).setSibling a
    d.children).setChildren p (some a)) = s' at hMake hView hLinks
  have hRoot : s'.root = s.root := by
    rw [← hs']
    rfl
  have hCount : s'.inodeCount = s.inodeCount + 1 := by
    rw [← hs']
    rfl
  obtain ⟨j, hj, hSame⟩ := hLinks a _ (Function.update_self _ _ _)
  have hCarries : ∀ b, s.Carries s' b := by
    intro b i hi
    have hb : b ≠ a := by
      rintro rfl
      exact ha (live_iff.mpr ⟨i, hi⟩)
    exact hLinks b i (by simp [ramfsAllocInode, hb, hi])
  have hTree : s'.TreeInv (attach kids p a) :=
    h.tree.attach_new hDir hp ha hName hFresh hRoot hCount hView
  have hResolve : ∀ names b, s'.resolve s'.root names = some b ↔
      s.resolve s.root names = some b ∨ b = a ∧ names = P ++ [n] := by
    intro names b
    have hOld : ∀ d, s.view.live d → s'.view.name d = s.view.name d := by
      intro c hc
      have hNeC : c ≠ a := fun hEq => ha (hEq ▸ hc)
      rw [hView]
      exact Function.update_of_ne hNeC _ _
    have hNew : s'.view.name a = some n := by
      rw [hView]
      exact Function.update_self _ _ _
    rw [hTree.resolve_iff hTree.rooted.root_live, h.tree.resolve_iff hTop, hRoot,
      spells_attach h.tree.rooted hp ha hOld hNew hTop]
    have hSpells := (h.tree.resolve_iff hTop).mp hP
    constructor
    · rintro (hOld | ⟨rfl, ms, rfl, hMs⟩)
      · exact .inl hOld
      · exact .inr ⟨rfl, by rw [hMs.inj h.tree.rooted hSpells]⟩
    · rintro (hOld | ⟨rfl, rfl⟩)
      · exact .inl hOld
      · exact .inr ⟨rfl, P, rfl, hSpells⟩
  have hAt : s'.At (P ++ [n]) a j := ⟨(hResolve _ _).mpr (.inr ⟨rfl, rfl⟩), hj⟩
  have hSpares : s.Spares s' ∅ := by
    intro names _ b i hi
    obtain ⟨k, hk, hSame'⟩ := hCarries b i hi.2
    exact ⟨k, ⟨(hResolve names b).mpr (.inl hi.1), hk⟩, hSame'⟩
  have hGood : s'.FileTree (attach kids p a) := by
    refine h.transfer hTree hRoot fun c k hk => ?_
    have hLive : s'.view.live c := live_iff.mpr ⟨k, hk⟩
    rw [hView] at hLive
    rcases hLive with rfl | hLive
    · obtain rfl : j = k := Option.some.inj (hj.symm.trans hk)
      refine .inr ⟨fun hEq => ha (hEq ▸ hTop), ?_, hSame.sound ⟨by simp, le_rfl, fun _ => rfl⟩⟩
      rw [hSame.name]
      simp
    · obtain ⟨i, hi⟩ := live_iff.mp hLive
      obtain ⟨k', hk', hSame'⟩ := hCarries c i hi
      exact .inl ⟨i, hi, Option.some.inj (hk.symm.trans hk') ▸ hSame'⟩
  have hShows : s.Shows s' (Function.update s.objAt (P ++ [n]) (s'.objAt (P ++ [n]))) {P ++ [n]} := by
    refine shows_update ⟨_, hGood⟩ (fun names _ => hSpares names (by simp)) fun names b k hNames hk => ?_
    rcases (hResolve names b).mp hk.1 with hOld | ⟨-, hHere⟩
    · exact h.tree.at_of_resolve hOld
    · exact absurd hHere hNames
  rw [hAt.objAt] at hShows
  exact ⟨s', j, hMake, ⟨hShows.good, hShows.objAt, hSpares⟩, hAt, hSame.mode, hSame.size⟩

theorem FileTree.make_elsewhere (h : s.FileTree kids) (hp : s.view.live p) (hDir : ¬ s.IsDir p)
    (ha : ¬ s.view.live a) (hName : n ≠ []) (hMissing : s.ramfsLookupChild p n = some none)
    (type mode : UInt32) :
    ∃ s', s.ramfsMake type p n mode a = some (s', -eNotDir) ∧ s.Shows s' s.objAt ∅ := by
  obtain ⟨d, hd⟩ := live_iff.mp hp
  have hNe : p ≠ a := fun hEq => ha (hEq ▸ hp)
  have hIsFile : sIsDir d.mode = false := by
    by_contra hIsDir
    exact hDir ⟨d.mode, by simp [view, hd], by simpa using hIsDir⟩
  have hInodeP : (s.ramfsAllocInode a (type ||| mode) n).inodes p = some d := by
    simp [ramfsAllocInode, hNe, hd]
  have hMake : s.ramfsMake type p n mode a =
      some ((s.ramfsAllocInode a (type ||| mode) n).ramfsFreeInode a, -eNotDir) := by
    simp only [Ramfs.ramfsMake, hName, hMissing, if_false, Option.bind_eq_bind, Option.bind_some,
      ramfsAddChild, hInodeP, hIsFile, Bool.false_eq_true]
    rfl
  have hInodes : ((s.ramfsAllocInode a (type ||| mode) n).ramfsFreeInode a).inodes = s.inodes := by
    have hDead : s.inodes a = none := by simpa [view] using ha
    simp [ramfsFreeInode, ramfsAllocInode, ← hDead]
  refine ⟨_, hMake, ?_⟩
  generalize hs' : (s.ramfsAllocInode a (type ||| mode) n).ramfsFreeInode a = s' at hInodes
  have hView : s'.view = s.view := by simp only [view, hInodes]
  have hRoot : s'.root = s.root := by
    rw [← hs']
    rfl
  have hCount : s'.inodeCount = s.inodeCount := by
    rw [← hs']
    rfl
  have hResolve := h.tree.resolve_congr hView hRoot hCount
  constructor
  · refine ⟨kids, h.transfer (h.tree.congr hView hRoot hCount) hRoot fun c k hk => ?_⟩
    exact .inl ⟨k, hInodes ▸ hk, .refl k⟩
  · funext names
    rw [objAt, objAt, hResolve, hInodes]
  · rintro names - b i ⟨hb, hi⟩
    exact ⟨i, ⟨(hResolve names).trans hb, hInodes ▸ hi⟩, .refl i⟩

theorem FileTree.make (h : s.FileTree kids) (ha : ¬ s.view.live a) (hP : s.resolve s.root P = some p)
    (hName : n ≠ []) (hFits : n.length ≤ nameMax) (type mode : UInt32) :
    (s.objAt P = some .dir ∧ s.objAt (P ++ [n]) = none ∧ ∃ s' i, s.ramfsMake type p n mode a = some (s', 0) ∧
      s.Shows s' (Function.update s.objAt (P ++ [n]) (some i.obj)) ∅ ∧ s'.At (P ++ [n]) a i ∧
      i.mode = type ||| mode ∧ i.size = 0) ∨
    (¬ (s.objAt P = some .dir ∧ s.objAt (P ++ [n]) = none) ∧ ∃ s' ret,
      s.ramfsMake type p n mode a = some (s', ret) ∧ ret ≠ 0 ∧ s.Shows s' s.objAt ∅) := by
  have hp := h.tree.resolve_live h.tree.rooted.root_live hP
  obtain ⟨d, hd⟩ := h.tree.at_of_resolve hP
  have hIsDir : s.objAt P = some .dir ↔ s.IsDir p := by
    rw [hd.objAt, Option.some_inj, obj_eq_dir, hd.isDir_iff]
  obtain ⟨r, hLookup, -⟩ := h.tree.lookup hp n
  rw [hIsDir, h.tree.objAt_child hP]
  cases r with
  | some c =>
    refine .inr ⟨?_, s, -eExist, ?_, by decide, Good.shows ⟨kids, h⟩ _⟩
    · rintro ⟨-, hNone⟩
      rw [hLookup] at hNone
      cases hNone
    · simp [ramfsMake, hName, hLookup]
  | none =>
    by_cases hDir : s.IsDir p
    · obtain ⟨s', i, hMake⟩ := h.make_new hP hDir ha hName hFits hLookup type mode
      exact .inl ⟨hDir, hLookup, s', i, hMake⟩
    · obtain ⟨s', hMake, hShows⟩ := h.make_elsewhere hp hDir ha hName hLookup type mode
      exact .inr ⟨fun hBoth => hDir hBoth.1, s', _, hMake, by decide, hShows⟩

/-! ### Where a path walk ends -/

theorem FileTree.vfsLookupParent_cases (h : s.FileTree kids) (path : List Char) :
    (components path = [] ∧ s.vfsLookupParent path = some none) ∨
    ∃ P n, components path = P ++ [n] ∧ n ≠ [] ∧ n.length ≤ nameMax ∧
      (s.resolve s.root P = none ∧ s.objAt P = none ∧ s.objAt (P ++ [n]) = none ∧
          s.vfsLookupParent path = some none ∨
        ∃ p, s.resolve s.root P = some p ∧ s.vfsLookupParent path = some (some (p, n))) := by
  have hTop := h.tree.rooted.root_live
  rcases List.eq_nil_or_concat' (components path) with hNil | ⟨P, n, hEq⟩
  · refine .inl ⟨hNil, ?_⟩
    rw [Ramfs.vfsLookupParent, hNil]
    rfl
  · have hMem : n ∈ components path := by simp [hEq]
    obtain ⟨hName, hTake⟩ := components_spec hMem
    have hFits : n.length ≤ nameMax := by
      rw [← hTake]
      simp
    have hWalk : s.vfsLookupParent path = some ((s.resolve s.root P).map fun p => (p, n)) := by
      rw [Ramfs.vfsLookupParent, hEq, h.tree.walkParent_concat hTop]
    refine .inr ⟨P, n, hEq, hName, hFits, ?_⟩
    cases hP : s.resolve s.root P with
    | none =>
      rw [hP] at hWalk
      have hObj := h.tree.objAt_eq_none.mpr hP
      refine .inl ⟨rfl, hObj, ?_, hWalk⟩
      by_contra hSome
      rw [h.objAt_parent hSome] at hObj
      cases hObj
    | some p =>
      rw [hP] at hWalk
      exact .inr ⟨p, rfl, hWalk⟩

theorem Good.vfsMkdir (h : s.Good) (ha : ¬ s.view.live a) (path : List Char) (mode : UInt32)
    (hMode : sIsDir (sIfDir ||| mode) = true) :
    ∃ s' ret, s.vfsMkdir path mode a = some (s', ret) ∧
      s.Shows s' (s.objAt.mkdirAt (components path)) ∅ := by
  obtain ⟨kids, h⟩ := h
  have hStay := Good.shows ⟨kids, h⟩ ∅
  rcases h.vfsLookupParent_cases path with ⟨hNil, hLookup⟩ | ⟨P, n, hEq, hName, hFits, hWalk⟩
  · refine ⟨s, -eNoEnt, by simp [Ramfs.vfsMkdir, hLookup], ?_⟩
    simpa [PathMap.mkdirAt, hNil] using hStay
  rw [hEq, PathMap.mkdirAt, List.dropLast_concat]
  rcases hWalk with ⟨-, hParent, -, hLookup⟩ | ⟨p, hP, hLookup⟩
  · refine ⟨s, -eNoEnt, by simp [Ramfs.vfsMkdir, hLookup], ?_⟩
    simpa [hParent] using hStay
  · simp only [Ramfs.vfsMkdir, hLookup, Option.bind_eq_bind, Option.bind_some, Ramfs.ramfsMkdir]
    rcases h.make ha hP hName hFits sIfDir mode with
      ⟨hDir, hNone, s', i, hMake, hShows, -, hNew, -⟩ | ⟨hNot, s', ret, hMake, -, hShows⟩
    · refine ⟨s', 0, hMake, ?_⟩
      rw [if_pos ⟨by simp, hDir, hNone⟩]
      rwa [obj_eq_dir.mpr (hNew ▸ hMode)] at hShows
    · refine ⟨s', ret, hMake, ?_⟩
      rwa [if_neg fun hAll => hNot hAll.2]

/-! ### A new filesystem -/

theorem inodes_ramfsMount {root c : Nat} (h : (ramfsMount root).inodes c = some i) :
    c = root ∧ i = ⟨1, sIfDir ||| 0o755, 0, none, 0, none, none, none, []⟩ := by
  by_cases hc : c = root
  · subst hc
    refine ⟨rfl, ?_⟩
    simpa [ramfsMount, ramfsAllocInode] using h.symm
  · simp [ramfsMount, ramfsAllocInode, hc] at h

theorem fileTree_ramfsMount (root : Nat) : (ramfsMount root).FileTree fun _ => [] where
  tree := treeInv_ramfsMount root
  root := ⟨sIfDir ||| 0o755, by simp [view, ramfsMount, ramfsAllocInode], by decide⟩
  names := by
    intro c i hi
    obtain ⟨-, rfl⟩ := inodes_ramfsMount hi
    simp
  sound := by
    intro c i hi
    obtain ⟨-, rfl⟩ := inodes_ramfsMount hi
    exact ⟨by simp, le_rfl, fun _ => rfl⟩

theorem objAt_ramfsMount (root : Nat) :
    (ramfsMount root).objAt = Function.update (fun _ => none) [] (some .dir) := by
  have h := fileTree_ramfsMount root
  funext names
  cases names with
  | nil =>
    obtain ⟨i, hi, hDir⟩ := h.at_root
    rw [hi.objAt, hDir, Function.update_self]
  | cons n names =>
    rw [Function.update_of_ne (by simp), h.tree.objAt_eq_none]
    by_contra hSome
    obtain ⟨b, hb⟩ := Option.ne_none_iff_exists'.mp hSome
    obtain ⟨c, hc, -⟩ := (h.tree.resolve_iff h.tree.rooted.root_live).mp hb
    cases hc

theorem Good.exists_free (h : s.Good) : ∃ a, ¬ s.view.live a := by
  obtain ⟨kids, h⟩ := h
  obtain ⟨nodes, hNodes, -⟩ := h.tree.count
  obtain ⟨a, ha⟩ := Infinite.exists_notMem_finset nodes
  exact ⟨a, fun hLive => ha ((hNodes a).mpr hLive)⟩

/-! ### A removed file -/

theorem carries_unlinkChild (h : s.unlinkChild p t = some s') (b : Nat) : s.Carries s' b := by
  unfold unlinkChild at h
  split at h
  case h_2 => cases h
  case h_1 d i hd hi =>
    split at h
    case isTrue hHead =>
      obtain rfl := Option.some.inj h
      exact carries_setChildren _ b
    case isFalse hLater =>
      obtain ⟨r, -, h⟩ := Option.bind_eq_some_iff.mp h
      cases r with
      | none =>
        obtain rfl := Option.some.inj h
        exact fun j hj => ⟨j, hj, .refl j⟩
      | some curr =>
        obtain rfl := Option.some.inj h
        exact carries_setSibling _ b

theorem FileTree.unlink_file (h : s.FileTree kids) (hAt : s.At (P ++ [n]) t i) (hFile : sIsDir i.mode = false)
    (ht : t ∈ kids p) : ∃ s', ((s.unlinkChild p t).bind fun s => some (s.ramfsFreeInode t, (0 : Int))) =
      some (s', 0) ∧ s.Shows s' (Function.update s.objAt (P ++ [n]) none) {P ++ [n]} := by
  have hTop := h.tree.rooted.root_live
  have hLeaf := h.tree.leaf hAt.2 (.inl hFile)
  obtain ⟨s₁, hd, nx, hUnlink, hRoot, hCount, hView, hLinks⟩ := h.tree.unlink ht
  have hTree := h.tree.detach_free ht hLeaf hLinks hRoot hCount hView
  have hNe : s.root ≠ t := by
    rintro hEq
    exact h.tree.rooted.root_free p (hEq ▸ ht)
  have hResolve : ∀ names b, (s₁.ramfsFreeInode t).resolve (s₁.ramfsFreeInode t).root names = some b ↔
      s.resolve s.root names = some b ∧ b ≠ t := by
    intro names b
    have hOld : ∀ d, d ≠ t → (s₁.ramfsFreeInode t).view.name d = s.view.name d := by
      intro c hc
      rw [view_ramfsFreeInode, hView]
      exact Function.update_of_ne hc _ _
    rw [hTree.resolve_iff hTree.rooted.root_live, h.tree.resolve_iff hTop,
      ← spells_detach h.tree.rooted ht hLeaf hOld hNe]
    exact iff_of_eq (congrArg (fun r => Spells _ _ r names b) hRoot)
  have hCarries : ∀ {c j}, c ≠ t → s.inodes c = some j →
      ∃ k, (s₁.ramfsFreeInode t).inodes c = some k ∧ SameFile j k := by
    intro c j hc hj
    obtain ⟨k, hk, hSame⟩ := carries_unlinkChild hUnlink c j hj
    exact ⟨k, by simp [ramfsFreeInode, hc, hk], hSame⟩
  have hLives : ∀ {c k}, (s₁.ramfsFreeInode t).inodes c = some k → c ≠ t ∧ s.view.live c := by
    intro c k hk
    have hLive : (s₁.ramfsFreeInode t).view.live c := live_iff.mpr ⟨k, hk⟩
    rw [view_ramfsFreeInode, hView] at hLive
    exact hLive
  have hGood : (s₁.ramfsFreeInode t).FileTree (detach kids p t) := by
    refine h.transfer hTree hRoot fun c k hk => ?_
    obtain ⟨hc, hLive⟩ := hLives hk
    obtain ⟨j, hj⟩ := live_iff.mp hLive
    obtain ⟨k', hk', hSame⟩ := hCarries hc hj
    exact .inl ⟨j, hj, Option.some.inj (hk.symm.trans hk') ▸ hSame⟩
  have hSpares : s.Spares (s₁.ramfsFreeInode t) {P ++ [n]} := by
    intro names hNames b j hj
    have hb : b ≠ t := by
      rintro rfl
      exact hNames (h.tree.at_inj hj hAt)
    obtain ⟨k, hk, hSame⟩ := hCarries hb hj.2
    exact ⟨k, ⟨(hResolve names b).mpr ⟨hj.1, hb⟩, hk⟩, hSame⟩
  have hShows := shows_update ⟨_, hGood⟩ hSpares fun names b k _ hk =>
    h.tree.at_of_resolve ((hResolve names b).mp hk.1).1
  have hGone : (s₁.ramfsFreeInode t).objAt (P ++ [n]) = none := by
    rw [hTree.objAt_eq_none]
    by_contra hSome
    obtain ⟨b, hb⟩ := Option.ne_none_iff_exists'.mp hSome
    obtain ⟨hOld, hbNe⟩ := (hResolve _ b).mp hb
    exact hbNe (Option.some.inj (hOld.symm.trans hAt.1))
  rw [hGone] at hShows
  exact ⟨_, by rw [hUnlink, Option.bind_some], hShows⟩

theorem Good.vfsUnlink (h : s.Good) (path : List Char) :
    ∃ s' ret, s.vfsUnlink path = some (s', ret) ∧
      s.Shows s' (s.objAt.unlinkAt (components path)) {components path} := by
  obtain ⟨kids, h⟩ := h
  have hStay := Good.shows ⟨kids, h⟩ {components path}
  rcases h.vfsLookupParent_cases path with ⟨hNil, hLookup⟩ | ⟨P, n, hEq, hName, hFits, hWalk⟩
  · obtain ⟨i, hi, hDir⟩ := h.at_root
    refine ⟨s, -eNoEnt, by simp [Ramfs.vfsUnlink, hLookup], ?_⟩
    rw [hNil] at hStay ⊢
    simpa [PathMap.unlinkAt, hi.objAt, hDir] using hStay
  rw [hEq] at hStay ⊢
  rcases hWalk with ⟨-, -, hNone, hLookup⟩ | ⟨p, hP, hLookup⟩
  · refine ⟨s, -eNoEnt, by simp [Ramfs.vfsUnlink, hLookup], ?_⟩
    simpa [PathMap.unlinkAt, hNone] using hStay
  have hp := h.tree.resolve_live h.tree.rooted.root_live hP
  obtain ⟨r, hChild, hFound, -⟩ := h.tree.lookup hp n
  cases r with
  | none =>
    refine ⟨s, -eNoEnt, by simp [Ramfs.vfsUnlink, hLookup, hChild], ?_⟩
    simpa [PathMap.unlinkAt, (h.tree.objAt_child hP).mpr hChild] using hStay
  | some t =>
    obtain ⟨ht, hLabel⟩ := hFound t rfl
    have hResolve := (h.tree.resolve_concat h.tree.rooted.root_live).mpr ⟨p, hP, ht, hLabel⟩
    obtain ⟨i, hi⟩ := h.tree.at_of_resolve hResolve
    cases hMode : sIsDir i.mode with
    | true =>
      refine ⟨s, -eIsDir, by simp [Ramfs.vfsUnlink, hLookup, hChild, hi.2, hMode], ?_⟩
      simpa [PathMap.unlinkAt, hi.objAt, obj_eq_dir.mpr hMode] using hStay
    | false =>
      obtain ⟨s', hUnlink, hShows⟩ := h.unlink_file hi hMode ht
      refine ⟨s', 0, ?_, ?_⟩
      · simp only [Ramfs.vfsUnlink, Ramfs.ramfsUnlink, hLookup, hChild, hi.2, hMode, Option.bind_eq_bind,
          Option.bind_some, Bool.false_eq_true, if_false]
        exact hUnlink
      · simpa [PathMap.unlinkAt, hi.objAt, obj_eq_file.mpr ⟨hMode, rfl⟩] using hShows

end Ramfs

end UnixOS.Fs
