import Mathlib.Data.List.Induction
import UnixOS.Fs.Mounts

/-! # Which filesystem a path is routed to

Abstractly a mount table maps lists of components to roots, and a path goes to the longest of them that
it starts with. The code compares characters instead. Both agree on targets written in the shortest
way that fit their field, for the paths that spell the target out in the same way.
-/

namespace UnixOS.Fs

section Text

variable {a b p rest : List Char} {cs ds : List (List Char)}

theorem pathComponents_append_slashes (p : List Char) {q : List Char} (h : ∀ x ∈ q, x = '/') :
    pathComponents (q ++ p) = pathComponents p := by
  induction q with
  | nil => rfl
  | cons x q ih =>
    obtain rfl := h x (by simp)
    simpa using ih fun y hy => h y (by simp [hy])

theorem pathComponents_slashes (h : ∀ x ∈ p, x = '/') : pathComponents p = [] := by
  simpa using pathComponents_append_slashes [] h

theorem trimReversed_suffix (p : List Char) :
    ∃ q, p = q ++ trimReversed p ∧ ∀ x ∈ q, x = '/' := by
  induction p with
  | nil => exact ⟨[], rfl, by simp⟩
  | cons x p ih =>
    by_cases hTrim : x = '/' ∧ p ≠ []
    · obtain ⟨rfl, hp⟩ := hTrim
      obtain ⟨y, ys, rfl⟩ := List.exists_cons_of_ne_nil hp
      obtain ⟨q, hq, hAll⟩ := ih
      refine ⟨'/' :: q, ?_, by simpa using hAll⟩
      rw [trimReversed, List.cons_append, ← hq]
    · refine ⟨[], ?_, by simp⟩
      unfold trimReversed
      split
      · rename_i hEq
        obtain ⟨rfl, rfl⟩ := List.cons.inj hEq
        simp at hTrim
      · rfl

theorem trimSlashes_append (p : List Char) : ∃ q, p = trimSlashes p ++ q ∧ ∀ x ∈ q, x = '/' := by
  obtain ⟨q, hq, hAll⟩ := trimReversed_suffix p.reverse
  refine ⟨q.reverse, ?_, by simpa using hAll⟩
  rw [trimSlashes, ← List.reverse_append, ← hq, List.reverse_reverse]

theorem pathComponents_trimSlashes (p : List Char) : pathComponents (trimSlashes p) = pathComponents p := by
  obtain ⟨q, hq, hAll⟩ := trimSlashes_append p
  have hCut : pathComponents (trimSlashes p ++ q) = pathComponents (trimSlashes p) := by
    cases q with
    | nil => rw [List.append_nil]
    | cons x q =>
      obtain rfl := hAll x (by simp)
      have hRest : pathComponents q = [] := pathComponents_slashes fun y hy => hAll y (by simp [hy])
      rw [pathComponents_append_slash, hRest, List.append_nil]
  rw [← hCut, ← hq]

theorem pathComponents_of_compare (h : pathCompare a b = true) : pathComponents a = pathComponents b := by
  rw [← pathComponents_trimSlashes a, ← pathComponents_trimSlashes b]
  exact congrArg pathComponents (by simpa [pathCompare] using h)

theorem trimReversed_slashes (h : ∀ x ∈ p, x = '/') (hNe : p ≠ []) : trimReversed p = ['/'] := by
  induction p with
  | nil => exact absurd rfl hNe
  | cons x p ih =>
    obtain rfl := h x (by simp)
    cases p with
    | nil => rfl
    | cons y p =>
      rw [trimReversed]
      exact ih (fun z hz => h z (by simp [hz])) (by simp)

theorem trimSlashes_slashes (h : ∀ x ∈ p, x = '/') (hNe : p ≠ []) : trimSlashes p = ['/'] := by
  rw [trimSlashes, trimReversed_slashes (by simpa using h) (by simpa using hNe)]
  rfl

/-- A target in its shortest spelling that fits the 64 characters of its field. -/
inductive Canonical : List Char → Prop
  | root (t : List Char) (hNe : t ≠ []) (hAll : ∀ x ∈ t, x = '/') : Canonical t
  | below (cs : List (List Char)) (hNe : cs ≠ []) (hCs : ∀ c ∈ cs, IsComponent c)
      (hFits : (render cs).length ≤ 63) : Canonical (render cs)

theorem Canonical.compare (ha : Canonical a) (hb : Canonical b)
    (h : pathComponents a = pathComponents b) : pathCompare a b = true := by
  rw [pathCompare, beq_iff_eq]
  cases ha with
  | root _ hNe hAll =>
    rw [pathComponents_slashes hAll] at h
    cases hb with
    | root _ hNe' hAll' => rw [trimSlashes_slashes hAll hNe, trimSlashes_slashes hAll' hNe']
    | below cs hNe' hCs' =>
      rw [pathComponents_render hCs'] at h
      exact absurd h.symm hNe'
  | below cs hNe hCs =>
    rw [pathComponents_render hCs] at h
    cases hb with
    | root _ hNe' hAll' =>
      rw [pathComponents_slashes hAll'] at h
      exact absurd h hNe
    | below ds hNe' hDs =>
      rw [pathComponents_render hDs] at h
      rw [h]

theorem Canonical.stored (h : Canonical a) :
    Canonical (pathCopy a 64) ∧ pathComponents (pathCopy a 64) = pathComponents a := by
  cases h with
  | root _ hNe hAll =>
    have hKeep : ∀ x ∈ a.take 63, x = '/' := fun x hx => hAll x (List.mem_of_mem_take hx)
    refine ⟨.root _ ?_ hKeep, ?_⟩
    · simpa [pathCopy] using hNe
    · exact (pathComponents_slashes hKeep).trans (pathComponents_slashes hAll).symm
  | below cs hNe hCs hFits =>
    have hKeep : pathCopy (render cs) 64 = render cs := List.take_of_length_le hFits
    rw [hKeep]
    exact ⟨.below cs hNe hCs hFits, rfl⟩

theorem Canonical.compare_root (h : Canonical a) : pathCompare a ['/'] = true ↔ pathComponents a = [] := by
  constructor
  · intro hEq
    exact pathComponents_of_compare hEq
  · intro hNil
    exact h.compare (.root ['/'] (by simp) (by simp)) hNil

theorem match_inv {len : Nat} (hNotRoot : a ≠ ['/']) (h : pathHasMountPrefix p a = some len) :
    len = a.length ∧ ∃ rest, p = a ++ rest ∧ AtBoundary rest := by
  by_cases hPrefix : a <+: p
  · obtain ⟨rest, rfl⟩ := hPrefix
    simp only [pathHasMountPrefix, List.prefix_append, not_true, hNotRoot, if_false, List.drop_left] at h
    cases rest with
    | nil => exact ⟨by simpa [eq_comm] using h, [], rfl, .inl rfl⟩
    | cons c rest =>
      by_cases hc : c = '/'
      · subst hc
        exact ⟨by simpa [eq_comm] using h, '/' :: rest, rfl, .inr ⟨rest, rfl⟩⟩
      · simp [hc] at h
  · simp [pathHasMountPrefix, hPrefix] at h

theorem Canonical.match_sound (h : Canonical a) {len : Nat} (hMatch : pathHasMountPrefix p a = some len) :
    pathComponents p = pathComponents a ++ pathComponents (p.drop len) ∧ len = a.length ∧ a <+: p := by
  by_cases hRoot : a = ['/']
  · subst hRoot
    by_cases hPrefix : ['/'] <+: p
    · obtain ⟨rest, rfl⟩ := hPrefix
      obtain rfl : 1 = len := by simpa [pathHasMountPrefix] using hMatch
      exact ⟨by simp, rfl, List.prefix_append ..⟩
    · simp [pathHasMountPrefix, hPrefix] at hMatch
  · obtain ⟨rfl, rest, rfl, hBoundary⟩ := match_inv hRoot hMatch
    rw [List.drop_left]
    refine ⟨?_, rfl, List.prefix_append ..⟩
    cases h with
    | root _ hNe hAll =>
      rw [pathComponents_append_slashes rest hAll, pathComponents_slashes hAll, List.nil_append]
    | below cs hNe hCs =>
      rw [pathComponents_render_append hCs hBoundary, pathComponents_render hCs]

theorem render_ne_root (hNe : cs ≠ []) (hCs : ∀ c ∈ cs, IsComponent c) : render cs ≠ ['/'] := by
  intro hEq
  have hComps := pathComponents_render hCs
  rw [hEq] at hComps
  exact hNe hComps.symm

theorem match_complete (hNe : cs ≠ []) (hCs : ∀ c ∈ cs, IsComponent c) (hRest : AtBoundary rest) :
    pathHasMountPrefix (render cs ++ rest) (render cs) = some (render cs).length := by
  rw [pathHasMountPrefix, if_neg (by simp), if_neg (render_ne_root hNe hCs), List.drop_left]
  rcases hRest with rfl | ⟨r, rfl⟩
  · rfl
  · simp

theorem length_render_lt (h : cs <+: ds) (hLt : cs.length < ds.length) :
    (render cs).length < (render ds).length := by
  obtain ⟨tail, rfl⟩ := h
  cases tail with
  | nil => simp at hLt
  | cons d tail =>
    simp only [render, List.flatMap_append, List.flatMap_cons, List.length_append, List.length_cons]
    omega

end Text

section Tables

variable {δ : Type*} {t : MountTable δ} {path : List Char}

abbrev AbsTable (δ : Type*) := List (List (List Char) × δ)

def AbsTable.step (tab : AbsTable δ) : MountOp δ → AbsTable δ
  | .mount _ target _ (.superBlock sRoot) =>
    if ∃ e ∈ tab, e.1 = pathComponents target then tab else (pathComponents target, sRoot) :: tab
  | .mount _ _ _ _ => tab
  | .umount target => tab.filter fun e => e.1 ≠ pathComponents target

def AbsTable.run (tab : AbsTable δ) : List (MountOp δ) → AbsTable δ
  | [] => tab
  | op :: ops => (tab.step op).run ops

def MountOp.Plain : MountOp δ → Prop
  | .mount _ target _ _ => Canonical target
  | .umount _ => True

def MountTable.At (t : MountTable δ) (i : Nat) (m : VfsMount δ) : Prop := t.mounts[i]? = some (some m)

structure Holds (t : MountTable δ) (tab : AbsTable δ) : Prop where
  canonical : ∀ {i m}, t.At i m → Canonical m.mntTarget
  unique : ∀ {i j m m'}, t.At i m → t.At j m' →
    pathComponents m.mntTarget = pathComponents m'.mntTarget → i = j
  mem_iff : ∀ key root, (key, root) ∈ tab ↔
    ∃ i m, t.At i m ∧ pathComponents m.mntTarget = key ∧ m.mntRoot = root
  root_iff : ∀ {i m}, t.At i m → (pathComponents m.mntTarget = [] ↔ t.rootMount = some i)
  root_used : ∀ {i}, t.rootMount = some i → ∃ m, t.At i m ∧ t.rootDentry = some m.mntRoot

theorem holds_vfsInit : Holds (vfsInit : MountTable δ) [] := by
  have hNone : ∀ i m, ¬ (vfsInit : MountTable δ).At i m := by
    intro i m h
    simp [vfsInit, MountTable.At, List.getElem?_replicate] at h
  refine ⟨?_, ?_, ?_, ?_, ?_⟩
  · intro i m h
    exact absurd h (hNone i m)
  · intro i j m m' h
    exact absurd h (hNone i m)
  · intro key root
    simp [hNone]
  · intro i m h
    exact absurd h (hNone i m)
  · intro i h
    cases h

theorem slotByTarget_some {target : List Char} {i : Nat} (h : t.slotByTarget target = some i) :
    ∃ m, t.At i m ∧ pathCompare m.mntTarget target = true := by
  obtain ⟨hLt, hSlot, -⟩ := List.findIdx?_eq_some_iff_getElem.mp h
  cases hm : t.mounts[i] with
  | none => simp [hm] at hSlot
  | some m =>
    refine ⟨m, ?_, by simpa [hm] using hSlot⟩
    rw [MountTable.At, List.getElem?_eq_getElem hLt, hm]

theorem slotByTarget_none {target : List Char} (h : t.slotByTarget target = none) {i : Nat}
    {m : VfsMount δ} (hm : t.At i m) : pathCompare m.mntTarget target = false := by
  have hSlot := List.findIdx?_eq_none_iff.mp h (some m) (List.mem_of_getElem? hm)
  simpa using hSlot

theorem findMountByTarget_none {target : List Char} (h : t.findMountByTarget target = none) :
    t.slotByTarget target = none := by
  cases hSlot : t.slotByTarget target with
  | none => rfl
  | some i =>
    obtain ⟨m, hm, -⟩ := slotByTarget_some hSlot
    rw [MountTable.At] at hm
    simp [MountTable.findMountByTarget, hSlot, List.getD_eq_getElem?_getD, hm] at h

theorem vfsMount_ok {source target fstype : List Char} {fs : FsMount δ}
    (h : (vfsMount t source target fstype fs).2 = 0) :
    (∃ i, t.slotByTarget target = some i) ∧ (vfsMount t source target fstype fs).1 = t ∨
    ∃ sRoot slot, fs = .superBlock sRoot ∧ t.slotByTarget target = none ∧ t.mounts[slot]? = some none ∧
      (vfsMount t source target fstype fs).1 = t.enter slot source target fstype sRoot := by
  unfold vfsMount at h ⊢
  split at h
  · simp [eNoDev] at h
  · cases hFind : t.findMountByTarget target with
    | some m =>
      left
      obtain ⟨i, hi, -⟩ := Option.bind_eq_some_iff.mp hFind
      refine ⟨⟨i, hi⟩, ?_⟩
      simp only
      split <;> rfl
    | none =>
      right
      simp only [hFind] at h ⊢
      split at h
      · simp [eNoMem] at h
      · rename_i hCount
        simp only [hCount, if_false]
        cases fs with
        | unknown => simp [eNoDev] at h
        | noMount => simp [eNoSys] at h
        | failed => simp [eIo] at h
        | superBlock sRoot =>
          simp only at h ⊢
          split at h
          · simp [eNoMem] at h
          · rename_i slot hSlot
            obtain ⟨hLt, hFree, -⟩ := List.findIdx?_eq_some_iff_getElem.mp hSlot
            refine ⟨sRoot, slot, rfl, findMountByTarget_none hFind, ?_, rfl⟩
            rw [List.getElem?_eq_getElem hLt]
            simpa using hFree

theorem at_set {mounts : List (Option (VfsMount δ))} {slot i : Nat} {v : Option (VfsMount δ)}
    {m : VfsMount δ} (hMounts : t.mounts = mounts.set slot v) (hSlot : slot < mounts.length) :
    t.At i m ↔ i = slot ∧ v = some m ∨ i ≠ slot ∧ mounts[i]? = some (some m) := by
  rw [MountTable.At, hMounts]
  by_cases hi : i = slot
  · subst hi
    simp [hSlot]
  · simp [hi, Ne.symm hi]

namespace Holds

variable {tab : AbsTable δ} {source target fstype : List Char} {sRoot : δ} {slot : Nat}

theorem not_at_of_free (hFree : t.mounts[slot]? = some none) (m : VfsMount δ) : ¬ t.At slot m := by
  intro hm
  rw [MountTable.At, hFree] at hm
  simp at hm

theorem components_ne (h : Holds t tab) (hPlain : Canonical target) (hNone : t.slotByTarget target = none)
    {i : Nat} {m : VfsMount δ} (hm : t.At i m) :
    pathComponents m.mntTarget ≠ pathComponents target := by
  intro hEq
  have hCompare := (h.canonical hm).compare hPlain hEq
  simp [slotByTarget_none hNone hm] at hCompare

theorem enter (h : Holds t tab) (hPlain : Canonical target) (hNone : t.slotByTarget target = none)
    (hFree : t.mounts[slot]? = some none) :
    Holds (t.enter slot source target fstype sRoot) ((pathComponents target, sRoot) :: tab) := by
  obtain ⟨hStored, hComps⟩ := hPlain.stored
  have hLt : slot < t.mounts.length := (List.getElem?_eq_some_iff.mp hFree).1
  have hNe : ∀ {i m}, t.At i m → i ≠ slot := by
    rintro i m hm rfl
    exact not_at_of_free hFree m hm
  have hMounts : (t.enter slot source target fstype sRoot).mounts = t.mounts.set slot
      (some ⟨sRoot, pathCopy source 64, pathCopy target 64, pathCopy fstype 32⟩) := by
    unfold MountTable.enter
    split <;> rfl
  have hAt : ∀ {i m}, (t.enter slot source target fstype sRoot).At i m ↔
      i = slot ∧ ⟨sRoot, pathCopy source 64, pathCopy target 64, pathCopy fstype 32⟩ = m ∨
        t.At i m := by
    intro i m
    rw [at_set hMounts hLt, Option.some.injEq]
    exact or_congr Iff.rfl ⟨And.right, fun hm => ⟨hNe hm, hm⟩⟩
  refine ⟨?_, ?_, ?_, ?_, ?_⟩
  · intro i m hm
    obtain ⟨-, rfl⟩ | hm := hAt.mp hm
    · exact hStored
    · exact h.canonical hm
  · intro i j m m' hm hm' hEq
    obtain ⟨rfl, rfl⟩ | hOld := hAt.mp hm
    · obtain ⟨rfl, -⟩ | hOld' := hAt.mp hm'
      · rfl
      · exact absurd (hEq.symm.trans hComps) (h.components_ne hPlain hNone hOld')
    · obtain ⟨rfl, rfl⟩ | hOld' := hAt.mp hm'
      · exact absurd (hEq.trans hComps) (h.components_ne hPlain hNone hOld)
      · exact h.unique hOld hOld' hEq
  · intro key root
    rw [List.mem_cons, h.mem_iff, Prod.mk.injEq]
    constructor
    · rintro (⟨rfl, rfl⟩ | ⟨i, m, hm, hKey⟩)
      · exact ⟨slot, _, hAt.mpr (.inl ⟨rfl, rfl⟩), hComps, rfl⟩
      · exact ⟨i, m, hAt.mpr (.inr hm), hKey⟩
    · rintro ⟨i, m, hm, hKey, hRoot⟩
      obtain ⟨-, rfl⟩ | hm := hAt.mp hm
      · exact .inl ⟨hKey.symm.trans hComps, hRoot.symm⟩
      · exact .inr ⟨i, m, hm, hKey, hRoot⟩
  · intro i m hm
    by_cases hRootTarget : pathCompare target ['/'] = true
    · have hNil := hPlain.compare_root.mp hRootTarget
      simp only [MountTable.enter, hRootTarget, if_true, Option.some.injEq]
      obtain ⟨rfl, rfl⟩ | hm := hAt.mp hm
      · simp [hComps, hNil]
      · have hOther := h.components_ne hPlain hNone hm
        rw [hNil] at hOther
        simp [hOther, (hNe hm).symm]
    · have hNil : pathComponents target ≠ [] := fun hNil => hRootTarget (hPlain.compare_root.mpr hNil)
      simp only [MountTable.enter, hRootTarget, Bool.false_eq_true, if_false]
      obtain ⟨rfl, rfl⟩ | hm := hAt.mp hm
      · refine ⟨fun hEq => absurd (hComps.symm.trans hEq) hNil, fun hRoot => ?_⟩
        obtain ⟨m, hm, -⟩ := h.root_used hRoot
        exact absurd hm (not_at_of_free hFree m)
      · exact h.root_iff hm
  · intro i hRoot
    by_cases hRootTarget : pathCompare target ['/'] = true
    · obtain rfl : slot = i := by simpa [MountTable.enter, hRootTarget] using hRoot
      exact ⟨_, hAt.mpr (.inl ⟨rfl, rfl⟩), by simp [MountTable.enter, hRootTarget]⟩
    · have hOld : t.rootMount = some i := by simpa [MountTable.enter, hRootTarget] using hRoot
      obtain ⟨m, hm, hDentry⟩ := h.root_used hOld
      exact ⟨m, hAt.mpr (.inr hm), by simpa [MountTable.enter, hRootTarget] using hDentry⟩

theorem umount (h : Holds t tab) (hOk : (vfsUmount t target).2 = 0) :
    Holds (vfsUmount t target).1 (tab.filter fun e => e.1 ≠ pathComponents target) := by
  unfold vfsUmount at hOk ⊢
  split at hOk
  · simp [eNoSys] at hOk
  rename_i slot hSlot
  obtain ⟨m₀, hm₀, hCompare⟩ := slotByTarget_some hSlot
  have hKey := pathComponents_of_compare hCompare
  have hLt : slot < t.mounts.length := (List.getElem?_eq_some_iff.mp hm₀).1
  generalize hT : (if t.rootMount = some slot then { t with rootMount := none, rootDentry := none }
    else t) = t₁ at hOk ⊢
  have hMounts : t₁.mounts = t.mounts := by rw [← hT]; split <;> rfl
  have hAt : ∀ {i m}, MountTable.At { t₁ with
      mounts := t₁.mounts.set slot none, mountCount := t₁.mountCount - 1 } i m ↔ i ≠ slot ∧ t.At i m := by
    intro i m
    rw [at_set (congrArg (fun mounts => mounts.set slot none) hMounts) hLt]
    simp [MountTable.At]
  refine ⟨?_, ?_, ?_, ?_, ?_⟩
  · intro i m hm
    exact h.canonical (hAt.mp hm).2
  · intro i j m m' hm hm' hEq
    exact h.unique (hAt.mp hm).2 (hAt.mp hm').2 hEq
  · intro key root
    rw [List.mem_filter, h.mem_iff]
    simp only [decide_eq_true_eq]
    constructor
    · rintro ⟨⟨i, m, hm, hEq, hRoot⟩, hOther⟩
      refine ⟨i, m, hAt.mpr ⟨?_, hm⟩, hEq, hRoot⟩
      rintro rfl
      obtain rfl : m = m₀ := by
        rw [MountTable.At, hm₀] at hm
        simpa using hm.symm
      exact hOther (hEq.symm.trans hKey)
    · rintro ⟨i, m, hm, hEq, hRoot⟩
      obtain ⟨hi, hm⟩ := hAt.mp hm
      refine ⟨⟨i, m, hm, hEq, hRoot⟩, fun hSame => hi (h.unique hm hm₀ ?_)⟩
      rw [hEq, hSame, hKey]
  · intro i m hm
    obtain ⟨hi, hm⟩ := hAt.mp hm
    rw [h.root_iff hm, ← hT]
    split
    · rename_i hRoot
      simp [hRoot, hi.symm]
    · rfl
  · intro i hRoot
    rw [← hT] at hRoot ⊢
    split at hRoot
    · cases hRoot
    · rename_i hNotRoot
      simp only [hNotRoot, if_false]
      obtain ⟨m, hm, hDentry⟩ := h.root_used hRoot
      have hi : i ≠ slot := by
        rintro rfl
        exact hNotRoot hRoot
      rw [if_neg hNotRoot] at hT
      subst hT
      exact ⟨m, hAt.mpr ⟨hi, hm⟩, hDentry⟩

theorem step (h : Holds t tab) {op : MountOp δ} (hPlain : op.Plain) (hOk : (t.step op).2 = 0) :
    Holds (t.step op).1 (tab.step op) := by
  cases op with
  | umount target => exact h.umount hOk
  | mount source target fstype fs =>
    have hPlain : Canonical target := hPlain
    obtain ⟨⟨i, hSlot⟩, hSame⟩ | ⟨sRoot, slot, rfl, hNone, hFree, hNew⟩ := vfsMount_ok hOk
    · simp only [MountTable.step, hSame]
      obtain ⟨m, hm, hCompare⟩ := slotByTarget_some hSlot
      have hEntry : ∃ e ∈ tab, e.1 = pathComponents target :=
        ⟨_, (h.mem_iff _ _).mpr ⟨i, m, hm, pathComponents_of_compare hCompare, rfl⟩, rfl⟩
      cases fs with
      | superBlock sRoot => simpa only [AbsTable.step, hEntry, if_true] using h
      | unknown => exact h
      | noMount => exact h
      | failed => exact h
    · simp only [MountTable.step, hNew]
      have hEntry : ¬ ∃ e ∈ tab, e.1 = pathComponents target := by
        rintro ⟨⟨key, root⟩, hMem, rfl⟩
        obtain ⟨i, m, hm, hEq, -⟩ := (h.mem_iff _ _).mp hMem
        exact h.components_ne hPlain hNone hm hEq
      simpa only [AbsTable.step, hEntry, if_false] using h.enter hPlain hNone hFree

theorem run (h : Holds t tab) {ops : List (MountOp δ)} (hPlain : ∀ op ∈ ops, op.Plain)
    (hOk : t.AllSucceed ops) : Holds (t.run ops) (tab.run ops) := by
  induction ops generalizing t tab with
  | nil => exact h
  | cons op ops ih =>
    exact ih (h.step (hPlain op (by simp)) hOk.1) (fun op' hop => hPlain op' (by simp [hop])) hOk.2

end Holds

section Resolve

structure BestOf (path : List Char) (slots : List (Option (VfsMount δ)))
    (best : Option (VfsMount δ) × Nat) : Prop where
  none : best.1 = none → best.2 = 0 ∧ ∀ m, some m ∈ slots → pathHasMountPrefix path m.mntTarget = none
  mem : ∀ m, best.1 = some m → some m ∈ slots ∧ pathHasMountPrefix path m.mntTarget = some best.2
  max : ∀ m len, some m ∈ slots → pathHasMountPrefix path m.mntTarget = some len → len ≤ best.2

theorem bestOf_better {slots : List (Option (VfsMount δ))} {best : Option (VfsMount δ) × Nat}
    (h : BestOf path slots best) (slot : Option (VfsMount δ)) :
    BestOf path (slots ++ [slot]) (MountTable.better path best slot) := by
  cases slot with
  | none =>
    refine ⟨?_, ?_, ?_⟩
    · simpa [MountTable.better] using h.none
    · simpa [MountTable.better] using h.mem
    · simpa [MountTable.better] using h.max
  | some m =>
    cases hMatch : pathHasMountPrefix path m.mntTarget with
    | none =>
      simp only [MountTable.better, hMatch]
      refine ⟨?_, ?_, ?_⟩
      · intro hBest
        refine ⟨(h.none hBest).1, fun m' hm' => ?_⟩
        obtain hOld | hNew := List.mem_append.mp hm'
        · exact (h.none hBest).2 m' hOld
        · obtain rfl : m' = m := by simpa using hNew
          exact hMatch
      · intro m' hBest
        exact ⟨List.mem_append_left _ (h.mem m' hBest).1, (h.mem m' hBest).2⟩
      · intro m' len hm' hLen
        obtain hOld | hNew := List.mem_append.mp hm'
        · exact h.max m' len hOld hLen
        · obtain rfl : m' = m := by simpa using hNew
          simp [hMatch] at hLen
    | some n =>
      simp only [MountTable.better, hMatch]
      split
      · rename_i hLonger
        refine ⟨by simp, ?_, ?_⟩
        · rintro m' hBest
          obtain rfl : m = m' := by simpa using hBest
          exact ⟨by simp, hMatch⟩
        · intro m' len hm' hLen
          obtain hOld | hNew := List.mem_append.mp hm'
          · exact Nat.le_trans (h.max m' len hOld hLen) hLonger
          · obtain rfl : m' = m := by simpa using hNew
            rw [hMatch] at hLen
            simp only [Option.some.injEq] at hLen
            exact Nat.le_of_eq hLen.symm
      · rename_i hShorter
        refine ⟨?_, ?_, ?_⟩
        · intro hBest
          have hZero := (h.none hBest).1
          omega
        · intro m' hBest
          exact ⟨List.mem_append_left _ (h.mem m' hBest).1, (h.mem m' hBest).2⟩
        · intro m' len hm' hLen
          obtain hOld | hNew := List.mem_append.mp hm'
          · exact h.max m' len hOld hLen
          · obtain rfl : m' = m := by simpa using hNew
            rw [hMatch] at hLen
            simp only [Option.some.injEq] at hLen
            omega

theorem findMountForPath_best (t : MountTable δ) (path : List Char) :
    BestOf path t.mounts (t.findMountForPath path) := by
  unfold MountTable.findMountForPath
  induction t.mounts using List.reverseRecOn with
  | nil => exact ⟨by simp, by simp, by simp⟩
  | append_singleton slots slot ih =>
    rw [List.foldl_append]
    exact bestOf_better ih slot

/-- The path goes to `root`, with the components after the first `n` left. -/
def RoutesTo (t : MountTable δ) (path : List Char) (root : δ) (n : Nat) : Prop :=
  (t.resolvePathRoot path).1 = some root ∧
    pathComponents (t.resolvePathRoot path).2 = (pathComponents path).drop n

/-- The path starts with the characters of the target that has the components `key`. -/
def SpellsOut (path : List Char) (key : List (List Char)) : Prop :=
  ∃ rest, path = render key ++ rest ∧ AtBoundary rest

variable {tab : AbsTable δ}

theorem Holds.resolve (h : Holds t tab) (path : List Char) :
    (∃ i m, t.At i m ∧ pathHasMountPrefix path m.mntTarget = some m.mntTarget.length ∧
      m.mntTarget <+: path ∧ pathComponents m.mntTarget <+: pathComponents path ∧
      (∀ j m' len, t.At j m' → pathHasMountPrefix path m'.mntTarget = some len →
        len ≤ m.mntTarget.length) ∧
      RoutesTo t path m.mntRoot (pathComponents m.mntTarget).length) ∨
    ((∀ i m, t.At i m → pathHasMountPrefix path m.mntTarget = none) ∧
      t.resolvePathRoot path = (t.rootDentry, path)) := by
  have hBest := findMountForPath_best t path
  rcases hFind : t.findMountForPath path with ⟨- | m, len⟩
  · right
    rw [hFind] at hBest
    refine ⟨fun i m hm => (hBest.none rfl).2 m (List.mem_of_getElem? hm), ?_⟩
    simp [MountTable.resolvePathRoot, hFind]
  · left
    rw [hFind] at hBest
    obtain ⟨hMem, hMatch⟩ := hBest.mem m rfl
    obtain ⟨i, hm⟩ := List.mem_iff_getElem?.mp hMem
    obtain ⟨hComps, rfl, hText⟩ := (h.canonical hm).match_sound hMatch
    refine ⟨i, m, hm, hMatch, hText, ⟨_, hComps.symm⟩, ?_, ?_, ?_⟩
    · intro j m' len' hm' hLen
      exact hBest.max m' len' (List.mem_of_getElem? hm') hLen
    · simp [MountTable.resolvePathRoot, hFind]
    · simp only [MountTable.resolvePathRoot, hFind, pathComponents_dropWhile]
      rw [hComps, List.drop_left]

theorem Canonical.eq_render {a : List Char} {key : List (List Char)} (h : Canonical a)
    (hKey : pathComponents a = key) (hNe : key ≠ []) : a = render key ∧ ∀ c ∈ key, IsComponent c := by
  cases h with
  | root _ _ hAll => exact absurd (hKey.symm.trans (pathComponents_slashes hAll)) hNe
  | below cs _ hCs =>
    obtain rfl := (pathComponents_render hCs).symm.trans hKey
    exact ⟨rfl, hCs⟩

theorem prefix_eq {cs ds es : List (List Char)} (h : cs <+: es) (h' : ds <+: es)
    (hLen : cs.length = ds.length) : cs = ds :=
  (List.prefix_of_prefix_length_le h h' (Nat.le_of_eq hLen)).eq_of_length hLen

theorem Canonical.key_eq {a : List Char} {key : List (List Char)} (h : Canonical a) (hNe : key ≠ [])
    (hKey : ∀ c ∈ key, IsComponent c) (hText : a <+: path) (hComps : pathComponents a <+: pathComponents path)
    (hPrefix : key <+: pathComponents path) (hFewer : (pathComponents a).length ≤ key.length)
    (hSpells : SpellsOut path key) (hLonger : (render key).length ≤ a.length) : pathComponents a = key := by
  obtain ⟨rest, hPath, -⟩ := hSpells
  cases h with
  | root _ _ hAll =>
    have hInside : render key <+: a :=
      List.prefix_of_prefix_length_le (by rw [hPath]; exact List.prefix_append ..) hText hLonger
    have hSlashes : ∀ x ∈ render key, x = '/' := fun x hx => hAll x (hInside.subset hx)
    have hNil := pathComponents_slashes hSlashes
    rw [pathComponents_render hKey] at hNil
    exact absurd hNil hNe
  | below cs _ hCs =>
    rw [pathComponents_render hCs] at hComps hFewer ⊢
    have hNested : cs <+: key := List.prefix_of_prefix_length_le hComps hPrefix hFewer
    refine hNested.eq_of_length (Nat.le_antisymm hFewer ?_)
    by_contra hLt
    have hShorter := length_render_lt hNested (Nat.lt_of_not_le hLt)
    omega

theorem Holds.routes_iff (h : Holds t tab) {key : List (List Char)} {root : δ}
    (hMem : (key, root) ∈ tab) (hPrefix : key <+: pathComponents path)
    (hLongest : ∀ key' root', (key', root') ∈ tab → key' <+: pathComponents path →
      key'.length ≤ key.length) :
    RoutesTo t path root key.length ↔ key = [] ∨ SpellsOut path key := by
  obtain ⟨i₀, m₀, hm₀, hKey, rfl⟩ := (h.mem_iff key root).mp hMem
  have hShort := hPrefix.length_le
  obtain ⟨i, m, hm, hMatch, hText, hComps, hMax, hRoutes⟩ | ⟨hNone, hFall⟩ := h.resolve path
  · have hFewer := hLongest _ _ ((h.mem_iff _ _).mpr ⟨i, m, hm, rfl, rfl⟩) hComps
    have hSame : pathComponents m.mntTarget = key → RoutesTo t path m₀.mntRoot key.length := by
      intro hEq
      obtain rfl := h.unique hm hm₀ (hEq.trans hKey.symm)
      obtain rfl : m = m₀ := by
        rw [MountTable.At, hm₀] at hm
        simpa using hm.symm
      exact hEq ▸ hRoutes
    by_cases hNil : key = []
    · subst hNil
      simp only [true_or, iff_true]
      exact hSame (List.length_eq_zero_iff.mp (Nat.le_zero.mp hFewer))
    · obtain ⟨-, hIsKey⟩ := (h.canonical hm₀).eq_render hKey hNil
      simp only [hNil, false_or]
      constructor
      · intro hRight
        have hLen := congrArg List.length (hRight.2.symm.trans hRoutes.2)
        simp only [List.length_drop] at hLen
        have hEq : pathComponents m.mntTarget = key := prefix_eq hComps hPrefix (by omega)
        obtain ⟨hRender, -⟩ := (h.canonical hm).eq_render hEq hNil
        rw [hRender] at hMatch
        exact (match_inv (render_ne_root hNil hIsKey) hMatch).2
      · intro hSpells
        apply hSame
        obtain ⟨rest, hPath, hRest⟩ := hSpells
        obtain ⟨hRender, -⟩ := (h.canonical hm₀).eq_render hKey hNil
        have hFound := match_complete hNil hIsKey hRest
        rw [← hPath, ← hRender] at hFound
        have hLonger := hMax i₀ m₀ _ hm₀ hFound
        rw [hRender] at hLonger
        exact (h.canonical hm).key_eq hNil hIsKey hText hComps hPrefix hFewer ⟨rest, hPath, hRest⟩ hLonger
  · by_cases hNil : key = []
    · subst hNil
      simp only [true_or, iff_true, RoutesTo, hFall, List.length_nil, List.drop_zero, and_true]
      obtain ⟨m, hm, hDentry⟩ := h.root_used ((h.root_iff hm₀).mp hKey)
      obtain rfl : m = m₀ := by
        rw [MountTable.At, hm₀] at hm
        simpa using hm.symm
      exact hDentry
    · obtain ⟨hRender, hIsKey⟩ := (h.canonical hm₀).eq_render hKey hNil
      have hPos := List.length_pos_iff.mpr hNil
      simp only [hNil, false_or]
      constructor
      · rintro ⟨-, hRest⟩
        rw [hFall] at hRest
        have hLen := congrArg List.length hRest
        simp only [List.length_drop] at hLen
        omega
      · rintro ⟨rest, hPath, hRest⟩
        have hFound := match_complete hNil hIsKey hRest
        rw [← hPath, ← hRender, hNone i₀ m₀ hm₀] at hFound
        cases hFound

/-- For targets in their shortest spelling, the longest target is chosen exactly when the path spells
it out. -/
theorem mount_routing_iff (ops : List (MountOp δ)) (path : List Char) (key : List (List Char)) (root : δ)
    (hPlain : ∀ op ∈ ops, op.Plain) (hOk : (vfsInit : MountTable δ).AllSucceed ops)
    (hMem : (key, root) ∈ AbsTable.run [] ops) (hPrefix : key <+: pathComponents path)
    (hLongest : ∀ key' root', (key', root') ∈ AbsTable.run [] ops →
      key' <+: pathComponents path → key'.length ≤ key.length) :
    RoutesTo ((vfsInit : MountTable δ).run ops) path root key.length ↔
      key = [] ∨ SpellsOut path key :=
  (holds_vfsInit.run hPlain hOk).routes_iff hMem hPrefix hLongest

theorem mount_routing_nested :
    RoutesTo ((vfsInit : MountTable Nat).run [.mount [] ['/'] [] (.superBlock 1),
      .mount [] ['/', 'm', '/', 'n'] [] (.superBlock 2)]) ['/', 'm', '/', 'n', '/', '/', 'f'] 2 2 :=
  (mount_routing_iff [.mount [] ['/'] [] (.superBlock 1), .mount [] ['/', 'm', '/', 'n'] [] (.superBlock 2)]
    ['/', 'm', '/', 'n', '/', '/', 'f'] [['m'], ['n']] 2
    (by
      intro op hop
      simp only [List.mem_cons, List.not_mem_nil, or_false] at hop
      obtain rfl | rfl := hop
      · exact .root ['/'] (by decide) (by simp)
      · exact .below [['m'], ['n']] (by decide) (by
          intro c hc
          simp only [List.mem_cons, List.not_mem_nil, or_false] at hc
          obtain rfl | rfl := hc
          · exact ⟨by decide, by simp⟩
          · exact ⟨by decide, by simp⟩) (by decide))
    ⟨by decide, by decide, trivial⟩ (by decide) (by decide)
    (by
      intro key root hKey _
      have hTable : AbsTable.run [] [.mount [] ['/'] [] (.superBlock 1),
          .mount [] ['/', 'm', '/', 'n'] [] (.superBlock 2)] = [([['m'], ['n']], 2), ([], 1)] := by decide
      rw [hTable] at hKey
      simp only [List.mem_cons, Prod.mk.injEq, List.not_mem_nil, or_false] at hKey
      obtain ⟨rfl, -⟩ | ⟨rfl, -⟩ := hKey
      · decide
      · decide)).mpr (.inr ⟨['/', '/', 'f'], rfl, .inr ⟨_, rfl⟩⟩)

theorem mount_routing_misses_trailing_slash :
    (vfsInit : MountTable Nat).AllSucceed [.mount [] ['/'] [] (.superBlock 1),
      .mount [] ['/', 'm', '/'] [] (.superBlock 2)] ∧
    AbsTable.run [] [.mount [] ['/'] [] (.superBlock 1),
      .mount [] ['/', 'm', '/'] [] (.superBlock 2)] = [([['m']], 2), ([], 1)] ∧
    pathComponents ['/', 'm', '/', 'f'] = [['m'], ['f']] ∧
    ((vfsInit : MountTable Nat).run [.mount [] ['/'] [] (.superBlock 1),
      .mount [] ['/', 'm', '/'] [] (.superBlock 2)]).resolvePathRoot ['/', 'm', '/', 'f'] =
        (some 1, ['m', '/', 'f']) ∧
    ¬ RoutesTo ((vfsInit : MountTable Nat).run [.mount [] ['/'] [] (.superBlock 1),
      .mount [] ['/', 'm', '/'] [] (.superBlock 2)]) ['/', 'm', '/', 'f'] 2 1 := by
  refine ⟨⟨by decide, by decide, trivial⟩, by decide, by decide, by decide, ?_⟩
  rintro ⟨hRoot, -⟩
  exact absurd hRoot (by decide)

end Resolve

end Tables

end UnixOS.Fs
