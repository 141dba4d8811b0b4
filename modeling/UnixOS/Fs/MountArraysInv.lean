import UnixOS.Fs.MountArrays
import Mathlib.Data.List.Find

/-! # The mount table stays in one piece

Flags, pointers, count and root agree after every sequence of mounts and unmounts, and taking back a
mount that made an entry restores every array.
-/

namespace UnixOS.Fs.MountArrays

variable {δ : Type*} {t : MountArrays δ} {i slot : Nat} {source target fstype : List Char} {sRoot : δ}

structure Flags (t : MountArrays δ) : Prop where
  used_iff : ∀ i < maxMounts, t.mountSlotUsed i = true ↔ t.mounts i = some i
  null_or_own : ∀ i < maxMounts, t.mounts i = none ∨ t.mounts i = some i
  count_used : t.mountCount = t.used.card
  count_entries : t.mountCount = t.entries.card

structure Records (t : MountArrays δ) : Prop where
  distinct : ∀ i ∈ t.used, ∀ j ∈ t.used,
    pathCompare (t.mountPool i).mntTarget (t.mountPool j).mntTarget = true → i = j
  mounted : ∀ i ∈ t.used, (t.mountPool i).mntRoot.isSome
  free : ∀ i < maxMounts, i ∉ t.used → t.mountPool i = .blank
  root_mount : ∀ i, t.rootMount = some i ↔
    i ∈ t.used ∧ pathCompare (t.mountPool i).mntTarget ['/'] = true
  root_dentry : t.rootDentry = t.rootMount.bind fun i => (t.mountPool i).mntRoot

structure Inv (t : MountArrays δ) : Prop extends Flags t, Records t

theorem mem_used : i ∈ t.used ↔ i < maxMounts ∧ t.mountSlotUsed i = true := by
  simp [used]

theorem mem_entries : i ∈ t.entries ↔ i < maxMounts ∧ (t.mounts i).isSome := by
  simp [entries]

theorem used_eq_entries (hUsed : ∀ i < maxMounts, t.mountSlotUsed i = true ↔ t.mounts i = some i)
    (hNull : ∀ i < maxMounts, t.mounts i = none ∨ t.mounts i = some i) : t.used = t.entries := by
  ext i
  rw [mem_used, mem_entries]
  refine and_congr_right fun hLt => ?_
  rw [hUsed i hLt]
  obtain hNone | hOwn := hNull i hLt
  · simp [hNone]
  · simp [hOwn]

theorem Inv.mounts_eq (h : t.Inv) (hLt : i < maxMounts) :
    t.mounts i = if i ∈ t.used then some i else none := by
  split
  case isTrue hUsed => exact (h.used_iff i hLt).mp (mem_used.mp hUsed).2
  case isFalse hFree =>
    refine (h.null_or_own i hLt).resolve_right fun hOwn => hFree ?_
    exact mem_used.mpr ⟨hLt, (h.used_iff i hLt).mpr hOwn⟩

theorem inv_init : (init : MountArrays δ).Inv where
  used_iff := by simp [init]
  null_or_own := by simp [init]
  count_used := by simp [init, used]
  count_entries := by simp [init, entries]
  distinct := by simp [init, used]
  mounted := by simp [init, used]
  free := by simp [init]
  root_mount := by simp [init, used]
  root_dentry := rfl

theorem compare_iff {a b : List Char} : pathCompare a b = true ↔ trimSlashes a = trimSlashes b := by
  simp [pathCompare]

/-! ### Searches -/

theorem Inv.names_iff (h : t.Inv) (hLt : i < maxMounts) :
    t.names target i = true ↔ i ∈ t.used ∧ pathCompare (t.mountPool i).mntTarget target = true := by
  rw [names, h.mounts_eq hLt]
  split
  case isTrue hUsed => simp [hUsed]
  case isFalse hFree => simp [hFree]

theorem Inv.mountedOn_eq (h : t.Inv) (hLt : i < maxMounts) :
    t.mountedOn target i = t.names target i := by
  rw [mountedOn, names, h.mounts_eq hLt]
  split
  case isTrue hUsed => simp [h.mounted i hUsed]
  case isFalse hFree => rfl

theorem Inv.findMountByTarget_none (h : t.Inv) (hNone : t.findMountByTarget target = none) :
    ∀ i ∈ t.used, pathCompare (t.mountPool i).mntTarget target = false := by
  intro i hUsed
  have hLt := (mem_used.mp hUsed).1
  rw [← Bool.not_eq_true]
  intro hSame
  have hNames := (h.names_iff hLt).mpr ⟨hUsed, hSame⟩
  rw [findMountByTarget] at hNone
  cases hFind : (List.range maxMounts).find? (t.names target) with
  | none => exact List.find?_eq_none.mp hFind i (List.mem_range.mpr hLt) hNames
  | some j =>
    have hj : j < maxMounts := List.mem_range.mp (List.mem_of_find?_eq_some hFind)
    have hUsedj := ((h.names_iff hj).mp (List.find?_some hFind)).1
    rw [hFind, Option.bind_some, h.mounts_eq hj, if_pos hUsedj] at hNone
    cases hNone

theorem find?_range_unique {n : Nat} {f : Nat → Bool} (hLt : i < n) (hi : f i = true)
    (hUnique : ∀ j < n, f j = true → j = i) : (List.range n).find? f = some i := by
  cases hFind : (List.range n).find? f with
  | none => exact absurd hi (List.find?_eq_none.mp hFind i (List.mem_range.mpr hLt))
  | some j =>
    have hj := List.mem_range.mp (List.mem_of_find?_eq_some hFind)
    rw [hUnique j hj (List.find?_some hFind)]

/-! ### Entering a mount -/

theorem pathCopy_of_fits (h : target.length < 64) : pathCopy target 64 = target :=
  List.take_of_length_le (Nat.le_of_lt_succ h)

theorem enter_eq : t.enter slot source target fstype sRoot =
    { mounts := Function.update t.mounts slot (some slot)
      mountPool := Function.update t.mountPool slot
        ⟨some sRoot, t.rootMount, pathCopy source 64, pathCopy target 64, pathCopy fstype 32⟩
      mountSlotUsed := Function.update t.mountSlotUsed slot true
      mountCount := t.mountCount + 1
      rootMount := if pathCompare target ['/'] then some slot else t.rootMount
      rootDentry := if pathCompare target ['/'] then some sRoot else t.rootDentry } := by
  unfold enter
  dsimp only
  split <;> rfl

theorem used_enter (hLt : slot < maxMounts) :
    (t.enter slot source target fstype sRoot).used = insert slot t.used := by
  ext i
  simp only [mem_used, enter_eq, Finset.mem_insert, Function.update_apply]
  split
  case isTrue hSame => simp [hSame, hLt]
  case isFalse hOther => simp [hOther]

theorem Flags.of_count (hUsed : ∀ i < maxMounts, t.mountSlotUsed i = true ↔ t.mounts i = some i)
    (hNull : ∀ i < maxMounts, t.mounts i = none ∨ t.mounts i = some i)
    (hCount : t.mountCount = t.used.card) : t.Flags :=
  ⟨hUsed, hNull, hCount, hCount.trans (congrArg _ (used_eq_entries hUsed hNull))⟩

theorem Flags.enter (h : t.Flags) (hLt : slot < maxMounts) (hFree : slot ∉ t.used) :
    (t.enter slot source target fstype sRoot).Flags := by
  apply Flags.of_count
  · intro i hi
    simp only [enter_eq, Function.update_apply]
    split
    case isTrue hSame => simp [hSame]
    case isFalse hOther => exact h.used_iff i hi
  · intro i hi
    simp only [enter_eq, Function.update_apply]
    split
    case isTrue hSame => exact Or.inr (congrArg some hSame.symm)
    case isFalse hOther => exact h.null_or_own i hi
  · rw [used_enter hLt, Finset.card_insert_of_notMem hFree, ← h.count_used, enter_eq]

theorem Records.enter (h : t.Records) (hLt : slot < maxMounts) (hFree : slot ∉ t.used)
    (hFits : target.length < 64)
    (hNew : ∀ i ∈ t.used, pathCompare (t.mountPool i).mntTarget target = false) :
    (t.enter slot source target fstype sRoot).Records := by
  have hUsed : (t.enter slot source target fstype sRoot).used = insert slot t.used := used_enter hLt
  have hStored := pathCopy_of_fits hFits
  generalize hAfter : t.enter slot source target fstype sRoot = t'
  rw [hAfter] at hUsed
  rw [enter_eq, hStored] at hAfter
  have hHere : t'.mountPool slot = ⟨some sRoot, t.rootMount, pathCopy source 64, target, pathCopy fstype 32⟩ := by
    rw [← hAfter]
    exact Function.update_self ..
  have hOther : ∀ i, i ≠ slot → t'.mountPool i = t.mountPool i := by
    intro i hi
    rw [← hAfter]
    exact Function.update_of_ne hi ..
  have hPool : ∀ i ∈ t.used, t'.mountPool i = t.mountPool i := fun i hi =>
    hOther i fun hSame => hFree (hSame ▸ hi)
  refine ⟨?_, ?_, ?_, ?_, ?_⟩
  · rw [hUsed]
    intro i hi j hj hSame
    rw [Finset.mem_insert] at hi hj
    obtain rfl | hi := hi
    · obtain rfl | hj := hj
      · rfl
      · rw [hHere, hPool j hj, compare_iff] at hSame
        exact absurd (compare_iff.mpr hSame.symm) (Bool.eq_false_iff.mp (hNew j hj))
    · obtain rfl | hj := hj
      · rw [hHere, hPool i hi] at hSame
        exact absurd hSame (Bool.eq_false_iff.mp (hNew i hi))
      · rw [hPool i hi, hPool j hj] at hSame
        exact h.distinct i hi j hj hSame
  · rw [hUsed]
    intro i hi
    obtain rfl | hi := Finset.mem_insert.mp hi
    · rw [hHere]
      rfl
    · rw [hPool i hi]
      exact h.mounted i hi
  · rw [hUsed]
    intro i hi hOut
    rw [Finset.mem_insert, not_or] at hOut
    rw [hOther i hOut.1]
    exact h.free i hi hOut.2
  · intro i
    have hMount : t'.rootMount = if pathCompare target ['/'] then some slot else t.rootMount := by
      rw [← hAfter]
    rw [hUsed, Finset.mem_insert, hMount]
    by_cases hSlot : i = slot
    · subst hSlot
      rw [hHere]
      split
      case isTrue hRoot => simp [hRoot]
      case isFalse hRoot =>
        refine iff_of_false ?_ fun hBoth => hRoot hBoth.2
        exact fun hOld => hFree ((h.root_mount i).mp hOld).1
    · rw [hOther i hSlot, or_iff_right hSlot]
      split
      case isTrue hRoot =>
        refine iff_of_false (fun hSame => hSlot (Option.some.inj hSame).symm) ?_
        rintro ⟨hi, hTop⟩
        have hSame := compare_iff.mpr ((compare_iff.mp hTop).trans (compare_iff.mp hRoot).symm)
        exact absurd hSame (Bool.eq_false_iff.mp (hNew i hi))
      case isFalse hRoot => exact h.root_mount i
  · have hDentry : t'.rootDentry = if pathCompare target ['/'] then some sRoot else t.rootDentry := by
      rw [← hAfter]
    have hMount : t'.rootMount = if pathCompare target ['/'] then some slot else t.rootMount := by
      rw [← hAfter]
    rw [hDentry, hMount]
    split
    case isTrue hRoot => rw [Option.bind_some, hHere]
    case isFalse hRoot =>
      rw [h.root_dentry]
      cases hTop : t.rootMount with
      | none => rfl
      | some i => rw [Option.bind_some, Option.bind_some, hPool i ((h.root_mount i).mp hTop).1]

/-! ### Leaving -/

theorem leave_eq (hLt : slot < maxMounts) : t.leave slot slot =
    { mounts := Function.update t.mounts slot none
      mountPool := Function.update t.mountPool slot .blank
      mountSlotUsed := Function.update t.mountSlotUsed slot false
      mountCount := t.mountCount - 1
      rootMount := if t.rootMount = some slot then none else t.rootMount
      rootDentry := if t.rootMount = some slot then none else t.rootDentry } := by
  unfold leave
  dsimp only
  rw [if_pos hLt]
  split <;> rfl

theorem used_leave (hLt : slot < maxMounts) : (t.leave slot slot).used = t.used.erase slot := by
  ext i
  simp only [mem_used, leave_eq hLt, Finset.mem_erase, Function.update_apply]
  split
  case isTrue hSame => simp [hSame]
  case isFalse hOther => simp [hOther]

theorem Flags.leave (h : t.Flags) (hUsed : slot ∈ t.used) : (t.leave slot slot).Flags := by
  have hLt := (mem_used.mp hUsed).1
  apply Flags.of_count
  · intro i hi
    simp only [leave_eq hLt, Function.update_apply]
    split
    case isTrue hSame => simp
    case isFalse hOther => exact h.used_iff i hi
  · intro i hi
    simp only [leave_eq hLt, Function.update_apply]
    split
    case isTrue hSame => exact Or.inl rfl
    case isFalse hOther => exact h.null_or_own i hi
  · rw [used_leave hLt, Finset.card_erase_of_mem hUsed, ← h.count_used, leave_eq hLt]

theorem Records.leave (h : t.Records) (hUsed : slot ∈ t.used) : (t.leave slot slot).Records := by
  have hLt := (mem_used.mp hUsed).1
  have hRest := used_leave (t := t) hLt
  generalize hAfter : t.leave slot slot = t'
  rw [hAfter] at hRest
  rw [leave_eq hLt] at hAfter
  have hPool : ∀ i ∈ t'.used, t'.mountPool i = t.mountPool i := by
    intro i hi
    rw [hRest, Finset.mem_erase] at hi
    rw [← hAfter]
    exact Function.update_of_ne hi.1 ..
  have hKept : ∀ i ∈ t'.used, i ∈ t.used := fun i hi => Finset.mem_of_mem_erase (hRest ▸ hi)
  have hMount : t'.rootMount = if t.rootMount = some slot then none else t.rootMount := by
    rw [← hAfter]
  have hDentry : t'.rootDentry = if t.rootMount = some slot then none else t.rootDentry := by
    rw [← hAfter]
  have hRoot : ∀ i, t'.rootMount = some i ↔
      i ∈ t'.used ∧ pathCompare (t'.mountPool i).mntTarget ['/'] = true := by
    intro i
    rw [hMount]
    constructor
    · intro hTop
      split at hTop
      case isTrue hSame => cases hTop
      case isFalse hOther =>
        obtain ⟨hi, hCompare⟩ := (h.root_mount i).mp hTop
        have hLeft : i ∈ t'.used := by
          rw [hRest, Finset.mem_erase]
          exact ⟨fun hSame => hOther (hSame ▸ hTop), hi⟩
        rw [hPool i hLeft]
        exact ⟨hLeft, hCompare⟩
    · rintro ⟨hLeft, hCompare⟩
      rw [hPool i hLeft] at hCompare
      have hTop := (h.root_mount i).mpr ⟨hKept i hLeft, hCompare⟩
      rw [hRest, Finset.mem_erase] at hLeft
      rw [hTop, if_neg fun hSame => hLeft.1 (Option.some.inj hSame)]
  refine ⟨?_, ?_, ?_, hRoot, ?_⟩
  · intro i hi j hj hSame
    rw [hPool i hi, hPool j hj] at hSame
    exact h.distinct i (hKept i hi) j (hKept j hj) hSame
  · intro i hi
    rw [hPool i hi]
    exact h.mounted i (hKept i hi)
  · intro i hi hOut
    rw [← hAfter]
    dsimp only
    rw [Function.update_apply]
    split
    case isTrue hSame => rfl
    case isFalse hOther =>
      refine h.free i hi fun hMem => hOut ?_
      rw [hRest, Finset.mem_erase]
      exact ⟨hOther, hMem⟩
  · cases hTop : t'.rootMount with
    | none =>
      rw [hMount] at hTop
      rw [hDentry, Option.bind_none]
      split
      case isTrue hSame => rfl
      case isFalse hOther =>
        rw [if_neg hOther] at hTop
        rw [h.root_dentry, hTop, Option.bind_none]
    | some i =>
      have hLeft := ((hRoot i).mp hTop).1
      rw [Option.bind_some, hPool i hLeft, hDentry]
      rw [hMount] at hTop
      split
      case isTrue hSame =>
        rw [if_pos hSame] at hTop
        cases hTop
      case isFalse hOther =>
        rw [if_neg hOther] at hTop
        rw [h.root_dentry, hTop, Option.bind_some]

/-! ### Calls -/

theorem idle {e : Int} (he : e ≠ 0) {P : Prop} : (t, e).1 = t ∧ ((t, e).2 = 0 → P) :=
  ⟨rfl, fun hZero => absurd hZero he⟩

theorem vfsMount_cases (t : MountArrays δ) (source target fstype : List Char) (fs : FsMount δ) :
    (t.vfsMount source target fstype fs).1 = t ∧
        ((t.vfsMount source target fstype fs).2 = 0 → t.findMountByTarget target ≠ none) ∨
      ∃ sRoot slot, t.findMountByTarget target = none ∧ slot < maxMounts ∧ slot ∉ t.used ∧
        t.vfsMount source target fstype fs = (t.enter slot source target fstype sRoot, 0) := by
  unfold vfsMount
  split
  case h_1 => exact Or.inl (idle (by decide))
  case h_2 hKnown =>
    cases hFind : t.findMountByTarget target with
    | some existing =>
      refine Or.inl ⟨?_, fun _ => Option.some_ne_none existing⟩
      dsimp only
      split <;> rfl
    | none =>
      dsimp only
      split
      case isTrue hFull => exact Or.inl (idle (by decide))
      case isFalse hRoom =>
        cases fs with
        | unknown => exact Or.inl (idle (by decide))
        | noMount => exact Or.inl (idle (by decide))
        | failed => exact Or.inl (idle (by decide))
        | superBlock sRoot =>
          dsimp only
          split
          case h_1 hNoSlot => exact Or.inl (idle (by decide))
          case h_2 slot hSlot =>
            have hLt := List.mem_range.mp (List.mem_of_find?_eq_some hSlot)
            have hFlag : t.mountSlotUsed slot = false := by simpa using List.find?_some hSlot
            refine Or.inr ⟨sRoot, slot, rfl, hLt, ?_, rfl⟩
            rw [mem_used, hFlag]
            simp

theorem Inv.vfsUmount_cases (h : t.Inv) (target : List Char) :
    (t.vfsUmount target = (t, -eNoSys)) ∨
      ∃ slot ∈ t.used, t.vfsUmount target = (t.leave slot slot, 0) := by
  unfold vfsUmount
  split
  case h_1 hNone => exact Or.inl rfl
  case h_2 i hFind =>
    have hLt := List.mem_range.mp (List.mem_of_find?_eq_some hFind)
    have hNames := List.find?_some hFind
    rw [h.mountedOn_eq hLt, h.names_iff hLt] at hNames
    rw [h.mounts_eq hLt, if_pos hNames.1]
    exact Or.inr ⟨i, hNames.1, rfl⟩

def Fits : MountOp δ → Prop
  | .mount _ target _ _ => target.length < 64
  | .umount target => target.length < 64

theorem Inv.step (h : t.Inv) {op : MountOp δ} (hFits : Fits op) : (t.step op).1.Inv := by
  cases op with
  | mount source target fstype fs =>
    obtain ⟨hSame, -⟩ | ⟨sRoot, slot, hNone, hLt, hFree, hEnter⟩ :=
      t.vfsMount_cases source target fstype fs
    · rw [MountArrays.step, hSame]
      exact h
    · have hNew := h.findMountByTarget_none hNone
      rw [MountArrays.step, hEnter]
      exact ⟨h.toFlags.enter hLt hFree, h.toRecords.enter hLt hFree hFits hNew⟩
  | umount target =>
    rw [MountArrays.step]
    obtain hFailed | ⟨slot, hUsed, hLeave⟩ := h.vfsUmount_cases target
    · rw [hFailed]
      exact h
    · rw [hLeave]
      exact ⟨h.toFlags.leave hUsed, h.toRecords.leave hUsed⟩

theorem Inv.run (h : t.Inv) {ops : List (MountOp δ)} (hFits : ∀ op ∈ ops, Fits op) :
    (t.run ops).Inv := by
  induction ops generalizing t with
  | nil => exact h
  | cons op ops ih =>
    have hStep := h.step (hFits op List.mem_cons_self)
    exact ih hStep fun op' hOp' => hFits op' (List.mem_cons_of_mem op hOp')

theorem Inv.failed (h : t.Inv) {op : MountOp δ} (hFailed : (t.step op).2 ≠ 0) : (t.step op).1 = t := by
  cases op with
  | mount source target fstype fs =>
    obtain ⟨hSame, -⟩ | ⟨sRoot, slot, -, -, -, hEnter⟩ := t.vfsMount_cases source target fstype fs
    · exact hSame
    · rw [MountArrays.step, hEnter] at hFailed
      exact absurd rfl hFailed
  | umount target =>
    rw [MountArrays.step] at hFailed ⊢
    obtain hNone | ⟨slot, -, hLeave⟩ := h.vfsUmount_cases target
    · rw [hNone]
    · rw [hLeave] at hFailed
      exact absurd rfl hFailed

theorem Inv.leave_enter (h : t.Inv) (hLt : slot < maxMounts) (hFree : slot ∉ t.used)
    (hNew : ∀ i ∈ t.used, pathCompare (t.mountPool i).mntTarget target = false) :
    (t.enter slot source target fstype sRoot).leave slot slot = t := by
  have hMounts : Function.update t.mounts slot none = t.mounts := by
    rw [Function.update_eq_self_iff, h.mounts_eq hLt, if_neg hFree]
  have hPool : Function.update t.mountPool slot .blank = t.mountPool := by
    rw [Function.update_eq_self_iff, h.free slot hLt hFree]
  have hFlag : Function.update t.mountSlotUsed slot false = t.mountSlotUsed := by
    rw [Function.update_eq_self_iff, eq_comm, ← Bool.not_eq_true]
    exact fun hUsed => hFree (mem_used.mpr ⟨hLt, hUsed⟩)
  have hMount : t.rootMount ≠ some slot := fun hTop => hFree ((h.root_mount slot).mp hTop).1
  -- without a mount on `/` before, both root pointers were null
  have hNoRoot : pathCompare target ['/'] = true → t.rootMount = none := by
    intro hRoot
    cases hTop : t.rootMount with
    | none => rfl
    | some i =>
      obtain ⟨hi, hCompare⟩ := (h.root_mount i).mp hTop
      have hSame := compare_iff.mpr ((compare_iff.mp hCompare).trans (compare_iff.mp hRoot).symm)
      exact absurd hSame (Bool.eq_false_iff.mp (hNew i hi))
  have hDentry := h.root_dentry
  obtain ⟨mounts, pool, flags, count, rootMount, rootDentry⟩ := t
  dsimp only at hMounts hPool hFlag hMount hNoRoot hDentry
  rw [leave_eq hLt, enter_eq]
  simp only [Function.update_idem, hMounts, hPool, hFlag, Nat.add_sub_cancel]
  by_cases hRoot : pathCompare target ['/'] = true
  · have hNone := hNoRoot hRoot
    subst hNone
    rw [Option.bind_none] at hDentry
    subst hDentry
    simp [hRoot]
  · simp [hRoot, hMount]

theorem Inv.umount_mount (h : t.Inv) {fs : FsMount δ} (hFits : target.length < 64)
    (hOk : (t.vfsMount source target fstype fs).2 = 0) (hNone : t.findMountByTarget target = none) :
    (t.vfsMount source target fstype fs).1.vfsUmount target = (t, 0) := by
  have hAfter : (t.step (.mount source target fstype fs)).1.Inv := h.step hFits
  obtain ⟨-, hFound⟩ | ⟨sRoot, slot, -, hLt, hFree, hEnter⟩ := t.vfsMount_cases source target fstype fs
  · exact absurd hNone (hFound hOk)
  · rw [MountArrays.step, hEnter] at hAfter
    rw [hEnter]
    have hNew := h.findMountByTarget_none hNone
    have hIn : slot ∈ (t.enter slot source target fstype sRoot).used := by
      rw [used_enter hLt]
      exact Finset.mem_insert_self slot _
    have hHere : ((t.enter slot source target fstype sRoot).mountPool slot).mntTarget = target := by
      rw [enter_eq, pathCopy_of_fits hFits]
      simp
    have hFind : (List.range maxMounts).find?
        ((t.enter slot source target fstype sRoot).mountedOn target) = some slot := by
      refine find?_range_unique hLt ?_ fun j hj hNames => ?_
      · rw [hAfter.mountedOn_eq hLt, hAfter.names_iff hLt, hHere]
        exact ⟨hIn, compare_iff.mpr rfl⟩
      · rw [hAfter.mountedOn_eq hj, hAfter.names_iff hj] at hNames
        refine hAfter.distinct j hNames.1 slot hIn ?_
        rw [hHere]
        exact hNames.2
    have hOwn := (hAfter.used_iff slot hLt).mp (mem_used.mp hIn).2
    rw [vfsUmount, hFind]
    dsimp only
    rw [hOwn]
    dsimp only
    rw [h.leave_enter hLt hFree hNew]

/-- Every sequence of mounts and unmounts keeps the table in one piece; after it a call that fails
changes nothing, and a mount that makes an entry is undone by unmounting its target. -/
theorem mount_table_inv (ops : List (MountOp δ)) (hFits : ∀ op ∈ ops, Fits op) :
    (init.run ops : MountArrays δ).Inv ∧
      (∀ op, Fits op → ((init.run ops).step op).2 ≠ 0 →
        ((init.run ops).step op).1 = init.run ops) ∧
      ∀ source target fstype fs, target.length < 64 →
        ((init.run ops).vfsMount source target fstype fs).2 = 0 →
        (init.run ops).findMountByTarget target = none →
        ((init.run ops).vfsMount source target fstype fs).1.vfsUmount target = (init.run ops, 0) := by
  have h := inv_init.run hFits
  refine ⟨h, fun op _ hFailed => h.failed hFailed, ?_⟩
  intro source target fstype fs hTarget hOk hNone
  exact h.umount_mount hTarget hOk hNone

theorem mount_table_inv_three :
    ((init : MountArrays Nat).run [.mount [] ['/'] ['r'] (.superBlock 1),
      .mount [] ['/', 'm', '/'] ['r'] (.superBlock 2), .umount ['/', '/']]).Inv := by
  refine (mount_table_inv _ ?_).1
  intro op hOp
  simp only [List.mem_cons, List.not_mem_nil, or_false] at hOp
  obtain rfl | rfl | rfl := hOp <;> simp [Fits]

/-! ### The table that the arrays stand for -/

def record (m : PoolMount δ) : Option (VfsMount δ) :=
  m.mntRoot.map fun root => ⟨root, m.mntDevname, m.mntTarget, m.mntFstype⟩

def toTable (t : MountArrays δ) : MountTable δ where
  mounts := (List.range maxMounts).map fun i => (t.mounts i).bind fun p => record (t.mountPool p)
  mountCount := t.mountCount
  rootMount := t.rootMount
  rootDentry := t.rootDentry

theorem findIdx?_range (n : Nat) (f : Nat → Bool) :
    (List.range n).findIdx? f = (List.range n).find? f := by
  induction n with
  | zero => rfl
  | succ n ih =>
    rw [List.range_succ, List.findIdx?_append, List.find?_append, ih]
    congr 1
    by_cases hn : f n = true
    · simp [hn]
    · simp [hn]

theorem Inv.entry_eq (h : t.Inv) (hLt : i < maxMounts) :
    ((t.mounts i).bind fun p => record (t.mountPool p)) =
      if i ∈ t.used then record (t.mountPool i) else none := by
  rw [h.mounts_eq hLt]
  split <;> rfl

theorem find?_congr_range {n : Nat} {f g : Nat → Bool} (h : ∀ i < n, f i = g i) :
    (List.range n).find? f = (List.range n).find? g :=
  List.find?_congr fun i hi => h i (List.mem_range.mp hi)

theorem Inv.slotByTarget_eq (h : t.Inv) (target : List Char) :
    t.toTable.slotByTarget target = (List.range maxMounts).find? (t.names target) := by
  rw [MountTable.slotByTarget, toTable, List.findIdx?_map, findIdx?_range]
  apply find?_congr_range
  intro i hi
  rw [Function.comp_apply, h.entry_eq hi, names, h.mounts_eq hi]
  split
  case isTrue hUsed =>
    obtain ⟨r, hr⟩ := Option.isSome_iff_exists.mp (h.mounted i hUsed)
    simp [record, hr]
  case isFalse hFree => rfl

theorem Inv.freeSlot_eq (h : t.Inv) : t.toTable.mounts.findIdx? Option.isNone =
    (List.range maxMounts).find? fun i => !t.mountSlotUsed i := by
  rw [toTable, List.findIdx?_map, findIdx?_range]
  apply find?_congr_range
  intro i hi
  rw [Function.comp_apply, h.entry_eq hi]
  split
  case isTrue hUsed =>
    obtain ⟨r, hr⟩ := Option.isSome_iff_exists.mp (h.mounted i hUsed)
    simp [record, hr, (mem_used.mp hUsed).2]
  case isFalse hFree =>
    have hFlag : t.mountSlotUsed i = false := by
      rw [← Bool.not_eq_true]
      exact fun hUsed => hFree (mem_used.mpr ⟨hi, hUsed⟩)
    simp [hFlag]

theorem Inv.findMountByTarget_eq (h : t.Inv) (target : List Char) :
    t.toTable.findMountByTarget target =
      (t.findMountByTarget target).bind fun p => record (t.mountPool p) := by
  rw [MountTable.findMountByTarget, h.slotByTarget_eq, findMountByTarget]
  cases hFind : (List.range maxMounts).find? (t.names target) with
  | none => rfl
  | some i =>
    have hi := List.mem_range.mp (List.mem_of_find?_eq_some hFind)
    simp [toTable, List.getD_eq_getElem?_getD, hi]

theorem map_range_update {α : Type*} {n : Nat} {f g : Nat → α} (hLt : slot < n)
    (hSame : ∀ i < n, i ≠ slot → g i = f i) :
    (List.range n).map g = ((List.range n).map f).set slot (g slot) := by
  apply List.ext_getElem?
  intro i
  rw [List.getElem?_set]
  split
  case isTrue hHere => simp [← hHere, hLt]
  case isFalse hOther =>
    by_cases hi : i < n
    · simp [hi, hSame i hi fun hEq => hOther hEq.symm]
    · simp [hi]

theorem Inv.map_entries_update (h : t.Inv) (hLt : slot < maxMounts) (p : Option Nat) (m : PoolMount δ) :
    ((List.range maxMounts).map fun i => (Function.update t.mounts slot p i).bind fun q =>
        record (Function.update t.mountPool slot m q)) =
      t.toTable.mounts.set slot (p.bind fun q => record (Function.update t.mountPool slot m q)) := by
  refine (map_range_update (f := fun i => (t.mounts i).bind fun q => record (t.mountPool q)) hLt
    fun i hi hOther => ?_).trans ?_
  · rw [Function.update_of_ne hOther, h.mounts_eq hi]
    split
    case isTrue hUsed => rw [Option.bind_some, Option.bind_some, Function.update_of_ne hOther]
    case isFalse hFree => rfl
  · rw [Function.update_self]
    rfl

theorem Inv.toTable_enter (h : t.Inv) (hLt : slot < maxMounts) :
    (t.enter slot source target fstype sRoot).toTable =
      t.toTable.enter slot source target fstype sRoot := by
  rw [enter_eq, toTable, MountTable.enter]
  dsimp only
  rw [h.map_entries_update hLt, Option.bind_some, Function.update_self]
  split <;> rfl

theorem Inv.toTable_leave (h : t.Inv) (hLt : slot < maxMounts) : (t.leave slot slot).toTable =
    { mounts := t.toTable.mounts.set slot none
      mountCount := t.mountCount - 1
      rootMount := if t.rootMount = some slot then none else t.rootMount
      rootDentry := if t.rootMount = some slot then none else t.rootDentry } := by
  rw [leave_eq hLt, toTable]
  dsimp only
  rw [h.map_entries_update hLt, Option.bind_none]

theorem Inv.findMountByTarget_some (h : t.Inv) {p : Nat} (hFind : t.findMountByTarget target = some p) :
    p ∈ t.used := by
  obtain ⟨i, hi, hp⟩ := Option.bind_eq_some_iff.mp hFind
  have hLt := List.mem_range.mp (List.mem_of_find?_eq_some hi)
  have hUsed := ((h.names_iff hLt).mp (List.find?_some hi)).1
  rw [h.mounts_eq hLt, if_pos hUsed] at hp
  exact Option.some.inj hp ▸ hUsed

theorem Inv.toTable_vfsMount (h : t.Inv) (source target fstype : List Char) (fs : FsMount δ) :
    ((t.vfsMount source target fstype fs).1.toTable, (t.vfsMount source target fstype fs).2) =
      Fs.vfsMount t.toTable source target fstype fs := by
  have hTable := h.findMountByTarget_eq target
  have hCount : t.toTable.mountCount = t.mountCount := rfl
  cases hFind : t.findMountByTarget target with
  | some p =>
    obtain ⟨r, hr⟩ := Option.isSome_iff_exists.mp (h.mounted p (h.findMountByTarget_some hFind))
    cases fs with
    | unknown => rfl
    | _ =>
      simp only [vfsMount, Fs.vfsMount, hTable, hFind, Option.bind_some, record, hr, Option.map_some]
      split <;> rfl
  | none =>
    cases fs with
    | unknown => rfl
    | superBlock sRoot =>
      simp only [vfsMount, Fs.vfsMount, hTable, hFind, Option.bind_none, hCount, h.freeSlot_eq]
      split
      case isTrue hFull => rfl
      case isFalse hRoom =>
        cases hSlot : (List.range maxMounts).find? fun i => !t.mountSlotUsed i with
        | none => rfl
        | some slot =>
          dsimp only
          rw [h.toTable_enter (List.mem_range.mp (List.mem_of_find?_eq_some hSlot))]
    | _ =>
      simp only [vfsMount, Fs.vfsMount, hTable, hFind, Option.bind_none, hCount]
      split <;> rfl

theorem Inv.toTable_vfsUmount (h : t.Inv) (target : List Char) :
    ((t.vfsUmount target).1.toTable, (t.vfsUmount target).2) = Fs.vfsUmount t.toTable target := by
  have hFind : (List.range maxMounts).find? (t.mountedOn target) = t.toTable.slotByTarget target := by
    rw [h.slotByTarget_eq]
    exact find?_congr_range fun i hi => h.mountedOn_eq hi
  rw [vfsUmount, Fs.vfsUmount, hFind]
  cases hSlot : t.toTable.slotByTarget target with
  | none => rfl
  | some i =>
    rw [h.slotByTarget_eq] at hSlot
    have hLt := List.mem_range.mp (List.mem_of_find?_eq_some hSlot)
    have hUsed := ((h.names_iff hLt).mp (List.find?_some hSlot)).1
    dsimp only
    rw [h.mounts_eq hLt, if_pos hUsed]
    dsimp only
    rw [h.toTable_leave hLt]
    by_cases hRoot : t.rootMount = some i
    · simp only [toTable, hRoot, if_true]
    · simp only [toTable, hRoot, if_false]

theorem Inv.toTable_step (h : t.Inv) (op : MountOp δ) : ((t.step op).1.toTable, (t.step op).2) = t.toTable.step op := by
  cases op with
  | mount source target fstype fs => exact h.toTable_vfsMount source target fstype fs
  | umount target => exact h.toTable_vfsUmount target

theorem toTable_run (ops : List (MountOp δ)) (hFits : ∀ op ∈ ops, Fits op) (h : t.Inv) :
    (t.run ops).Inv ∧ (t.run ops).toTable = t.toTable.run ops := by
  induction ops generalizing t with
  | nil => exact ⟨h, rfl⟩
  | cons op ops ih =>
    rw [run, MountTable.run, ← h.toTable_step op]
    exact ih (fun op' hOp' => hFits op' (List.mem_cons_of_mem op hOp')) (h.step (hFits op List.mem_cons_self))

theorem toTable_init : (init : MountArrays δ).toTable = vfsInit := by
  simp only [toTable, init, vfsInit, Option.bind_none, List.map_const', List.length_range]

/-- After every sequence of calls the arrays stand for the table that the calls make of records, and the next call is answered
as the table answers it. -/
theorem mount_arrays_refine_table (ops : List (MountOp δ)) (hFits : ∀ op ∈ ops, Fits op) (op : MountOp δ) :
    (init.run ops : MountArrays δ).toTable = vfsInit.run ops ∧
      ((init.run ops : MountArrays δ).step op).2 = ((vfsInit.run ops).step op).2 := by
  obtain ⟨hInv, hTable⟩ := toTable_run ops hFits (@inv_init δ)
  rw [toTable_init] at hTable
  exact ⟨hTable, hTable ▸ congrArg Prod.snd (hInv.toTable_step op)⟩

theorem mount_arrays_refine_table_one :
    (init.run [.mount [] ['/'] ['r'] (.superBlock 1)] : MountArrays Nat).toTable =
        vfsInit.run [.mount [] ['/'] ['r'] (.superBlock 1)] ∧
      ((init.run [.mount [] ['/'] ['r'] (.superBlock 1)] : MountArrays Nat).step (.umount ['/'])).2 =
        ((vfsInit.run [.mount [] ['/'] ['r'] (.superBlock 1)]).step (.umount ['/'])).2 := by
  apply mount_arrays_refine_table
  rintro op (_ | ⟨_, ⟨⟩⟩)
  exact (by decide : 1 < 64)

end UnixOS.Fs.MountArrays
