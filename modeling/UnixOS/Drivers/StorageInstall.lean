import Mathlib.Algebra.Order.BigOperators.Group.List
import UnixOS.Drivers.StorageMbr

/-! # Installing on a disk twice

`storage_ensure_install_partitions` adds what it does not see. On a device that works it leaves a
table to which it adds nothing more, so a second run after a reload adds a partition only when the
reload misread the table.
-/

namespace UnixOS.Storage

variable {parts : List Partition} {d d' : Disk} {kind : PartitionKind} {sizeMib : UInt32}

def profile (parts : List Partition) : List (PartitionKind × UInt32) :=
  (parts.filter Partition.present).map fun p => (p.kind, p.sizeMib)

theorem profile_layoutFrom (nextLba : UInt32) (parts : List Partition) :
    profile (layoutFrom nextLba parts) = profile parts := by
  induction parts generalizing nextLba with
  | nil => rfl
  | cons p ps ih =>
    have hTail := fun nextLba => ih nextLba
    simp only [profile] at hTail ⊢
    cases hPresent : p.present with
    | false => simp [layoutFrom_absent, hPresent, hTail]
    | true => simp [layoutFrom_present, hPresent, hTail]

theorem profile_of_keys (parts : List Partition) :
    profile parts = (keys parts).map fun k => (k.1, k.2.1) := by
  simp [profile, keys, Partition.key, Function.comp_def]

theorem usedMib_eq_profile (parts : List Partition) :
    usedMib parts = ((profile parts).map fun k => k.2.toNat).sum := by
  induction parts with
  | nil => rfl
  | cons p ps ih =>
    rw [usedMib_cons, ih]
    cases hPresent : p.present with
    | false => simp [profile, hPresent, Partition.weight]
    | true => simp [profile, hPresent, Partition.weight]

theorem presentCount_eq_profile (parts : List Partition) :
    presentCount parts = (profile parts).length := by
  rw [presentCount_eq_length, profile, List.length_map]

theorem hasKind_eq_profile (kind : PartitionKind) (parts : List Partition) :
    hasKind kind parts = (profile parts).any fun k => k.1 = kind := by
  simp [hasKind, profile, List.any_map, List.any_filter, Function.comp_def]

/-- Why a creation fails on a device that works. -/
def Refused (d : Disk) (sizeMib : Nat) : Prop :=
  d.capacityMib.toNat < usedMib d.parts + sizeMib ∨ 4 ≤ presentCount d.parts

theorem presentCount_modify {slot : Nat} {p : Partition} {f : Partition → Partition}
    (hp : parts[slot]? = some p) (hAbsent : p.present = false) (hNew : (f p).present = true) :
    presentCount (parts.modify slot f) = presentCount parts + 1 := by
  obtain ⟨front, q, back, rfl, rfl, hModify⟩ := List.exists_of_modify f (List.getElem?_eq_some_iff.mp hp).1
  obtain rfl : q = p := by simpa using hp
  rw [hModify]
  simp [presentCount, hAbsent, hNew, Nat.add_assoc]

theorem sum_toNat (hSum : usedMib d.parts + sizeMib.toNat < 2 ^ 32) :
    (storagePartitionUsedMib d.parts + sizeMib).toNat = usedMib d.parts + sizeMib.toNat := by
  rw [UInt32.toNat_add, storagePartitionUsedMib_toNat]
  omega

theorem storageCreatePartition_refused (hSum : usedMib d.parts + sizeMib.toNat < 2 ^ 32)
    (h : Refused d sizeMib.toNat) : (storageCreatePartition d kind sizeMib).2 ≠ 0 := by
  intro hOk
  obtain ⟨⟨-, hRoom⟩, slot, p, hSlot, hp, hDone⟩ := Edit.apply_ok (e := .create kind sizeMib) hOk
  obtain ⟨q, hq, hAbsent⟩ := freeSlot_absent hSlot
  obtain rfl : p = q := by simpa [hp] using hq
  rw [UInt32.le_iff_toNat_le, sum_toNat hSum] at hRoom
  have hFew := hDone.few
  rw [presentCount_modify hp hAbsent rfl] at hFew
  rcases h with hCapacity | hFull
  · omega
  · omega

theorem storageCommitMbrPartitions_works (hWrites : ∀ n, d.writeFails n = false)
    (hFew : presentCount d.parts ≤ 4) : (storageCommitMbrPartitions d).2 = 0 := by
  simp [storageCommitMbrPartitions, Nat.not_lt.mpr hFew, storageDiskWriteSector, hWrites]

theorem freeSlot_exists (h : presentCount parts < parts.length) :
    ∃ slot, storageFindFreePartitionSlot parts = some slot := by
  rw [← Option.isSome_iff_exists, storageFindFreePartitionSlot, List.findIdx?_isSome, List.any_eq_true]
  by_contra hNone
  have hAll : ∀ p ∈ parts, p.present = true := by
    intro p hp
    by_contra hAbsent
    exact hNone ⟨p, hp, by simpa using hAbsent⟩
  rw [presentCount, List.countP_eq_length.mpr hAll] at h
  exact Nat.lt_irrefl _ h

theorem refused_of_create (hWrites : ∀ n, d.writeFails n = false)
    (hSlots : d.parts.length = storageMaxPartitions) (hPos : sizeMib ≠ 0)
    (hSum : usedMib d.parts + sizeMib.toNat < 2 ^ 32)
    (h : (storageCreatePartition d kind sizeMib).2 ≠ 0) : Refused d sizeMib.toNat := by
  by_contra hNot
  obtain ⟨hRoom, hFew⟩ : usedMib d.parts + sizeMib.toNat ≤ d.capacityMib.toNat ∧
      presentCount d.parts < 4 := by
    simpa [Refused] using hNot
  have hVacancy : presentCount d.parts < d.parts.length := by
    rw [hSlots, storageMaxPartitions]
    omega
  obtain ⟨slot, hSlot⟩ := freeSlot_exists hVacancy
  obtain ⟨p, hp, hAbsent⟩ := freeSlot_absent hSlot
  have hAdmitted : ¬ d.capacityMib < storagePartitionUsedMib d.parts + sizeMib := by
    rw [UInt32.lt_iff_toNat_lt, sum_toNat hSum]
    omega
  apply h
  rw [storageCreatePartition, if_neg hPos, if_neg hAdmitted, hSlot]
  simp only [commitOrRestore]
  have hCommit := storageCommitMbrPartitions_works
    (d := { d with parts := d.parts.modify slot fun p => { p with
      present := true, kind, sizeMib, label := storageDefaultPartitionLabel kind
        ↑(d.parts.countP fun p => p.present && p.kind = kind) } })
    hWrites (by rw [presentCount_modify hp hAbsent rfl]; omega)
  split
  · rfl
  · rename_i d' code hCode hResult
    rw [hResult] at hCommit
    exact absurd hCommit hCode

theorem storageCommitMbrPartitions_frame (d : Disk) :
    (storageCommitMbrPartitions d).1.capacityMib = d.capacityMib ∧
      (storageCommitMbrPartitions d).1.writeFails = d.writeFails := by
  unfold storageCommitMbrPartitions storageDiskWriteSector
  split
  · exact ⟨rfl, rfl⟩
  · simp only
    split <;> simp

theorem commitOrRestore_frame (d : Disk) (parts : List Partition) :
    (commitOrRestore d parts).1.capacityMib = d.capacityMib ∧
      (commitOrRestore d parts).1.writeFails = d.writeFails ∧
      ((commitOrRestore d parts).2 ≠ 0 → (commitOrRestore d parts).1.parts = d.parts) := by
  have hFrame := storageCommitMbrPartitions_frame { d with parts }
  unfold commitOrRestore
  split
  · rename_i d' hCommit
    rw [hCommit] at hFrame
    exact ⟨hFrame.1, hFrame.2, fun hFail => absurd rfl hFail⟩
  · rename_i d' code hCode hCommit
    rw [hCommit] at hFrame
    exact ⟨hFrame.1, hFrame.2, fun _ => rfl⟩

theorem storageCreatePartition_frame (d : Disk) (kind : PartitionKind) (sizeMib : UInt32) :
    (storageCreatePartition d kind sizeMib).1.capacityMib = d.capacityMib ∧
      (storageCreatePartition d kind sizeMib).1.writeFails = d.writeFails ∧
      ((storageCreatePartition d kind sizeMib).2 ≠ 0 →
        (storageCreatePartition d kind sizeMib).1.parts = d.parts) := by
  unfold storageCreatePartition
  split
  · exact ⟨rfl, rfl, fun _ => rfl⟩
  split
  · exact ⟨rfl, rfl, fun _ => rfl⟩
  split
  · exact ⟨rfl, rfl, fun _ => rfl⟩
  · exact commitOrRestore_frame d _

structure Grows (d d' : Disk) : Prop where
  capacity : d'.capacityMib = d.capacityMib
  writeFails : d'.writeFails = d.writeFails
  slots : d'.parts.length = d.parts.length
  used : usedMib d.parts ≤ usedMib d'.parts
  count : presentCount d.parts ≤ presentCount d'.parts
  kinds : ∀ kind, hasKind kind d.parts = true → hasKind kind d'.parts = true

theorem Grows.refl (d : Disk) : Grows d d :=
  ⟨rfl, rfl, rfl, Nat.le_refl _, Nat.le_refl _, fun _ h => h⟩

theorem Grows.trans {d₁ d₂ d₃ : Disk} (h : Grows d₁ d₂) (h' : Grows d₂ d₃) : Grows d₁ d₃ where
  capacity := h'.capacity.trans h.capacity
  writeFails := h'.writeFails.trans h.writeFails
  slots := h'.slots.trans h.slots
  used := Nat.le_trans h.used h'.used
  count := Nat.le_trans h.count h'.count
  kinds kind hKind := h'.kinds kind (h.kinds kind hKind)

theorem Grows.works (h : Grows d d') (hWrites : ∀ n, d.writeFails n = false) (n : Nat) :
    d'.writeFails n = false := by
  rw [h.writeFails, hWrites]

theorem Refused.mono {n : Nat} (h : Refused d n) (hCapacity : d'.capacityMib = d.capacityMib)
    (hUsed : usedMib d.parts ≤ usedMib d'.parts)
    (hCount : presentCount d.parts ≤ presentCount d'.parts) : Refused d' n := by
  rcases h with hRoom | hFull
  · left
    rw [hCapacity]
    omega
  · right
    omega

theorem layoutFrom_length (nextLba : UInt32) (parts : List Partition) :
    (layoutFrom nextLba parts).length = parts.length := by
  simpa using congrArg List.length (map_layoutFrom (f := Partition.present) (fun _ _ _ => rfl) nextLba parts)

theorem hasKind_modify {slot : Nat} {p : Partition} {f : Partition → Partition}
    (hp : parts[slot]? = some p) (hAbsent : p.present = false) (kind : PartitionKind) :
    hasKind kind (parts.modify slot f) = (((f p).present && (f p).kind = kind) || hasKind kind parts) := by
  obtain ⟨front, q, back, rfl, rfl, hModify⟩ := List.exists_of_modify f (List.getElem?_eq_some_iff.mp hp).1
  obtain rfl : q = p := by simpa using hp
  rw [hModify]
  simp [hasKind, hAbsent, Bool.or_left_comm]

theorem Committed.profile_eq (h : Committed d parts d') : profile d'.parts = profile parts := by
  rw [h.parts_eq]
  exact profile_layoutFrom 2048 parts

theorem storageCreatePartition_ok (hOk : (storageCreatePartition d kind sizeMib).2 = 0) :
    Grows d (storageCreatePartition d kind sizeMib).1 ∧
      hasKind kind (storageCreatePartition d kind sizeMib).1.parts = true := by
  obtain ⟨-, slot, p, hSlot, hp, hDone⟩ := Edit.apply_ok (e := .create kind sizeMib) hOk
  obtain ⟨q, hq, hAbsent⟩ := freeSlot_absent hSlot
  obtain rfl : p = q := by simpa [hp] using hq
  have hFrame := storageCreatePartition_frame d kind sizeMib
  simp only [Edit.apply] at hDone
  have hKinds : ∀ k, hasKind k (storageCreatePartition d kind sizeMib).1.parts =
      (decide (kind = k) || hasKind k d.parts) := by
    intro k
    rw [hasKind_eq_profile, hDone.profile_eq, ← hasKind_eq_profile, hasKind_modify hp hAbsent]
    rfl
  refine ⟨⟨hFrame.1, hFrame.2.1, ?_, ?_, ?_, ?_⟩, ?_⟩
  · rw [hDone.parts_eq, storageRecomputePartitionLayout, layoutFrom_length, List.length_modify]
  · rw [hDone.usedMib_eq, usedMib_modify _ hp, usedMib_eq_erase hp, Partition.weight_absent hAbsent]
    omega
  · rw [hDone.parts_eq, storageRecomputePartitionLayout, presentCount_layoutFrom,
      presentCount_modify hp hAbsent rfl]
    omega
  · intro k hk
    rw [hKinds, hk, Bool.or_true]
  · simp [hKinds]

variable {wanted : Bool} {r : Disk × Int}

theorem ensurePart_grows (wanted : Bool) (kind : PartitionKind) (sizeMib : UInt32) (r : Disk × Int) :
    Grows r.1 (ensurePart wanted kind sizeMib r).1 := by
  unfold ensurePart
  split
  · have hFrame := storageCreatePartition_frame r.1 kind sizeMib
    split
    · rename_i d' hCreate
      have hGrows := (storageCreatePartition_ok (d := r.1) (by rw [hCreate])).1
      rwa [hCreate] at hGrows
    · rename_i d' code hCode hCreate
      rw [hCreate] at hFrame
      have hParts := hFrame.2.2 hCode
      exact ⟨hFrame.1, hFrame.2.1, by rw [hParts], by rw [hParts], by rw [hParts], by rw [hParts]; simp⟩
  · exact Grows.refl _

theorem ensurePart_settles (kind : PartitionKind) (hWrites : ∀ n, r.1.writeFails n = false)
    (hSlots : r.1.parts.length = storageMaxPartitions) (hPos : sizeMib ≠ 0)
    (hSum : usedMib r.1.parts + sizeMib.toNat < 2 ^ 32) (hWanted : wanted = true) :
    hasKind kind (ensurePart wanted kind sizeMib r).1.parts = true ∨ Refused r.1 sizeMib.toNat := by
  by_cases hOk : (storageCreatePartition r.1 kind sizeMib).2 = 0
  · left
    have hHas := (storageCreatePartition_ok hOk).2
    rw [ensurePart, if_pos hWanted]
    split
    · rename_i d' hCreate
      rwa [hCreate] at hHas
    · rename_i d' code hCode hCreate
      rw [hCreate] at hHas
      exact hHas
  · right
    exact refused_of_create hWrites hSlots hPos hSum hOk

theorem ensurePart_idle (h : wanted = true → (storageCreatePartition r.1 kind sizeMib).2 ≠ 0) :
    (ensurePart wanted kind sizeMib r).2 = r.2 ∧
      (ensurePart wanted kind sizeMib r).1.parts = r.1.parts ∧
      (ensurePart wanted kind sizeMib r).1.capacityMib = r.1.capacityMib := by
  unfold ensurePart
  split
  · rename_i hWanted
    have hFrame := storageCreatePartition_frame r.1 kind sizeMib
    have hFail := h hWanted
    split
    · rename_i d' hCreate
      rw [hCreate] at hFail
      exact absurd rfl hFail
    · rename_i d' code hCode hCreate
      rw [hCreate] at hFrame
      exact ⟨rfl, hFrame.2.2 hCode, hFrame.1⟩
  · exact ⟨rfl, rfl, rfl⟩

theorem freeMib_toNat (hUsed : usedMib d.parts < 2 ^ 32) :
    (freeMib d).toNat = d.capacityMib.toNat - usedMib d.parts := by
  have hToNat := storagePartitionUsedMib_toNat d.parts
  rw [Nat.mod_eq_of_lt hUsed] at hToNat
  unfold freeMib
  split
  · rename_i hLt
    rw [UInt32.toNat_sub_of_le _ _ (UInt32.le_of_lt hLt), hToNat]
  · rename_i hLt
    rw [UInt32.lt_iff_toNat_lt, hToNat] at hLt
    have hZero : (0 : UInt32).toNat = 0 := rfl
    omega

theorem atMost65536_toNat (sizeMib : UInt32) :
    (atMost65536 sizeMib).toNat = min sizeMib.toNat 65536 := by
  have hMax : (65536 : UInt32).toNat = 65536 := rfl
  unfold atMost65536
  split
  · rename_i hLarge
    rw [UInt32.lt_iff_toNat_lt] at hLarge
    omega
  · rename_i hLarge
    rw [UInt32.lt_iff_toNat_lt] at hLarge
    omega

theorem installSystemSize_bounds (capacityMib : UInt32) :
    8192 ≤ (installSystemSize capacityMib).toNat ∧ (installSystemSize capacityMib).toNat ≤ 65536 := by
  have hMin : (8192 : UInt32).toNat = 8192 := rfl
  rw [installSystemSize, atMost65536_toNat]
  split
  · omega
  · rename_i hLower
    rw [UInt32.lt_iff_toNat_lt] at hLower
    omega

theorem ne_zero_of_toNat_pos {n : UInt32} (h : 0 < n.toNat) : n ≠ 0 := by
  rintro rfl
  exact absurd h (by decide)

structure Settled (d : Disk) : Prop where
  efi : hasKind .efi d.parts = false → Refused d 256
  system : hasKind .system d.parts = false → Refused d (installSystemSize d.capacityMib).toNat
  data : hasKind .data d.parts = false → (freeMib d).toNat < 4096 ∨ 4 ≤ presentCount d.parts

theorem storageEnsureInstallPartitions_settles (hWrites : ∀ n, d.writeFails n = false)
    (hSlots : d.parts.length = storageMaxPartitions)
    (hSum : usedMib (storageEnsureInstallPartitions d).1.parts < 2 ^ 31) :
    Settled (storageEnsureInstallPartitions d).1 := by
  simp only [storageEnsureInstallPartitions] at hSum ⊢
  generalize hR₁ : ensurePart (!hasKind .efi d.parts) .efi 256 (d, 0) = r₁ at hSum ⊢
  generalize hR₂ : ensurePart (!hasKind .system d.parts) .system
    (installSystemSize r₁.1.capacityMib) r₁ = r₂ at hSum ⊢
  generalize hR₃ : ensurePart (!hasKind .data d.parts && decide (4096 ≤ freeMib r₂.1)) .data
    (atMost65536 (freeMib r₂.1)) r₂ = r₃ at hSum ⊢
  have hGrow₁ : Grows d r₁.1 := hR₁ ▸ ensurePart_grows _ _ _ (d, 0)
  have hGrow₂ : Grows r₁.1 r₂.1 := hR₂ ▸ ensurePart_grows _ _ _ _
  have hGrow₃ : Grows r₂.1 r₃.1 := hR₃ ▸ ensurePart_grows _ _ _ _
  have hUsed₁ := hGrow₁.used
  have hUsed₂ := hGrow₂.used
  have hUsed₃ := hGrow₃.used
  have hSlots₁ := hGrow₁.slots.trans hSlots
  have hWrites₁ := hGrow₁.works hWrites
  refine ⟨?_, ?_, ?_⟩
  · intro hNone
    have hWanted : (!hasKind .efi d.parts) = true := by
      by_contra hHad
      simp [(hGrow₁.trans (hGrow₂.trans hGrow₃)).kinds .efi (by simpa using hHad)] at hNone
    have hSize : (256 : UInt32).toNat = 256 := rfl
    have hEnd := ensurePart_settles (r := (d, 0)) .efi hWrites hSlots
      (ne_zero_of_toNat_pos (n := 256) (by omega)) (by simp only; omega) hWanted
    rw [hR₁] at hEnd
    rcases hEnd with hHas | hRefused
    · simp [(hGrow₂.trans hGrow₃).kinds .efi hHas] at hNone
    · have hGrow := hGrow₁.trans (hGrow₂.trans hGrow₃)
      exact hRefused.mono hGrow.capacity hGrow.used hGrow.count
  · intro hNone
    have hWanted : (!hasKind .system d.parts) = true := by
      by_contra hHad
      simp [(hGrow₁.trans (hGrow₂.trans hGrow₃)).kinds .system (by simpa using hHad)] at hNone
    obtain ⟨hMin, hMax⟩ := installSystemSize_bounds r₁.1.capacityMib
    have hEnd := ensurePart_settles .system hWrites₁ hSlots₁
      (ne_zero_of_toNat_pos (n := installSystemSize r₁.1.capacityMib) (by omega)) (by omega) hWanted
    rw [hR₂] at hEnd
    rcases hEnd with hHas | hRefused
    · simp [hGrow₃.kinds .system hHas] at hNone
    · have hGrow := hGrow₂.trans hGrow₃
      rw [hGrow.capacity]
      exact hRefused.mono hGrow.capacity hGrow.used hGrow.count
  · intro hNone
    have hWanted : (!hasKind .data d.parts) = true := by
      by_contra hHad
      simp [(hGrow₁.trans (hGrow₂.trans hGrow₃)).kinds .data (by simpa using hHad)] at hNone
    have hFree := freeMib_toNat (d := r₂.1) (by omega)
    by_cases hRoom : 4096 ≤ freeMib r₂.1
    · right
      rw [UInt32.le_iff_toNat_le] at hRoom
      have hLow : (4096 : UInt32).toNat = 4096 := rfl
      have hSize := atMost65536_toNat (freeMib r₂.1)
      have hEnd := ensurePart_settles .data (hGrow₂.works hWrites₁) (hGrow₂.slots.trans hSlots₁)
        (ne_zero_of_toNat_pos (n := atMost65536 (freeMib r₂.1)) (by omega)) (by omega)
        (show (!hasKind .data d.parts && decide (4096 ≤ freeMib r₂.1)) = true by
          simpa [hWanted, UInt32.le_iff_toNat_le] using hRoom)
      rw [hR₃] at hEnd
      rcases hEnd with hHas | hCapacity | hFull
      · simp [hHas] at hNone
      · omega
      · exact Nat.le_trans hFull hGrow₃.count
    · left
      rw [← hR₃, show (!hasKind .data d.parts && decide (4096 ≤ freeMib r₂.1)) = false by simp [hRoom]]
      simpa [ensurePart, UInt32.le_iff_toNat_le] using hRoom

theorem Settled.idle (h : Settled d) (hSum : usedMib d.parts < 2 ^ 31) :
    (storageEnsureInstallPartitions d).2 = 0 := by
  simp only [storageEnsureInstallPartitions]
  have hEfi : (!hasKind .efi d.parts) = true → (storageCreatePartition d .efi 256).2 ≠ 0 := by
    intro hWanted
    exact storageCreatePartition_refused (by change usedMib d.parts + 256 < 2 ^ 32; omega)
      (h.efi (by simpa using hWanted))
  obtain ⟨hCount₁, hParts₁, hCap₁⟩ := ensurePart_idle (r := (d, 0)) hEfi
  generalize ensurePart (!hasKind .efi d.parts) .efi 256 (d, 0) = r₁ at *
  simp only at hCount₁ hParts₁ hCap₁
  have hSystem : (!hasKind .system d.parts) = true →
      (storageCreatePartition r₁.1 .system (installSystemSize r₁.1.capacityMib)).2 ≠ 0 := by
    intro hWanted
    obtain ⟨-, hMax⟩ := installSystemSize_bounds r₁.1.capacityMib
    refine storageCreatePartition_refused (by rw [hParts₁]; omega) ?_
    have hRefused := h.system (by simpa using hWanted)
    rw [← hCap₁] at hRefused
    exact hRefused.mono hCap₁ (by rw [hParts₁]) (by rw [hParts₁])
  obtain ⟨hCount₂, hParts₂, hCap₂⟩ := ensurePart_idle hSystem
  generalize ensurePart (!hasKind .system d.parts) .system
    (installSystemSize r₁.1.capacityMib) r₁ = r₂ at *
  have hFree : freeMib r₂.1 = freeMib d := by
    simp only [freeMib, hParts₂, hParts₁, hCap₂, hCap₁]
  have hData : (!hasKind .data d.parts && decide (4096 ≤ freeMib r₂.1)) = true →
      (storageCreatePartition r₂.1 .data
        (atMost65536 (freeMib r₂.1))).2 ≠ 0 := by
    intro hWanted
    obtain ⟨hNone, hRoom⟩ : hasKind .data d.parts = false ∧ 4096 ≤ freeMib r₂.1 := by
      simpa using hWanted
    rw [UInt32.le_iff_toNat_le, hFree] at hRoom
    have hFull := (h.data hNone).resolve_left (Nat.not_lt.mpr hRoom)
    refine storageCreatePartition_refused ?_ (.inr (by rw [hParts₂, hParts₁]; exact hFull))
    have hSize := atMost65536_toNat (freeMib r₂.1)
    rw [hParts₂, hParts₁]
    omega
  obtain ⟨hCount₃, -, -⟩ := ensurePart_idle hData
  rw [hCount₃, hCount₂, hCount₁]

theorem Settled.congr (h : Settled d) (hProfile : profile d'.parts = profile d.parts)
    (hCapacity : d'.capacityMib = d.capacityMib) : Settled d' := by
  have hUsed : usedMib d'.parts = usedMib d.parts := by
    rw [usedMib_eq_profile, hProfile, ← usedMib_eq_profile]
  have hCount : presentCount d'.parts = presentCount d.parts := by
    rw [presentCount_eq_profile, hProfile, ← presentCount_eq_profile]
  have hKind : ∀ kind, hasKind kind d'.parts = hasKind kind d.parts := by
    intro kind
    rw [hasKind_eq_profile, hProfile, ← hasKind_eq_profile]
  have hFree : freeMib d' = freeMib d := by
    have hSum : storagePartitionUsedMib d'.parts = storagePartitionUsedMib d.parts := by
      apply UInt32.toNat_inj.mp
      rw [storagePartitionUsedMib_toNat, hUsed, ← storagePartitionUsedMib_toNat]
    simp only [freeMib, hSum, hCapacity]
  refine ⟨?_, ?_, ?_⟩
  · rw [hKind]
    exact fun hNone => (h.efi hNone).mono hCapacity hUsed.ge hCount.ge
  · rw [hKind, hCapacity]
    exact fun hNone => (h.system hNone).mono hCapacity hUsed.ge hCount.ge
  · rw [hKind, hFree, hCount]
    exact h.data

theorem usedMib_le_of_sizes {bound : Nat}
    (h : ∀ p ∈ parts.filter Partition.present, p.sizeMib.toNat ≤ bound) :
    usedMib parts ≤ presentCount parts * bound := by
  rw [usedMib_eq_profile, presentCount_eq_profile]
  have hSum := List.sum_le_card_nsmul ((profile parts).map fun k => k.2.toNat) bound (by
    intro n hn
    obtain ⟨k, hk, rfl⟩ := List.mem_map.mp hn
    obtain ⟨p, hp, rfl⟩ := List.mem_map.mp hk
    exact h p hp)
  simpa using hSum

theorem reload_capacityMib (d : Disk) : (reload d).capacityMib = d.capacityMib := by
  have hFrame := (storageCommitMbrPartitions_frame d).1
  have hRead := storageDiskReadSector_capacityMib (storageCommitMbrPartitions d).1 0
  unfold reload storageLoadMbrPartitions
  split
  · rename_i d' hLoad
    rw [hLoad] at hRead
    exact hRead.trans hFrame
  · rename_i s d' hLoad
    rw [hLoad] at hRead
    split
    · exact hRead.trans hFrame
    · exact hRead.trans hFrame

/-- A run of the installer after a reload of the table it left creates nothing. -/
def InstallsOnce (d : Disk) : Prop :=
  ∀ d₀ : Disk, d₀.parts.length = storageMaxPartitions → (∀ n, d₀.writeFails n = false) →
    (storageEnsureInstallPartitions d₀).1 = d → (storageEnsureInstallPartitions (reload d)).2 = 0

theorem installsOnce_of_roundTrip (hCommit : (storageCommitMbrPartitions d).2 = 0)
    (hSizes : ∀ p ∈ d.parts.filter Partition.present, p.sizeMib.toNat < 2 ^ 21)
    (hTrip : RoundTrip d) : InstallsOnce d := by
  have hDone := storageCommitMbrPartitions_ok hCommit
  have hProfile : profile (reload d).parts = profile d.parts := by
    rw [profile_of_keys, hTrip, ← profile_of_keys, hDone.profile_eq]
  have hUsed : usedMib d.parts < 2 ^ 31 := by
    have hLe := usedMib_le_of_sizes fun p hp => Nat.le_of_lt (hSizes p hp)
    have hFew := Nat.mul_le_mul_right (2 ^ 21) hDone.few
    omega
  rintro d₀ hSlots hWrites rfl
  have hSettled := storageEnsureInstallPartitions_settles hWrites hSlots hUsed
  refine (hSettled.congr hProfile (reload_capacityMib _)).idle ?_
  rw [usedMib_eq_profile, hProfile, ← usedMib_eq_profile]
  exact hUsed

/-- The partitions are read back from the MBR as they were, and a second install finds them, exactly if the MBR can hold
them. -/
theorem mbr_round_trip_iff (d : Disk) (hKnown : ∀ p ∈ d.parts.filter Partition.present, Known p)
    (hCommit : (storageCommitMbrPartitions d).2 = 0)
    (hRead : (storageDiskReadSector (storageCommitMbrPartitions d).1 0).1.isSome) :
    RoundTrip d ∧ InstallsOnce d ↔ Reloadable d.parts := by
  have hIff := roundTrip_iff hKnown hCommit hRead
  constructor
  · exact fun h => hIff.mp h.1
  · intro h
    have hTrip := hIff.mpr h
    exact ⟨hTrip, installsOnce_of_roundTrip hCommit h.sizes hTrip⟩

/-- A system partition before a data partition survives. -/
def updateDisk : Disk :=
  ((Edit.create .data 2).apply ((Edit.create .system 1).apply (blankDisk 8)).1).1

theorem mbr_round_trip_update_disk : RoundTrip updateDisk ∧ InstallsOnce updateDisk :=
  (mbr_round_trip_iff updateDisk (by decide) (by decide) (by decide)).mpr
    ⟨by decide, by decide, by decide⟩

def installedDisk : Disk := (storageEnsureInstallPartitions (blankDisk 262144)).1

theorem mbr_round_trip_fails_installed :
    (∀ p ∈ installedDisk.parts.filter Partition.present, Known p) ∧
      (storageCommitMbrPartitions installedDisk).2 = 0 ∧ ¬ RoundTrip installedDisk ∧
      (storageEnsureInstallPartitions (reload installedDisk)).2 = 1 := by
  decide +kernel

end UnixOS.Storage
