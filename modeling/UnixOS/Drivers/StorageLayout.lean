import Mathlib.Data.List.Basic
import Mathlib.Order.CompletePartialOrder
import Mathlib.Order.Interval.Set.Disjoint
import UnixOS.Drivers.Storage

/-! # Where partitions are placed

A successful edit changes one slot and lays the whole table out again, so the place of a partition
is a function of the sizes in the slots below it. The admission tests count mebibytes from zero, the
layout counts sectors from 2048: the two agree exactly on the edits that leave one mebibyte free and
stay below `2 ^ 21` mebibytes.
-/

namespace UnixOS.Storage

namespace Partition

def weight (p : Partition) : Nat := if p.present then p.sizeMib.toNat else 0

def endLba (p : Partition) : Nat := p.startLba.toNat + p.sectorCount.toNat

def sectorRange (p : Partition) : Set Nat := Set.Ico p.startLba.toNat p.endLba

theorem weight_absent {p : Partition} (h : p.present = false) : p.weight = 0 := by
  simp [weight, h]

theorem weight_present {p : Partition} (h : p.present = true) : p.weight = p.sizeMib.toNat := by
  simp [weight, h]

end Partition

def usedMib (parts : List Partition) : Nat := (parts.map Partition.weight).sum

@[simp] theorem usedMib_nil : usedMib [] = 0 := rfl

@[simp] theorem usedMib_cons (p : Partition) (ps : List Partition) :
    usedMib (p :: ps) = p.weight + usedMib ps := by
  simp [usedMib]

theorem usedMib_eq_zero {parts : List Partition} (h : ∀ p ∈ parts, p.present = false) :
    usedMib parts = 0 := by
  induction parts with
  | nil => rfl
  | cons p ps ih =>
    rw [usedMib_cons, Partition.weight_absent (h p (by simp)), ih (fun q hq => h q (by simp [hq]))]

theorem usedMib_modify {parts : List Partition} {slot : Nat} {p : Partition}
    (f : Partition → Partition) (h : parts[slot]? = some p) :
    usedMib (parts.modify slot f) = (f p).weight + usedMib (parts.eraseIdx slot) := by
  induction parts generalizing slot with
  | nil => simp at h
  | cons q ps ih =>
    cases slot with
    | zero =>
      obtain rfl : q = p := by simpa using h
      simp
    | succ slot =>
      have hTail := ih (by simpa using h)
      simp only [List.modify_succ_cons, usedMib_cons, hTail, List.eraseIdx_cons_succ]
      omega

theorem usedMib_eq_erase {parts : List Partition} {slot : Nat} {p : Partition}
    (h : parts[slot]? = some p) : usedMib parts = p.weight + usedMib (parts.eraseIdx slot) := by
  have hSame := usedMib_modify id h
  rwa [List.modify_id] at hSame

theorem storagePartitionUsedMib_toNat (parts : List Partition) :
    (storagePartitionUsedMib parts).toNat = usedMib parts % 2 ^ 32 := by
  suffices hFold : ∀ total : UInt32,
      (parts.foldl (fun total p => if p.present then total + p.sizeMib else total) total).toNat
        = (total.toNat + usedMib parts) % 2 ^ 32 by
    simpa [storagePartitionUsedMib] using hFold 0
  induction parts with
  | nil =>
    intro total
    have hTotal := total.toNat_lt
    simp only [List.foldl_nil, usedMib_nil]
    omega
  | cons p ps ih =>
    intro total
    rw [List.foldl_cons, ih, usedMib_cons]
    cases hPresent : p.present with
    | false => simp [Partition.weight, hPresent]
    | true =>
      simp only [if_true, UInt32.toNat_add, Partition.weight, hPresent]
      omega

section Layout

variable {capacityMib nextLba : UInt32} {parts : List Partition}

theorem layoutFrom_present (p : Partition) (ps : List Partition) (h : p.present = true) :
    layoutFrom nextLba (p :: ps) =
      { p with startLba := nextLba, sectorCount := storageMibToSectors p.sizeMib } ::
        layoutFrom (nextLba + storageMibToSectors p.sizeMib) ps := by
  simp [layoutFrom, h]

theorem layoutFrom_absent (p : Partition) (ps : List Partition) (h : p.present = false) :
    layoutFrom nextLba (p :: ps) =
      { p with startLba := 0, sectorCount := 0 } :: layoutFrom nextLba ps := by
  simp [layoutFrom, h]

theorem map_layoutFrom {β : Type*} {f : Partition → β}
    (hPlace : ∀ p startLba sectorCount, f { p with startLba, sectorCount } = f p) (nextLba : UInt32)
    (parts : List Partition) : (layoutFrom nextLba parts).map f = parts.map f := by
  induction parts generalizing nextLba with
  | nil => rfl
  | cons p ps ih =>
    cases hPresent : p.present with
    | false => rw [layoutFrom_absent p ps hPresent, List.map_cons, List.map_cons, hPlace, ih]
    | true => rw [layoutFrom_present p ps hPresent, List.map_cons, List.map_cons, hPlace, ih]

theorem usedMib_layoutFrom (nextLba : UInt32) (parts : List Partition) :
    usedMib (layoutFrom nextLba parts) = usedMib parts := by
  rw [usedMib, map_layoutFrom fun _ _ _ => rfl, usedMib]

theorem storageMibToSectors_toNat (sizeMib : UInt32) (h : sizeMib.toNat * 2048 < 2 ^ 32) :
    (storageMibToSectors sizeMib).toNat = sizeMib.toNat * 2048 := by
  rw [storageMibToSectors, UInt32.toNat_mul]
  exact Nat.mod_eq_of_lt h

theorem nextLba_toNat (nextLba sizeMib : UInt32)
    (h : nextLba.toNat + sizeMib.toNat * 2048 < 2 ^ 32) :
    (nextLba + storageMibToSectors sizeMib).toNat = nextLba.toNat + sizeMib.toNat * 2048 := by
  rw [UInt32.toNat_add, storageMibToSectors_toNat _ (by omega)]
  exact Nat.mod_eq_of_lt h

structure Placed (lo hi : Nat) (p : Partition) : Prop where
  start_ge : lo ≤ p.startLba.toNat
  end_le : p.endLba ≤ hi
  count_exact : p.sectorCount.toNat = p.sizeMib.toNat * 2048

theorem layoutFrom_placed (hRoom : nextLba.toNat + 2048 * usedMib parts < 2 ^ 32) {p : Partition}
    (hMem : p ∈ layoutFrom nextLba parts) (hPresent : p.present = true) :
    Placed nextLba.toNat (nextLba.toNat + 2048 * usedMib parts) p := by
  induction parts generalizing nextLba with
  | nil => cases hMem
  | cons q ps ih =>
    cases hq : q.present with
    | false =>
      rw [usedMib_cons, Partition.weight_absent hq, Nat.zero_add] at hRoom ⊢
      rw [layoutFrom_absent q ps hq, List.mem_cons] at hMem
      rcases hMem with rfl | hMem
      · simp [hq] at hPresent
      · exact ih hRoom hMem
    | true =>
      rw [usedMib_cons, Partition.weight_present hq] at hRoom ⊢
      rw [layoutFrom_present q ps hq, List.mem_cons] at hMem
      have hNext := nextLba_toNat nextLba q.sizeMib (by omega)
      rcases hMem with rfl | hMem
      · have hCount := storageMibToSectors_toNat q.sizeMib (by omega)
        refine ⟨Nat.le_refl _, ?_, hCount⟩
        simp only [Partition.endLba, hCount]
        omega
      · have hRest := ih (by omega) hMem
        exact ⟨by have := hRest.start_ge; omega, by have := hRest.end_le; omega, hRest.count_exact⟩

theorem layoutFrom_disjoint (hRoom : nextLba.toNat + 2048 * usedMib parts < 2 ^ 32) :
    (layoutFrom nextLba parts).Pairwise fun p q =>
      p.present = true → q.present = true → Disjoint p.sectorRange q.sectorRange := by
  induction parts generalizing nextLba with
  | nil => exact List.Pairwise.nil
  | cons q ps ih =>
    cases hq : q.present with
    | false =>
      rw [usedMib_cons, Partition.weight_absent hq, Nat.zero_add] at hRoom
      rw [layoutFrom_absent q ps hq, List.pairwise_cons]
      exact ⟨by simp [hq], ih hRoom⟩
    | true =>
      rw [usedMib_cons, Partition.weight_present hq] at hRoom
      rw [layoutFrom_present q ps hq, List.pairwise_cons]
      have hNext := nextLba_toNat nextLba q.sizeMib (by omega)
      refine ⟨?_, ih (by omega)⟩
      intro p hMem _ hPresent
      have hAfter := (layoutFrom_placed (by omega) hMem hPresent).start_ge
      rw [Partition.sectorRange, Partition.sectorRange, Set.Ico_disjoint_Ico]
      have hCount := storageMibToSectors_toNat q.sizeMib (by omega)
      simp only [Partition.endLba, hCount]
      omega

theorem layoutFrom_last (hAny : ∃ p ∈ parts, p.present = true)
    (hExact : ∀ p ∈ layoutFrom nextLba parts, p.present = true →
      p.sectorCount.toNat = p.sizeMib.toNat * 2048 ∧ p.endLba < 2 ^ 32) :
    ∃ p ∈ layoutFrom nextLba parts,
      p.present = true ∧ p.endLba = nextLba.toNat + 2048 * usedMib parts := by
  induction parts generalizing nextLba with
  | nil => simp at hAny
  | cons q ps ih =>
    cases hq : q.present with
    | false =>
      have hAnyTail : ∃ p ∈ ps, p.present = true := by simpa [hq] using hAny
      rw [usedMib_cons, Partition.weight_absent hq, Nat.zero_add]
      rw [layoutFrom_absent q ps hq] at hExact ⊢
      obtain ⟨p, hMem, hLast⟩ := ih hAnyTail (fun p hp => hExact p (List.mem_cons_of_mem _ hp))
      exact ⟨p, List.mem_cons_of_mem _ hMem, hLast⟩
    | true =>
      rw [usedMib_cons, Partition.weight_present hq]
      rw [layoutFrom_present q ps hq] at hExact ⊢
      obtain ⟨hCount, hEnd⟩ := hExact _ List.mem_cons_self hq
      simp only [Partition.endLba] at hCount hEnd
      have hNext := nextLba_toNat nextLba q.sizeMib (by omega)
      by_cases hAnyTail : ∃ p ∈ ps, p.present = true
      · obtain ⟨p, hMem, hPresent, hLast⟩ :=
          ih hAnyTail (fun p hp => hExact p (List.mem_cons_of_mem _ hp))
        exact ⟨p, List.mem_cons_of_mem _ hMem, hPresent, by omega⟩
      · have hRest : usedMib ps = 0 := usedMib_eq_zero (by simpa using hAnyTail)
        refine ⟨_, List.mem_cons_self, hq, ?_⟩
        simp only [Partition.endLba, hCount]
        omega

end Layout

section Edits

def Edit.rewrite : Edit → List Partition → Partition → Partition
  | .create kind sizeMib, parts, p =>
    let ordinal := parts.countP fun p => p.present && p.kind = kind
    { p with present := true, kind, sizeMib, label := storageDefaultPartitionLabel kind ordinal }
  | .update partitionIndex kind sizeMib, _, p =>
    { p with kind, sizeMib, label := storageDefaultPartitionLabel kind partitionIndex }
  | .delete _, _, _ => emptyPartition

theorem visibleSlot_present {parts : List Partition} {index : Int} {slot : Nat}
    (h : visibleSlot parts index = some slot) : ∃ p, parts[slot]? = some p ∧ p.present = true := by
  induction parts generalizing index slot with
  | nil => cases h
  | cons q ps ih =>
    rw [visibleSlot] at h
    split at h
    · split at h
      · obtain rfl : 0 = slot := by simpa using h
        exact ⟨q, rfl, ‹_›⟩
      · obtain ⟨rest, hRest, rfl⟩ := Option.map_eq_some_iff.mp h
        exact ih hRest
    · obtain ⟨rest, hRest, rfl⟩ := Option.map_eq_some_iff.mp h
      exact ih hRest

theorem freeSlot_absent {parts : List Partition} {slot : Nat}
    (h : storageFindFreePartitionSlot parts = some slot) :
    ∃ p, parts[slot]? = some p ∧ p.present = false := by
  obtain ⟨hLt, hAbsent, _⟩ := List.findIdx?_eq_some_iff_getElem.mp h
  exact ⟨parts[slot], List.getElem?_eq_getElem hLt, by simpa using hAbsent⟩

structure Committed (d : Disk) (parts : List Partition) (d' : Disk) : Prop where
  few : presentCount parts ≤ 4
  parts_eq : d'.parts = storageRecomputePartitionLayout parts
  capacity_eq : d'.capacityMib = d.capacityMib
  sector_eq : ∃ old, d'.sectors 0 = mbrSector (storageRecomputePartitionLayout parts) old

@[simp] theorem storageDiskReadSector_parts (d : Disk) (lba : Nat) :
    (storageDiskReadSector d lba).2.parts = d.parts := by
  unfold storageDiskReadSector
  split
  · rfl
  · split <;> rfl

@[simp] theorem storageDiskReadSector_capacityMib (d : Disk) (lba : Nat) :
    (storageDiskReadSector d lba).2.capacityMib = d.capacityMib := by
  unfold storageDiskReadSector
  split
  · rfl
  · split <;> rfl

@[simp] theorem storageDiskReadSector_writeFails (d : Disk) (lba : Nat) :
    (storageDiskReadSector d lba).2.writeFails = d.writeFails := by
  unfold storageDiskReadSector
  split
  · rfl
  · split <;> rfl

theorem storageCommitMbrPartitions_ok {d : Disk} (h : (storageCommitMbrPartitions d).2 = 0) :
    Committed d d.parts (storageCommitMbrPartitions d).1 := by
  unfold storageCommitMbrPartitions at h ⊢
  split at h
  · simp at h
  · rename_i hFew
    rw [if_neg hFew]
    simp only [storageDiskWriteSector] at h ⊢
    split at h
    · simp at h
    · rename_i hWrite
      rw [if_neg hWrite]
      exact ⟨by omega, by simp, by simp, _, by simp; rfl⟩

theorem commitOrRestore_ok {d : Disk} {parts : List Partition}
    (h : (commitOrRestore d parts).2 = 0) : Committed d parts (commitOrRestore d parts).1 := by
  unfold commitOrRestore at h ⊢
  split at h
  · rename_i d' hCommit
    have hDone := storageCommitMbrPartitions_ok (d := { d with parts }) (by rw [hCommit])
    simp only [hCommit] at hDone ⊢
    exact ⟨hDone.few, hDone.parts_eq, hDone.capacity_eq, hDone.sector_eq⟩
  · simp at h

def Edit.Admitted : Edit → Disk → Prop
  | .create _ sizeMib, d =>
    sizeMib ≠ 0 ∧ storagePartitionUsedMib d.parts + sizeMib ≤ d.capacityMib
  | .update partitionIndex _ sizeMib, d => sizeMib ≠ 0 ∧ ∀ slot,
    visibleSlot d.parts partitionIndex = some slot →
    storagePartitionUsedMib d.parts - (d.parts.getD slot emptyPartition).sizeMib + sizeMib
      ≤ d.capacityMib
  | .delete _, _ => True

theorem Edit.apply_ok {e : Edit} {d : Disk} (h : (e.apply d).2 = 0) :
    e.Admitted d ∧ ∃ slot p, e.slot d.parts = some slot ∧ d.parts[slot]? = some p ∧
      Committed d (d.parts.modify slot (e.rewrite d.parts)) (e.apply d).1 := by
  cases e with
  | create kind sizeMib =>
    simp only [Edit.apply, Edit.slot, Edit.Admitted] at h ⊢
    unfold storageCreatePartition at h ⊢
    split at h
    · simp at h
    split at h
    · simp at h
    rename_i hSize hRoom
    rw [if_neg hSize, if_neg hRoom]
    refine ⟨⟨hSize, by simpa using hRoom⟩, ?_⟩
    split at h
    · simp at h
    · rename_i slot hSlot
      obtain ⟨p, hp, _⟩ := freeSlot_absent hSlot
      exact ⟨slot, p, hSlot, hp, commitOrRestore_ok h⟩
  | update partitionIndex kind sizeMib =>
    simp only [Edit.apply, Edit.slot, Edit.Admitted] at h ⊢
    unfold storageUpdatePartition at h ⊢
    split at h
    · simp at h
    rename_i hSize
    rw [if_neg hSize]
    split at h
    · simp at h
    rename_i slot hSlot
    obtain ⟨p, hp, _⟩ := visibleSlot_present hSlot
    simp only [hSlot] at h ⊢
    split at h
    · simp at h
    rename_i hRoom
    rw [if_neg hRoom]
    refine ⟨⟨hSize, ?_⟩, slot, p, rfl, hp, commitOrRestore_ok h⟩
    rintro _ ⟨⟩
    simpa using hRoom
  | delete partitionIndex =>
    simp only [Edit.apply, Edit.slot, Edit.Admitted] at h ⊢
    unfold storageDeletePartition at h ⊢
    split at h
    · simp at h
    rename_i slot hSlot
    obtain ⟨p, hp, _⟩ := visibleSlot_present hSlot
    refine ⟨trivial, slot, p, hSlot, hp, ?_⟩
    have hDone := commitOrRestore_ok h
    rwa [List.set_eq_modify] at hDone ⊢

end Edits

section Runs

/-- The mebibytes in use once a creation or an update is done, without wrapping. -/
def Edit.demand : Edit → List Partition → Option Nat
  | .create _ sizeMib, parts => some (usedMib parts + sizeMib.toNat)
  | .update partitionIndex _ sizeMib, parts => (visibleSlot parts partitionIndex).map fun slot =>
    usedMib (parts.eraseIdx slot) + sizeMib.toNat
  | .delete _, _ => none

structure LayoutSafe (d : Disk) : Prop where
  disjoint : d.parts.Pairwise fun p q =>
    p.present = true → q.present = true → Disjoint p.sectorRange q.sectorRange
  start_ge : ∀ p ∈ d.parts, p.present = true → 2048 ≤ p.startLba.toNat
  end_le : ∀ p ∈ d.parts, p.present = true → p.endLba ≤ d.capacityMib.toNat * 2048
  count_exact : ∀ p ∈ d.parts, p.present = true → p.sectorCount.toNat = p.sizeMib.toNat * 2048
  end_exact : ∀ p ∈ d.parts, p.present = true → p.endLba < 2 ^ 32

def AllSucceed : Disk → List Edit → Prop
  | _, [] => True
  | d, e :: es => (e.apply d).2 = 0 ∧ AllSucceed (e.apply d).1 es

instance decidableAllSucceed : ∀ d es, Decidable (AllSucceed d es)
  | _, [] => inferInstanceAs (Decidable True)
  | d, e :: es =>
    have := decidableAllSucceed (e.apply d).1 es
    inferInstanceAs (Decidable ((e.apply d).2 = 0 ∧ AllSucceed (e.apply d).1 es))

/-- Every table of the run is safe and no sum of used and wanted mebibytes wraps on the way. -/
def SafeAlong : Disk → List Edit → Prop
  | d, [] => LayoutSafe d
  | d, e :: es =>
    LayoutSafe d ∧ (∀ n ∈ e.demand d.parts, n < 2 ^ 32) ∧ SafeAlong (e.apply d).1 es

def Edit.Fits (e : Edit) (d : Disk) : Prop :=
  ∀ n ∈ e.demand d.parts, n + 1 ≤ d.capacityMib.toNat ∧ n + 1 < 2 ^ 21

def FitsAlong : Disk → List Edit → Prop
  | _, [] => True
  | d, e :: es => e.Fits d ∧ FitsAlong (e.apply d).1 es

instance (e : Edit) (d : Disk) : Decidable (e.Fits d) :=
  inferInstanceAs (Decidable (∀ n ∈ e.demand d.parts, n + 1 ≤ d.capacityMib.toNat ∧ n + 1 < 2 ^ 21))

instance decidableFitsAlong : ∀ d es, Decidable (FitsAlong d es)
  | _, [] => inferInstanceAs (Decidable True)
  | d, e :: es =>
    have := decidableFitsAlong (e.apply d).1 es
    inferInstanceAs (Decidable (e.Fits d ∧ FitsAlong (e.apply d).1 es))

def Vacant (d : Disk) : Prop := ∀ p ∈ d.parts, p.present = false

/-- The invariant of a run whose edits fit: a laid-out table with a mebibyte to spare. -/
structure Roomy (d : Disk) : Prop where
  laidOut : ∃ parts, d.parts = storageRecomputePartitionLayout parts
  below_capacity : usedMib d.parts + 1 ≤ d.capacityMib.toNat
  below_wrap : usedMib d.parts + 1 < 2 ^ 21

theorem Vacant.layoutSafe {d : Disk} (h : Vacant d) : LayoutSafe d := by
  refine ⟨?_, ?_, ?_, ?_, ?_⟩
  · refine List.pairwise_of_forall_mem_list ?_
    intro p hp _ _ hPresent
    simp [h p hp] at hPresent
  all_goals
    intro p hp hPresent
    simp [h p hp] at hPresent

theorem Roomy.layoutSafe {d : Disk} (h : Roomy d) : LayoutSafe d := by
  obtain ⟨parts, hParts⟩ := h.laidOut
  have hUsed : usedMib d.parts = usedMib parts := by
    rw [hParts]
    exact usedMib_layoutFrom 2048 parts
  have hBelow := h.below_capacity
  have hWrap := h.below_wrap
  have hStart : (2048 : UInt32).toNat = 2048 := rfl
  have hRoom : (2048 : UInt32).toNat + 2048 * usedMib parts < 2 ^ 32 := by omega
  have hPlaced : ∀ p ∈ d.parts, p.present = true →
      Placed 2048 (2048 + 2048 * usedMib parts) p := by
    intro p hp
    rw [hParts] at hp
    exact layoutFrom_placed hRoom hp
  refine ⟨?_, ?_, ?_, ?_, ?_⟩
  · rw [hParts]
    exact layoutFrom_disjoint hRoom
  · exact fun p hp hPresent => (hPlaced p hp hPresent).start_ge
  · intro p hp hPresent
    have hEnd := (hPlaced p hp hPresent).end_le
    omega
  · exact fun p hp hPresent => (hPlaced p hp hPresent).count_exact
  · intro p hp hPresent
    have hEnd := (hPlaced p hp hPresent).end_le
    omega

theorem Committed.usedMib_eq {d d' : Disk} {parts : List Partition} (h : Committed d parts d') :
    usedMib d'.parts = usedMib parts := by
  rw [h.parts_eq]
  exact usedMib_layoutFrom 2048 parts

theorem Edit.demand_met {e : Edit} {d : Disk} {n : Nat} (h : (e.apply d).2 = 0)
    (hDemand : e.demand d.parts = some n) : usedMib (e.apply d).1.parts = n := by
  obtain ⟨-, slot, p, hSlot, hp, hDone⟩ := Edit.apply_ok h
  rw [hDone.usedMib_eq, usedMib_modify _ hp]
  cases e with
  | create kind sizeMib =>
    obtain ⟨q, hq, hAbsent⟩ := freeSlot_absent hSlot
    obtain rfl : p = q := by simpa [hp] using hq
    have hErase := usedMib_eq_erase hp
    rw [Partition.weight_absent hAbsent] at hErase
    simp only [Edit.demand, Option.some.injEq] at hDemand
    simp only [Edit.rewrite, Partition.weight, if_true]
    omega
  | update partitionIndex kind sizeMib =>
    obtain ⟨q, hq, hPresent⟩ := visibleSlot_present hSlot
    obtain rfl : p = q := by simpa [hp] using hq
    simp only [Edit.slot] at hSlot
    simp only [Edit.demand, hSlot, Option.map_some, Option.some.injEq] at hDemand
    simp only [Edit.rewrite, Partition.weight, hPresent, if_true]
    omega
  | delete partitionIndex => simp [Edit.demand] at hDemand

theorem Edit.delete_used_le {e : Edit} {d : Disk} (h : (e.apply d).2 = 0)
    (hDemand : e.demand d.parts = none) :
    usedMib (e.apply d).1.parts ≤ usedMib d.parts ∧ ¬ Vacant d := by
  obtain ⟨-, slot, p, hSlot, hp, hDone⟩ := Edit.apply_ok h
  cases e with
  | create kind sizeMib => simp [Edit.demand] at hDemand
  | update partitionIndex kind sizeMib =>
    simp only [Edit.slot] at hSlot
    simp [Edit.demand, hSlot] at hDemand
  | delete partitionIndex =>
    obtain ⟨q, hq, hPresent⟩ := visibleSlot_present hSlot
    constructor
    · rw [hDone.usedMib_eq, usedMib_modify _ hp, usedMib_eq_erase hp]
      simp [Edit.rewrite, Partition.weight, emptyPartition]
    · intro hVacant
      simp [hVacant q (List.mem_of_getElem? hq)] at hPresent

theorem Edit.fits_step {e : Edit} {d : Disk} (h : (e.apply d).2 = 0) (hFits : e.Fits d)
    (hInv : Vacant d ∨ Roomy d) : Roomy (e.apply d).1 := by
  obtain ⟨-, slot, p, -, -, hDone⟩ := Edit.apply_ok h
  cases hDemand : e.demand d.parts with
  | some n =>
    have hUsed := Edit.demand_met h hDemand
    obtain ⟨hCapacity, hWrap⟩ := hFits n hDemand
    refine ⟨⟨_, hDone.parts_eq⟩, ?_, ?_⟩
    · rw [hUsed, hDone.capacity_eq]
      exact hCapacity
    · rw [hUsed]
      exact hWrap
  | none =>
    obtain ⟨hLe, hNotVacant⟩ := Edit.delete_used_le h hDemand
    have hRoomy := hInv.resolve_left hNotVacant
    refine ⟨⟨_, hDone.parts_eq⟩, ?_, ?_⟩
    · rw [hDone.capacity_eq]
      have hCapacity := hRoomy.below_capacity
      omega
    · have hWrap := hRoomy.below_wrap
      omega

theorem Edit.fits_of_layoutSafe {e : Edit} {d : Disk} (h : (e.apply d).2 = 0)
    (hSafe : LayoutSafe (e.apply d).1) : e.Fits d := by
  intro n hDemand
  have hUsed := Edit.demand_met h hDemand
  obtain ⟨hAdmitted, slot, p, hSlot, hp, hDone⟩ := Edit.apply_ok h
  have hAny : ∃ q ∈ d.parts.modify slot (e.rewrite d.parts), q.present = true := by
    have hNew : (d.parts.modify slot (e.rewrite d.parts))[slot]? = some (e.rewrite d.parts p) := by
      simp [hp]
    refine ⟨_, List.mem_of_getElem? hNew, ?_⟩
    cases e with
    | create kind sizeMib => rfl
    | update partitionIndex kind sizeMib =>
      obtain ⟨q, hq, hPresent⟩ := visibleSlot_present hSlot
      obtain rfl : p = q := by simpa [hp] using hq
      exact hPresent
    | delete partitionIndex => simp [Edit.demand] at hDemand
  have hExact : ∀ q ∈ (e.apply d).1.parts, q.present = true →
      q.sectorCount.toNat = q.sizeMib.toNat * 2048 ∧ q.endLba < 2 ^ 32 :=
    fun q hq hPresent => ⟨hSafe.count_exact q hq hPresent, hSafe.end_exact q hq hPresent⟩
  rw [hDone.parts_eq] at hExact
  obtain ⟨q, hq, hPresent, hEnd⟩ := layoutFrom_last hAny hExact
  rw [← hDone.usedMib_eq, hUsed] at hEnd
  have hLast := hSafe.end_le q (by rw [hDone.parts_eq]; exact hq) hPresent
  have hWrap := hSafe.end_exact q (by rw [hDone.parts_eq]; exact hq) hPresent
  have hStart : (2048 : UInt32).toNat = 2048 := rfl
  rw [hDone.capacity_eq] at hLast
  omega

theorem SafeAlong.head {d : Disk} {es : List Edit} (h : SafeAlong d es) : LayoutSafe d := by
  cases es with
  | nil => exact h
  | cons e es => exact h.1

theorem safeAlong_of_fitsAlong {d : Disk} {es : List Edit} (hInv : Vacant d ∨ Roomy d)
    (hOk : AllSucceed d es) (hFits : FitsAlong d es) : SafeAlong d es := by
  have hSafe : LayoutSafe d := hInv.elim Vacant.layoutSafe Roomy.layoutSafe
  induction es generalizing d with
  | nil => exact hSafe
  | cons e es ih =>
    have hNext := Edit.fits_step hOk.1 hFits.1 hInv
    refine ⟨hSafe, ?_, ih (.inr hNext) hOk.2 hFits.2 hNext.layoutSafe⟩
    intro n hn
    have hBelow := (hFits.1 n hn).2
    omega

theorem fitsAlong_of_safeAlong {d : Disk} {es : List Edit} (hOk : AllSucceed d es)
    (hSafe : SafeAlong d es) : FitsAlong d es := by
  induction es generalizing d with
  | nil => trivial
  | cons e es ih =>
    obtain ⟨-, -, hRest⟩ := hSafe
    exact ⟨Edit.fits_of_layoutSafe hOk.1 hRest.head, ih hOk.2 hRest⟩

/-- In a run of successful edits of a vacant disk every table is safe exactly if no edit asks for more than there is. -/
theorem partition_layout_safe_iff (d : Disk) (es : List Edit) (hEmpty : Vacant d)
    (hOk : AllSucceed d es) : SafeAlong d es ↔ FitsAlong d es :=
  ⟨fitsAlong_of_safeAlong hOk, safeAlong_of_fitsAlong (.inl hEmpty) hOk⟩

def blankDisk (capacityMib : UInt32) : Disk where
  kind := .nvme
  capacityMib := capacityMib
  parts := List.replicate storageMaxPartitions emptyPartition
  sectors := fun _ _ => 0
  readFails := fun _ => false
  writeFails := fun _ => false
  reads := 0
  writes := 0

theorem blankDisk_vacant (capacityMib : UInt32) : Vacant (blankDisk capacityMib) := by
  intro p hp
  rw [List.eq_of_mem_replicate hp, emptyPartition]

theorem partition_layout_safe_four_mib :
    SafeAlong (blankDisk 4) [.create .efi 1, .create .data 1, .update 0 .efi 2, .delete 1] :=
  (partition_layout_safe_iff (blankDisk 4) _ (blankDisk_vacant 4) (by decide)).mpr (by decide)

theorem partition_layout_past_end_one_mib :
    Vacant (blankDisk 1) ∧ AllSucceed (blankDisk 1) [.create .data 1] ∧
      ¬ SafeAlong (blankDisk 1) [.create .data 1] := by
  refine ⟨blankDisk_vacant 1, ⟨rfl, trivial⟩, ?_⟩
  rintro ⟨-, -, hSafe⟩
  have hEnd := hSafe.end_le ⟨true, .data, 1, 2048, 2048, "Data"⟩ (by decide) rfl
  exact absurd hEnd (by decide)

end Runs

end UnixOS.Storage
