import UnixOS.Drivers.StorageEdits
import UnixOS.Drivers.StorageInstall

/-! # Making room for user data

`storage_prepare_user_partition` creates a data partition in the free space, or splits the only partition in
two edits. If the second edit fails, a third one takes the first back, as far as it can.
-/

namespace UnixOS.Storage

open ByteMemory

def userDataSize (freeMib : UInt32) : UInt32 := if 32768 < freeMib then 32768 else freeMib

def splitDataSize (originalSystemSize : UInt32) : UInt32 :=
  let dataSize := originalSystemSize / 4
  let dataSize := if dataSize < 4096 then 4096 else dataSize
  if 16384 < dataSize then 16384 else dataSize

/-- The last part of `storage_prepare_user_partition`, about the partition in `systemPartitionSlot`. -/
def splitSystem (d : Disk) (systemPartitionSlot : Nat) (systemPartitionIndex : Int) : Disk × Int :=
  let originalSystemSize := (d.parts.getD systemPartitionSlot emptyPartition).sizeMib
  let dataSize := splitDataSize originalSystemSize
  if originalSystemSize ≤ dataSize + 8192 then (d, 0)
  else
    let newSystemSize := originalSystemSize - dataSize
    if newSystemSize < 8192 then (d, 0)
    else
      match storageUpdatePartition d systemPartitionIndex .system newSystemSize with
      | (d, 0) =>
        match storageCreatePartition d .data dataSize with
        | (d, 0) => (d, 1)
        -- the outcome of the compensating update is ignored
        | (d, _) => ((storageUpdatePartition d systemPartitionIndex .system originalSystemSize).1, -1)
      | (d, _) => (d, -1)

def storagePrepareUserPartition (d : Disk) : Disk × Int :=
  if hasKind .data d.parts then (d, 0)
  else if 4096 ≤ freeMib d then
    match storageCreatePartition d .data (userDataSize (freeMib d)) with
    | (d, 0) => (d, 1)
    | (d, _) => (d, -1)
  else
    match slotOfKind .system d.parts, entryOfKind .system d.parts with
    | some slot, some index => if presentCount d.parts = 1 then splitSystem d slot index else (d, 0)
    | _, _ => (d, 0)

section Statement

structure Gives (p p' data : Partition) : Prop where
  present_eq : p'.present = p.present
  kind_eq : p'.kind = p.kind
  count_le : p.present = true → p.kind = .system → p.sectorCount.toNat ≤ p'.sectorCount.toNat + data.sectorCount.toNat

def AddsData (old new : List Partition) : Prop :=
  ∃ slot, ∃ free data : Partition, old[slot]? = some free ∧ free.present = false ∧
    new[slot]? = some data ∧ data.present = true ∧ data.kind = .data ∧
    new.length = old.length ∧
    ∀ i : Nat, i ≠ slot → ∀ p : Partition, old[i]? = some p → ∃ p' : Partition, new[i]? = some p' ∧ Gives p p' data

/-- All or nothing: what a run from `d` must have done by the time it returns. -/
structure Prepared (d : Disk) (r : Disk × Int) : Prop where
  failed : r.2 = -1 → r.1.parts = d.parts ∧ ∀ x < 512, r.1.sectors 0 x = d.sectors 0 x
  added : r.2 = 1 → AddsData d.parts r.1.parts

/-- A partition that is given `systemMib` mebibytes anew, and the `dataMib` split off, are no fewer sectors
than it had. -/
def CountKept (p : Partition) (systemMib dataMib : UInt32) : Prop :=
  p.sectorCount.toNat ≤ (storageMibToSectors systemMib).toNat + (storageMibToSectors dataMib).toNat

/-- The sector that the compensating update patches: zeros if its own read or that of the first edit fails. -/
def splitBase (d : Disk) : Mem :=
  if d.Readable ∧ d.readFails (d.reads + 2) = false then d.sectors 0 else fun _ => 0

/-- The compensating update gets through, and finds table and sector as an update would have made them. -/
structure Restores (d : Disk) (p : Partition) : Prop where
  admitted : p.sizeMib ≤ d.capacityMib
  written : d.writeFails (d.writes + 2) = false
  label_eq : p.label = "Update"
  laid_out : storageRecomputePartitionLayout d.parts = d.parts
  sector_eq : ∀ x < 512, mbrSector d.parts (splitBase d) x = d.sectors 0 x

def TakesFree (d : Disk) : Prop := hasKind .data d.parts = false ∧ 4096 ≤ freeMib d

structure SplitsAt (d : Disk) (slot : Nat) (p : Partition) : Prop where
  full : freeMib d < 4096
  slot_eq : d.parts[slot]? = some p
  present_eq : p.present = true
  kind_eq : p.kind = .system
  alone : presentCount d.parts = 1
  large : splitDataSize p.sizeMib + 8192 < p.sizeMib

structure PreparesSafely (d : Disk) : Prop where
  free : TakesFree d → presentCount d.parts < 4 → d.writeFails d.writes = false →
    ∀ p ∈ d.parts, p.present = true → p.kind = .system → CountKept p p.sizeMib (userDataSize (freeMib d))
  split : ∀ slot p, SplitsAt d slot p → p.sizeMib - splitDataSize p.sizeMib ≤ d.capacityMib →
    d.writeFails d.writes = false →
    if p.sizeMib ≤ d.capacityMib ∧ d.writeFails (d.writes + 1) = false then
      CountKept p (p.sizeMib - splitDataSize p.sizeMib) (splitDataSize p.sizeMib)
    else Restores d p

end Statement

section Sole

variable {d : Disk} {parts : List Partition} {slot : Nat} {p : Partition} {n : UInt32}

structure Sole (parts : List Partition) (slot : Nat) (p : Partition) : Prop where
  slot_eq : parts[slot]? = some p
  present_eq : p.present = true
  alone : presentCount parts = 1

theorem Sole.filter_eq (h : Sole parts slot p) : parts.filter Partition.present = [p] := by
  have hLength := h.alone
  rw [presentCount_eq_length, List.length_eq_one_iff] at hLength
  obtain ⟨q, hq⟩ := hLength
  have hMem : p ∈ parts.filter Partition.present :=
    List.mem_filter.mpr ⟨List.mem_of_getElem? h.slot_eq, h.present_eq⟩
  rw [hq, List.mem_singleton] at hMem
  rw [hq, hMem]

theorem Sole.rank_eq (h : Sole parts slot p) {i : Nat} {q : Partition} (hq : parts[i]? = some q)
    (hPresent : q.present = true) : presentCount (parts.take i) = 0 := by
  have hRank := getElem?_filter_present hq hPresent
  rw [h.filter_eq] at hRank
  have hLt := (List.getElem?_eq_some_iff.mp hRank).1
  simpa using hLt

theorem Sole.before (h : Sole parts slot p) : presentCount (parts.take slot) = 0 :=
  h.rank_eq h.slot_eq h.present_eq

theorem usedMib_filter (parts : List Partition) (total : UInt32) :
    parts.foldl (fun total p => if p.present then total + p.sizeMib else total) total =
      (parts.filter Partition.present).foldl (fun total p => total + p.sizeMib) total := by
  induction parts generalizing total with
  | nil => rfl
  | cons q ps ih =>
    cases hPresent : q.present with
    | false => simp [hPresent, ih]
    | true => simp [hPresent, ih]

theorem Sole.used_eq (h : Sole parts slot p) : storagePartitionUsedMib parts = p.sizeMib := by
  rw [storagePartitionUsedMib, usedMib_filter, h.filter_eq]
  exact UInt32.zero_add p.sizeMib

theorem visibleSlot_rank (hp : parts[slot]? = some p) (hPresent : p.present = true) :
    visibleSlot parts (presentCount (parts.take slot)) = some slot := by
  induction parts generalizing slot with
  | nil => simp at hp
  | cons q ps ih =>
    cases slot with
    | zero =>
      obtain rfl : q = p := by simpa using hp
      simp [visibleSlot, hPresent, presentCount]
    | succ slot =>
      have hTail := ih (by simpa using hp)
      cases hq : q.present with
      | false =>
        have hRank : presentCount ((q :: ps).take (slot + 1)) = presentCount (ps.take slot) := by
          simp [presentCount, hq]
        rw [hRank]
        simp [visibleSlot, hq, hTail]
      | true =>
        have hRank : presentCount ((q :: ps).take (slot + 1)) = presentCount (ps.take slot) + 1 := by
          simp [presentCount, hq]
        have hNonzero : ((presentCount (ps.take slot) + 1 : Nat) : Int) ≠ 0 := by omega
        rw [visibleSlot, if_pos hq, hRank, if_neg hNonzero]
        simp [hTail]

theorem Sole.visibleSlot_eq (h : Sole parts slot p) : visibleSlot parts 0 = some slot := by
  have hRank := visibleSlot_rank h.slot_eq h.present_eq
  rwa [h.before] at hRank

theorem Sole.slot_unique (h : Sole parts slot p) {i : Nat} {q : Partition} (hq : parts[i]? = some q)
    (hPresent : q.present = true) : i = slot := by
  have hThere := visibleSlot_rank hq hPresent
  rw [h.rank_eq hq hPresent] at hThere
  exact Option.some_inj.mp (hThere.symm.trans h.visibleSlot_eq)

theorem Sole.slotOfKind_eq (h : Sole parts slot p) : slotOfKind p.kind parts = some slot := by
  obtain ⟨hLt, hp⟩ := List.getElem?_eq_some_iff.mp h.slot_eq
  refine List.findIdx?_eq_some_iff_getElem.mpr ⟨hLt, by simp [hp, h.present_eq], ?_⟩
  intro i hi
  have hNone := List.countP_eq_zero.mp h.before
  have hAbsent := hNone parts[i] (List.mem_take_iff_getElem.mpr ⟨i, by omega, rfl⟩)
  simp [hAbsent]

theorem Sole.entryOfKind_eq (h : Sole parts slot p) : entryOfKind p.kind parts = some 0 := by
  rw [Storage.entryOfKind_eq, h.slotOfKind_eq, Option.map_some, h.before]

theorem Sole.hasKind_eq (h : Sole parts slot p) (kind : PartitionKind) :
    hasKind kind parts = decide (p.kind = kind) := by
  have hAny : hasKind kind parts = (parts.filter Partition.present).any fun p => p.kind = kind := by
    rw [hasKind, List.any_filter]
  rw [hAny, h.filter_eq]
  simp

theorem presentCount_modify_same {f : Partition → Partition} (hSame : ∀ p, (f p).present = p.present) :
    presentCount (parts.modify slot f) = presentCount parts := by
  induction parts generalizing slot with
  | nil => simp
  | cons q ps ih =>
    cases slot with
    | zero => simp only [presentCount, List.modify_zero_cons, List.countP_cons, hSame]
    | succ slot =>
      simp only [presentCount] at ih ⊢
      rw [List.modify_succ_cons, List.countP_cons, List.countP_cons, ih]

def resized (parts : List Partition) (slot : Nat) (sizeMib : UInt32) : List Partition :=
  parts.modify slot fun p => { p with kind := .system, sizeMib, label := "Update" }

theorem Sole.resized (h : Sole parts slot p) (sizeMib : UInt32) :
    Sole (resized parts slot sizeMib) slot { p with kind := .system, sizeMib, label := "Update" } where
  slot_eq := by
    rw [Storage.resized, List.getElem?_modify_eq, h.slot_eq]
    rfl
  present_eq := h.present_eq
  alone := (presentCount_modify_same fun p => rfl : presentCount (Storage.resized parts slot sizeMib) =
    presentCount parts).trans h.alone

theorem Sole.layout (h : Sole parts slot p) :
    ∃ p', Sole (storageRecomputePartitionLayout parts) slot p' ∧ p'.kind = p.kind ∧ p'.sizeMib = p.sizeMib := by
  obtain ⟨p', hp', hPresent, hKind, hSize, -⟩ := layoutFrom_getElem? 2048 h.slot_eq
  refine ⟨p', ⟨hp', by rw [hPresent, h.present_eq], ?_⟩, hKind, hSize⟩
  rw [storageRecomputePartitionLayout, presentCount_layoutFrom, h.alone]

theorem Sole.update_eq (h : Sole d.parts slot p) (hn : n ≠ 0) :
    storageUpdatePartition d 0 .system n =
      if d.capacityMib < n then (d, -1)
      else if d.writeFails d.writes then (d.restored, -1)
      else (d.committed (Storage.resized d.parts slot n), 0) := by
  have hOld : (d.parts.getD slot emptyPartition).sizeMib = p.sizeMib := by
    rw [List.getD_eq_getElem?_getD, h.slot_eq, Option.getD_some]
  have hFew : ¬ 4 < presentCount (Storage.resized d.parts slot n) := by
    rw [(h.resized n).alone]
    omega
  rw [storageUpdatePartition, if_neg hn, h.visibleSlot_eq]
  dsimp only
  rw [hOld, h.used_eq, UInt32.sub_self, UInt32.zero_add]
  refine if_congr Iff.rfl rfl ?_
  have hCommit := commitOrRestore_eq d (Storage.resized d.parts slot n)
  rw [if_neg hFew] at hCommit
  exact hCommit

end Sole

section Create

variable {d : Disk} {old t : List Partition} {slot : Nat} {n : UInt32}

theorem storageCreatePartition_eq (hn : n ≠ 0) (kind : PartitionKind)
    (hSlot : storageFindFreePartitionSlot d.parts = some slot) (hFew : presentCount d.parts < 4) :
    storageCreatePartition d kind n =
      if d.capacityMib < storagePartitionUsedMib d.parts + n then (d, -1)
      else if d.writeFails d.writes then (d.restored, -1)
      else (d.committed (d.parts.modify slot ((Edit.create kind n).rewrite d.parts)), 0) := by
  obtain ⟨p, hp, hAbsent⟩ := freeSlot_absent hSlot
  have hCount : presentCount (d.parts.modify slot ((Edit.create kind n).rewrite d.parts)) =
      presentCount d.parts + 1 := presentCount_modify hp hAbsent rfl
  rw [storageCreatePartition, if_neg hn, hSlot]
  refine if_congr Iff.rfl rfl ?_
  have hCommit := commitOrRestore_eq d (d.parts.modify slot ((Edit.create kind n).rewrite d.parts))
  rw [if_neg (by omega)] at hCommit
  exact hCommit

def kinds (parts : List Partition) : List (Bool × PartitionKind) := parts.map fun p => (p.present, p.kind)

theorem kinds_getElem? (h : kinds t = kinds old) {i : Nat} {p : Partition} (hp : old[i]? = some p) :
    ∃ q, t[i]? = some q ∧ q.present = p.present ∧ q.kind = p.kind := by
  have hAt : (kinds t)[i]? = some (p.present, p.kind) := by
    rw [h, kinds, List.getElem?_map, hp]
    rfl
  rw [kinds, List.getElem?_map, Option.map_eq_some_iff] at hAt
  obtain ⟨q, hq, hSame⟩ := hAt
  exact ⟨q, hq, congrArg Prod.fst hSame, congrArg Prod.snd hSame⟩

theorem addsData_iff (hKinds : kinds t = kinds old) (hSlot : storageFindFreePartitionSlot t = some slot) :
    AddsData old (storageRecomputePartitionLayout (t.modify slot ((Edit.create .data n).rewrite t))) ↔
      ∀ (i : Nat) (p q : Partition), old[i]? = some p → t[i]? = some q → p.present = true → p.kind = .system →
        CountKept p q.sizeMib n := by
  obtain ⟨free, hFree, hAbsent⟩ := freeSlot_absent hSlot
  obtain ⟨oldFree, hOldFree, hOldAbsent, -⟩ := kinds_getElem? hKinds.symm hFree
  rw [hAbsent] at hOldAbsent
  have hHere : (t.modify slot ((Edit.create .data n).rewrite t))[slot]? =
      some ((Edit.create .data n).rewrite t free) := by
    rw [List.getElem?_modify_eq, hFree]
    rfl
  obtain ⟨data, hData, hPresent, hKind, -, -, hPlace⟩ := layoutFrom_getElem? 2048 hHere
  have hCount := (hPlace rfl).2
  have hThere : ∀ (i : Nat) (q : Partition), i ≠ slot → t[i]? = some q → ∃ q' : Partition,
      (storageRecomputePartitionLayout (t.modify slot ((Edit.create .data n).rewrite t)))[i]? = some q' ∧
      q'.present = q.present ∧ q'.kind = q.kind ∧
      (q.present = true → q'.sectorCount = storageMibToSectors q.sizeMib) := by
    intro i q hi hq
    have hSame : (t.modify slot ((Edit.create .data n).rewrite t))[i]? = some q := by
      rw [List.getElem?_modify_ne _ _ hi.symm, hq]
    obtain ⟨q', hq', hPresent', hKind', -, -, hPlace'⟩ := layoutFrom_getElem? 2048 hSame
    exact ⟨q', hq', hPresent', hKind', fun h => (hPlace' h).2⟩
  constructor
  · rintro ⟨slot', free', data', hFree', hAbsent', hData', hPresent', -, -, hOthers⟩ i p q hp hq hPres hSystem
    obtain rfl : slot' = slot := by
      by_contra hOther
      obtain ⟨q', hq', hPres', -⟩ := kinds_getElem? hKinds hFree'
      obtain ⟨q'', hq'', hPres'', -⟩ := hThere slot' q' hOther hq'
      rw [hData', Option.some_inj] at hq''
      rw [hq'', hPres'', hPres', hAbsent'] at hPresent'
      cases hPresent'
    obtain rfl : data = data' := Option.some_inj.mp (hData.symm.trans hData')
    have hi : i ≠ slot' := by
      rintro rfl
      rw [hOldFree, Option.some_inj] at hp
      rw [← hp, hOldAbsent] at hPres
      cases hPres
    obtain ⟨p', hp', hGives⟩ := hOthers i hi p hp
    obtain ⟨q', hq', hPresQ, -, hCountQ⟩ := hThere i q hi hq
    obtain rfl : p' = q' := Option.some_inj.mp (hp'.symm.trans hq')
    have hLe := hGives.count_le hPres hSystem
    rwa [hCount, hCountQ (by rw [← hPresQ, hGives.present_eq, hPres])] at hLe
  · intro hCounts
    refine ⟨slot, oldFree, data, hOldFree, hOldAbsent, hData, hPresent, hKind, ?_, ?_⟩
    · have hLength := congrArg List.length hKinds
      simp only [kinds, List.length_map] at hLength
      rw [storageRecomputePartitionLayout, layoutFrom_length, List.length_modify, hLength]
    · intro i hi p hp
      obtain ⟨q, hq, hPresQ, hKindQ⟩ := kinds_getElem? hKinds hp
      obtain ⟨q', hq', hPresQ', hKindQ', hCountQ⟩ := hThere i q hi hq
      refine ⟨q', hq', by rw [hPresQ', hPresQ], by rw [hKindQ', hKindQ], ?_⟩
      intro hPres hSystem
      rw [hCount, hCountQ (by rw [hPresQ, hPres])]
      exact hCounts i p q hp hq hPres hSystem

end Create

section Rewrite

variable {s s' : Mem} {active : Option Nat} {parts : List Partition} {x : Nat}

theorem store_congr {a w v : Nat} (h : ¬ (a ≤ x ∧ x < a + w) → s x = s' x) :
    store s a w v x = store s' a w v x := ite_congr rfl (fun _ => rfl) h

theorem fill_congr {a n : Nat} {f : Nat → UInt8} (h : ¬ (a ≤ x ∧ x < a + n) → s x = s' x) :
    fill s a n f x = fill s' a n f x := ite_congr rfl (fun _ => rfl) h

theorem writeEntry_congr {entry : Nat} {p : Partition} (h : s x = s' x) :
    writeEntry active entry p s x = writeEntry active entry p s' x := by
  simp only [writeEntry, storageWriteLe32]
  iterate 10
    apply store_congr
    intro _
  exact h

theorem writeEntries_congr {entry : Nat} (h : s x = s' x) :
    writeEntries active entry parts s x = writeEntries active entry parts s' x := by
  induction parts generalizing entry s s' with
  | nil => exact h
  | cons p ps ih =>
    rw [writeEntries, writeEntries]
    split
    · exact ih (writeEntry_congr h)
    · exact ih h

theorem mbrSector_congr (h : x < 446 ∨ 512 ≤ x → s x = s' x) : mbrSector parts s x = mbrSector parts s' x := by
  apply store_congr
  intro hSecond
  apply store_congr
  intro hFirst
  apply writeEntries_congr
  apply fill_congr
  intro hTable
  simp only [storageMbrSignatureOffset] at hFirst hSecond
  simp only [storageMbrPartitionOffset] at hTable
  exact h (by omega)

theorem mbrSector_mbrSector (parts parts' : List Partition) (s : Mem) {x : Nat} (hx : x < 512) :
    mbrSector parts (mbrSector parts' s) x = mbrSector parts s x := by
  apply mbrSector_congr
  intro hOutside
  exact mbrSector_code (show x < 446 by omega)

end Rewrite

section Split

variable {d : Disk} {slot : Nat} {p : Partition}

theorem splitDataSize_bounds (sizeMib : UInt32) :
    4096 ≤ (splitDataSize sizeMib).toNat ∧ (splitDataSize sizeMib).toNat ≤ 16384 := by
  have hLeast : (4096 : UInt32).toNat = 4096 := rfl
  have hMost : (16384 : UInt32).toNat = 16384 := rfl
  simp only [splitDataSize, UInt32.lt_iff_toNat_lt]
  split
  · split
    · omega
    · omega
  · split
    · omega
    · omega

theorem SplitsAt.sole (h : SplitsAt d slot p) : Sole d.parts slot p := ⟨h.slot_eq, h.present_eq, h.alone⟩

structure Halves (whole n c : UInt32) : Prop where
  first_pos : n ≠ 0
  second_pos : c ≠ 0
  sum_eq : n + c = whole
  large : ¬ n < 8192
  ne_whole : n ≠ whole

theorem SplitsAt.halves (h : SplitsAt d slot p) :
    Halves p.sizeMib (p.sizeMib - splitDataSize p.sizeMib) (splitDataSize p.sizeMib) := by
  have hBounds := splitDataSize_bounds p.sizeMib
  have hLarge := h.large
  have hMost : (8192 : UInt32).toNat = 8192 := rfl
  have hZero : (0 : UInt32).toNat = 0 := rfl
  rw [UInt32.lt_iff_toNat_lt, UInt32.toNat_add, hMost, Nat.mod_eq_of_lt (by omega)] at hLarge
  have hFirst : (p.sizeMib - splitDataSize p.sizeMib).toNat =
      p.sizeMib.toNat - (splitDataSize p.sizeMib).toNat :=
    UInt32.toNat_sub_of_le _ _ (by rw [UInt32.le_iff_toNat_le]; omega)
  constructor
  · exact ne_zero_of_toNat_pos (by omega)
  · exact ne_zero_of_toNat_pos (by omega)
  · exact UInt32.sub_add_cancel _ _
  · rw [UInt32.lt_iff_toNat_lt]
    omega
  · intro hSame
    have hToNat := congrArg UInt32.toNat hSame
    omega

theorem SplitsAt.prepare_eq (h : SplitsAt d slot p) : storagePrepareUserPartition d = splitSystem d slot 0 := by
  have hData : hasKind .data d.parts = false := by
    rw [h.sole.hasKind_eq, h.kind_eq]
    rfl
  have hFull : ¬ 4096 ≤ freeMib d := UInt32.not_le.mpr h.full
  have hSlot := h.sole.slotOfKind_eq
  have hEntry := h.sole.entryOfKind_eq
  rw [h.kind_eq] at hSlot hEntry
  rw [storagePrepareUserPartition, hData, if_neg Bool.false_ne_true, if_neg hFull, hSlot, hEntry]
  exact if_pos h.alone

theorem prepare_free (h : TakesFree d) : storagePrepareUserPartition d =
    match storageCreatePartition d .data (userDataSize (freeMib d)) with
    | (d, 0) => (d, 1)
    | (d, _) => (d, -1) := by
  rw [storagePrepareUserPartition, h.1, if_neg Bool.false_ne_true, if_pos h.2]

theorem prepare_idle (hFree : ¬ TakesFree d) (hSplit : ∀ slot p, ¬ SplitsAt d slot p) :
    storagePrepareUserPartition d = (d, 0) := by
  rw [storagePrepareUserPartition]
  split
  · rfl
  rename_i hData
  split
  · rename_i hRoom
    exact absurd ⟨by simpa using hData, hRoom⟩ hFree
  rename_i hFull
  split
  · rename_i slot index hSlot hEntry
    split
    · rename_i hAlone
      obtain ⟨hLt, hFound, -⟩ := List.findIdx?_eq_some_iff_getElem.mp hSlot
      have hp : d.parts[slot]? = some d.parts[slot] := List.getElem?_eq_getElem hLt
      rw [Bool.and_eq_true, decide_eq_true_iff] at hFound
      simp only [splitSystem, List.getD_eq_getElem?_getD, hp, Option.getD_some]
      rw [if_pos]
      by_contra hLarge
      exact hSplit slot d.parts[slot]
        ⟨UInt32.not_le.mp hFull, hp, hFound.1, hFound.2, hAlone, UInt32.not_le.mp hLarge⟩
    · rfl
  · rfl

def shrunk (d : Disk) (slot : Nat) (p : Partition) : Disk :=
  d.committed (resized d.parts slot (p.sizeMib - splitDataSize p.sizeMib))

theorem SplitsAt.shrunk_sole (h : SplitsAt d slot p) : ∃ p', Sole (shrunk d slot p).parts slot p' ∧
    p'.kind = .system ∧ p'.sizeMib = p.sizeMib - splitDataSize p.sizeMib :=
  (h.sole.resized _).layout

theorem SplitsAt.shrunk_free (h : SplitsAt d slot p) (hSlots : d.parts.length = storageMaxPartitions) :
    ∃ dataSlot, storageFindFreePartitionSlot (shrunk d slot p).parts = some dataSlot := by
  obtain ⟨p', hSole, -⟩ := h.shrunk_sole
  apply freeSlot_exists
  have hLength : (shrunk d slot p).parts.length = storageMaxPartitions := by
    rw [shrunk, Disk.committed, storageRecomputePartitionLayout, layoutFrom_length, resized, List.length_modify,
      hSlots]
  rw [hSole.alone, hLength]
  decide

theorem SplitsAt.splitSystem_eq (h : SplitsAt d slot p) {dataSlot : Nat}
    (hFree : storageFindFreePartitionSlot (shrunk d slot p).parts = some dataSlot) :
    splitSystem d slot 0 =
      if d.capacityMib < p.sizeMib - splitDataSize p.sizeMib then (d, -1)
      else if d.writeFails d.writes then (d.restored, -1)
      else if d.capacityMib < p.sizeMib then (shrunk d slot p, -1)
      else if d.writeFails (d.writes + 1) then
        if d.writeFails (d.writes + 2) then ((shrunk d slot p).restored.restored, -1)
        else ((shrunk d slot p).restored.committed (resized (shrunk d slot p).parts slot p.sizeMib), -1)
      else ((shrunk d slot p).committed ((shrunk d slot p).parts.modify dataSlot
        ((Edit.create .data (splitDataSize p.sizeMib)).rewrite (shrunk d slot p).parts)), 1) := by
  have hHalves := h.halves
  obtain ⟨p', hSole, -, hSize⟩ := h.shrunk_sole
  have hWhole : p.sizeMib ≠ 0 := by
    intro hZero
    have hLarge := h.large
    rw [hZero] at hLarge
    exact absurd hLarge (UInt32.not_lt.mpr UInt32.zero_le)
  have hFew : presentCount (shrunk d slot p).parts < 4 := by
    rw [hSole.alone]
    omega
  have hSum : storagePartitionUsedMib (shrunk d slot p).parts + splitDataSize p.sizeMib = p.sizeMib := by
    rw [hSole.used_eq, hSize, hHalves.sum_eq]
  have hFirst := h.sole.update_eq hHalves.first_pos
  have hSecond := storageCreatePartition_eq hHalves.second_pos .data hFree hFew
  rw [hSum] at hSecond
  simp only [splitSystem, List.getD_eq_getElem?_getD, h.slot_eq, Option.getD_some]
  rw [if_neg (UInt32.not_le.mpr h.large), if_neg hHalves.large, hFirst]
  by_cases hFits : d.capacityMib < p.sizeMib - splitDataSize p.sizeMib
  · rw [if_pos hFits, if_pos hFits]
    rfl
  rw [if_neg hFits, if_neg hFits]
  by_cases hWrite : d.writeFails d.writes = true
  · rw [if_pos hWrite, if_pos hWrite]
    rfl
  rw [if_neg hWrite, if_neg hWrite]
  change (match storageCreatePartition (shrunk d slot p) .data (splitDataSize p.sizeMib) with
    | (d, 0) => (d, 1)
    | (d, _) => ((storageUpdatePartition d 0 .system p.sizeMib).1, -1)) = _
  rw [hSecond]
  by_cases hRoom : d.capacityMib < p.sizeMib
  · -- the creation is refused, and so is the update that should take the split back
    have hThird := hSole.update_eq hWhole
    have hRoom' : (shrunk d slot p).capacityMib < p.sizeMib := hRoom
    rw [if_pos hRoom', if_pos hRoom]
    change ((storageUpdatePartition (shrunk d slot p) 0 .system p.sizeMib).1, (-1 : Int)) = _
    rw [hThird, if_pos hRoom']
  have hRoom' : ¬ (shrunk d slot p).capacityMib < p.sizeMib := hRoom
  rw [if_neg hRoom, if_neg hRoom']
  by_cases hData : d.writeFails (d.writes + 1) = true
  · have hData' : (shrunk d slot p).writeFails (shrunk d slot p).writes = true := hData
    have hThird : storageUpdatePartition (shrunk d slot p).restored 0 .system p.sizeMib =
        if (shrunk d slot p).restored.capacityMib < p.sizeMib then ((shrunk d slot p).restored, -1)
        else if d.writeFails (d.writes + 2) = true then ((shrunk d slot p).restored.restored, -1)
        else ((shrunk d slot p).restored.committed (resized (shrunk d slot p).parts slot p.sizeMib), 0) :=
      Sole.update_eq (show Sole (shrunk d slot p).restored.parts slot p' from hSole) hWhole
    rw [if_pos hData', if_pos hData]
    change ((storageUpdatePartition (shrunk d slot p).restored 0 .system p.sizeMib).1, (-1 : Int)) = _
    rw [hThird, if_neg (show ¬ (shrunk d slot p).restored.capacityMib < p.sizeMib from hRoom)]
    split
    · rfl
    · rfl
  · have hData' : ¬ (shrunk d slot p).writeFails (shrunk d slot p).writes = true := hData
    rw [if_neg hData', if_neg hData]
    rfl

theorem resized_layoutFrom (nextLba nextLba' n whole : UInt32) (parts : List Partition) (slot : Nat) :
    layoutFrom nextLba (resized (layoutFrom nextLba' (resized parts slot n)) slot whole) =
      layoutFrom nextLba (resized parts slot whole) := by
  simp only [resized]
  induction parts generalizing nextLba nextLba' slot with
  | nil => simp [layoutFrom]
  | cons q ps ih =>
    cases slot with
    | zero =>
      cases hPresent : q.present with
      | false => simp [layoutFrom, hPresent, layoutFrom_layoutFrom]
      | true => simp [layoutFrom, hPresent, layoutFrom_layoutFrom]
    | succ slot =>
      cases hPresent : q.present with
      | false => simp [layoutFrom, hPresent, ih]
      | true => simp [layoutFrom, hPresent, ih]

theorem resized_self {parts : List Partition} (hp : parts[slot]? = some p) (hKind : p.kind = .system)
    (hLabel : p.label = "Update") : resized parts slot p.sizeMib = parts := by
  apply List.ext_getElem?
  intro i
  by_cases hi : slot = i
  · subst hi
    rw [resized, List.getElem?_modify_eq, hp, ← hKind, ← hLabel]
    rfl
  · rw [resized, List.getElem?_modify_ne _ _ hi]

theorem resized_layout_iff {parts : List Partition} (hp : parts[slot]? = some p) (hKind : p.kind = .system) :
    storageRecomputePartitionLayout (resized parts slot p.sizeMib) = parts ↔
      p.label = "Update" ∧ storageRecomputePartitionLayout parts = parts := by
  constructor
  · intro hSame
    have hHere : (resized parts slot p.sizeMib)[slot]? = some { p with kind := .system, label := "Update" } := by
      rw [resized, List.getElem?_modify_eq, hp]
      rfl
    obtain ⟨p', hp', -, -, -, hLabel', -⟩ := layoutFrom_getElem? 2048 hHere
    rw [storageRecomputePartitionLayout] at hSame
    rw [hSame, hp, Option.some_inj] at hp'
    have hLabel : p.label = "Update" := by rw [hp', hLabel']
    refine ⟨hLabel, ?_⟩
    rwa [resized_self hp hKind hLabel] at hSame
  · rintro ⟨hLabel, hLaidOut⟩
    rw [resized_self hp hKind hLabel, hLaidOut]

theorem mbrSector_splitBase (slot : Nat) (p : Partition) (parts : List Partition) {x : Nat} (hx : x < 512) :
    mbrSector parts (commitBase (shrunk d slot p).restored) x = mbrSector parts (splitBase d) x := by
  have hRead : (shrunk d slot p).restored.Readable ↔ d.kind ≠ .cdrom ∧ d.readFails (d.reads + 2) = false := by
    refine and_congr_right ?_
    intro hKind
    have hDrive : d.kind ≠ .cdrom := hKind
    have hReads : (shrunk d slot p).restored.reads = d.reads + 2 := by
      simp [shrunk, Disk.restored, Disk.committed, Disk.readsAfter, hDrive]
    rw [hReads]
    exact Iff.rfl
  have hSector : (shrunk d slot p).restored.sectors 0 =
      mbrSector (shrunk d slot p).parts (commitBase d) := by
    simp [shrunk, Disk.restored, Disk.committed]
  rw [commitBase, hSector]
  by_cases hThird : (shrunk d slot p).restored.Readable
  · rw [if_pos hThird, mbrSector_mbrSector _ _ _ hx, commitBase, splitBase]
    have hSame : d.Readable ↔ d.Readable ∧ d.readFails (d.reads + 2) = false :=
      (and_iff_left (hRead.mp hThird).2).symm
    rw [if_congr hSame rfl rfl]
  · rw [if_neg hThird, splitBase, if_neg]
    rintro ⟨hFirst, hLast⟩
    exact hThird (hRead.mpr ⟨hFirst.1, hLast⟩)

end Split

section Prepare

variable {d d' : Disk} {slot : Nat} {p : Partition}

theorem prepared_failed_iff : Prepared d (d', -1) ↔
    d'.parts = d.parts ∧ ∀ x < 512, d'.sectors 0 x = d.sectors 0 x := by
  constructor
  · intro h
    exact h.failed rfl
  · intro h
    exact ⟨fun _ => h, fun hAdded => absurd (show (-1 : Int) = 1 from hAdded) (by decide)⟩

theorem prepared_added_iff : Prepared d (d', 1) ↔ AddsData d.parts d'.parts := by
  constructor
  · intro h
    exact h.added rfl
  · intro h
    exact ⟨fun hFailed => absurd (show (1 : Int) = -1 from hFailed) (by decide), fun _ => h⟩

theorem prepared_idle : Prepared d (d, 0) :=
  ⟨fun hFailed => absurd (show (0 : Int) = -1 from hFailed) (by decide),
    fun hAdded => absurd (show (0 : Int) = 1 from hAdded) (by decide)⟩

theorem prepared_kept (h : d'.content = d.content) : Prepared d (d', -1) := by
  rw [prepared_failed_iff]
  refine ⟨congrArg Prod.fst h, ?_⟩
  intro x _
  exact congrFun (congrFun (congrArg Prod.snd h) 0) x

theorem shrunk_table_ne (h : SplitsAt d slot p) : (shrunk d slot p).parts ≠ d.parts := by
  intro hSame
  obtain ⟨p', hSole, -, hSize⟩ := h.shrunk_sole
  have hSlot := hSole.slot_eq
  rw [hSame, h.slot_eq, Option.some_inj] at hSlot
  rw [← hSlot] at hSize
  exact h.halves.ne_whole hSize.symm

theorem kinds_resized {parts : List Partition} (hp : parts[slot]? = some p) (hKind : p.kind = .system)
    (n : UInt32) : kinds (resized parts slot n) = kinds parts := by
  simp only [kinds, resized]
  induction parts generalizing slot with
  | nil => simp
  | cons q ps ih =>
    cases slot with
    | zero =>
      obtain rfl : q = p := by simpa using hp
      simp [hKind]
    | succ slot => simp [ih (by simpa using hp)]

theorem kinds_shrunk (h : SplitsAt d slot p) : kinds (shrunk d slot p).parts = kinds d.parts :=
  (map_layoutFrom (fun _ _ _ => rfl) 2048 _).trans (kinds_resized h.slot_eq h.kind_eq _)

theorem SplitsAt.prepared_iff (h : SplitsAt d slot p) (hSlots : d.parts.length = storageMaxPartitions) :
    Prepared d (storagePrepareUserPartition d) ↔
      (p.sizeMib - splitDataSize p.sizeMib ≤ d.capacityMib → d.writeFails d.writes = false →
        if p.sizeMib ≤ d.capacityMib ∧ d.writeFails (d.writes + 1) = false then
          CountKept p (p.sizeMib - splitDataSize p.sizeMib) (splitDataSize p.sizeMib)
        else Restores d p) := by
  obtain ⟨dataSlot, hFree⟩ := h.shrunk_free hSlots
  rw [h.prepare_eq, h.splitSystem_eq hFree]
  by_cases hFits : d.capacityMib < p.sizeMib - splitDataSize p.sizeMib
  · rw [if_pos hFits]
    exact iff_of_true (prepared_kept rfl) fun hLe => absurd hFits (UInt32.not_lt.mpr hLe)
  rw [if_neg hFits]
  cases hWrite : d.writeFails d.writes with
  | true =>
    rw [if_pos rfl]
    exact iff_of_true (prepared_kept rfl) fun _ hWorks => absurd hWorks (by decide)
  | false =>
    rw [if_neg Bool.false_ne_true]
    simp only [UInt32.not_lt.mp hFits, true_imp_iff]
    by_cases hRoom : d.capacityMib < p.sizeMib
    · rw [if_pos hRoom, if_neg fun hBoth => absurd hRoom (UInt32.not_lt.mpr hBoth.1), prepared_failed_iff]
      exact iff_of_false (fun hSame => shrunk_table_ne h hSame.1)
        fun hRestores => absurd hRoom (UInt32.not_lt.mpr hRestores.admitted)
    rw [if_neg hRoom]
    cases hData : d.writeFails (d.writes + 1) with
    | true =>
      have hNot : ¬ (p.sizeMib ≤ d.capacityMib ∧ true = false) := fun hBoth => absurd hBoth.2 (by decide)
      rw [if_pos rfl, if_neg hNot]
      cases hUndo : d.writeFails (d.writes + 2) with
      | true =>
        rw [if_pos rfl, prepared_failed_iff]
        exact iff_of_false (fun hSame => shrunk_table_ne h hSame.1)
          fun hRestores => absurd (hRestores.written.symm.trans hUndo) (by decide)
      | false =>
        have hTable : ((shrunk d slot p).restored.committed (resized (shrunk d slot p).parts slot p.sizeMib)).parts =
            storageRecomputePartitionLayout (resized d.parts slot p.sizeMib) :=
          resized_layoutFrom 2048 2048 _ _ d.parts slot
        have hSector : ∀ x < 512, ((shrunk d slot p).restored.committed
            (resized (shrunk d slot p).parts slot p.sizeMib)).sectors 0 x =
              mbrSector (storageRecomputePartitionLayout (resized d.parts slot p.sizeMib)) (splitBase d) x := by
          intro x hx
          rw [← mbrSector_splitBase slot p _ hx, ← hTable]
          simp [Disk.committed]
        rw [if_neg Bool.false_ne_true, prepared_failed_iff, hTable, resized_layout_iff h.slot_eq h.kind_eq]
        constructor
        · rintro ⟨⟨hLabel, hLaidOut⟩, hBytes⟩
          refine ⟨UInt32.not_lt.mp hRoom, hUndo, hLabel, hLaidOut, ?_⟩
          intro x hx
          rw [← hBytes x hx, hSector x hx, resized_self h.slot_eq h.kind_eq hLabel, hLaidOut]
        · intro hRestores
          refine ⟨⟨hRestores.label_eq, hRestores.laid_out⟩, ?_⟩
          intro x hx
          rw [hSector x hx, resized_self h.slot_eq h.kind_eq hRestores.label_eq, hRestores.laid_out,
            hRestores.sector_eq x hx]
    | false =>
      rw [if_neg Bool.false_ne_true, if_pos ⟨UInt32.not_lt.mp hRoom, rfl⟩, prepared_added_iff]
      obtain ⟨p', hSole, -, hSize⟩ := h.shrunk_sole
      have hAdds : AddsData d.parts (storageRecomputePartitionLayout ((shrunk d slot p).parts.modify dataSlot
          ((Edit.create .data (splitDataSize p.sizeMib)).rewrite (shrunk d slot p).parts))) ↔ _ :=
        addsData_iff (kinds_shrunk h) hFree
      refine hAdds.trans ?_
      constructor
      · intro hCounts
        rw [← hSize]
        exact hCounts slot p p' h.slot_eq hSole.slot_eq h.present_eq h.kind_eq
      · intro hCount i q q' hq hq' hPresent _
        obtain rfl : i = slot := h.sole.slot_unique hq hPresent
        obtain rfl : q = p := Option.some_inj.mp (hq.symm.trans h.slot_eq)
        obtain rfl : q' = p' := Option.some_inj.mp (hq'.symm.trans hSole.slot_eq)
        rwa [hSize]

theorem userDataSize_bounds {freeMib : UInt32} (h : 4096 ≤ freeMib) :
    0 < (userDataSize freeMib).toNat ∧ (userDataSize freeMib).toNat ≤ freeMib.toNat := by
  have hMost : (32768 : UInt32).toNat = 32768 := rfl
  have hLeast : (4096 : UInt32).toNat = 4096 := rfl
  rw [UInt32.le_iff_toNat_le] at h
  rw [userDataSize]
  split
  · rename_i hLarge
    rw [UInt32.lt_iff_toNat_lt] at hLarge
    omega
  · omega

theorem TakesFree.admitted (h : TakesFree d) :
    ¬ d.capacityMib < storagePartitionUsedMib d.parts + userDataSize (freeMib d) := by
  have hBounds := userDataSize_bounds h.2
  have hRoom := h.2
  have hLeast : (4096 : UInt32).toNat = 4096 := rfl
  have hZero : (0 : UInt32).toNat = 0 := rfl
  have hCapacity := d.capacityMib.toNat_lt
  rw [UInt32.le_iff_toNat_le, hLeast] at hRoom
  have hFree : (freeMib d).toNat = d.capacityMib.toNat - (storagePartitionUsedMib d.parts).toNat ∧
      (storagePartitionUsedMib d.parts).toNat < d.capacityMib.toNat := by
    rw [freeMib] at hRoom ⊢
    split
    · rename_i hUsed
      exact ⟨UInt32.toNat_sub_of_le _ _ (UInt32.le_of_lt hUsed), UInt32.lt_iff_toNat_lt.mp hUsed⟩
    · rename_i hUsed
      rw [if_neg hUsed, hZero] at hRoom
      omega
  rw [UInt32.lt_iff_toNat_lt, UInt32.toNat_add]
  omega

theorem storageCreatePartition_full {kind : PartitionKind} {n : UInt32} (h : 4 ≤ presentCount d.parts) :
    (storageCreatePartition d kind n).2 ≠ 0 := by
  intro hOk
  obtain ⟨-, slot, p, hSlot, hp, hDone⟩ := Edit.apply_ok (e := .create kind n) hOk
  obtain ⟨q, hq, hAbsent⟩ := freeSlot_absent hSlot
  obtain rfl : p = q := by simpa [hp] using hq
  have hFew := hDone.few
  rw [presentCount_modify hp hAbsent rfl] at hFew
  omega

theorem TakesFree.prepared_iff (h : TakesFree d) (hSlots : d.parts.length = storageMaxPartitions) :
    Prepared d (storagePrepareUserPartition d) ↔
      (presentCount d.parts < 4 → d.writeFails d.writes = false → ∀ p ∈ d.parts, p.present = true →
        p.kind = .system → CountKept p p.sizeMib (userDataSize (freeMib d))) := by
  rw [prepare_free h]
  by_cases hFew : presentCount d.parts < 4
  · have hVacancy : presentCount d.parts < d.parts.length := by
      rw [hSlots, storageMaxPartitions]
      omega
    obtain ⟨slot, hSlot⟩ := freeSlot_exists hVacancy
    have hPos := ne_zero_of_toNat_pos (userDataSize_bounds h.2).1
    rw [storageCreatePartition_eq hPos .data hSlot hFew, if_neg h.admitted]
    simp only [hFew, true_imp_iff]
    cases hWrite : d.writeFails d.writes with
    | true => exact iff_of_true (prepared_kept rfl) fun hWorks => absurd hWorks (by decide)
    | false =>
      simp only [true_imp_iff]
      have hAdds : AddsData d.parts (storageRecomputePartitionLayout (d.parts.modify slot
          ((Edit.create .data (userDataSize (freeMib d))).rewrite d.parts))) ↔ _ := addsData_iff rfl hSlot
      refine prepared_added_iff.trans (hAdds.trans ?_)
      constructor
      · intro hCounts p hp hPresent hSystem
        obtain ⟨i, hi⟩ := List.getElem?_of_mem hp
        exact hCounts i p p hi hi hPresent hSystem
      · intro hCounts i p q hp hq hPresent hSystem
        obtain rfl : p = q := Option.some_inj.mp (hp.symm.trans hq)
        exact hCounts p (List.mem_of_getElem? hp) hPresent hSystem
  · have hFull : (storageCreatePartition d .data (userDataSize (freeMib d))).2 ≠ 0 :=
      storageCreatePartition_full (Nat.not_lt.mp hFew)
    have hKept := Edit.apply_failed (e := .create .data (userDataSize (freeMib d))) hFull
    refine iff_of_true ?_ fun hRoom => absurd hRoom hFew
    split
    · rename_i d' hCreate
      rw [hCreate] at hFull
      exact absurd rfl hFull
    · rename_i d' code hCode hCreate
      rw [Edit.apply, hCreate] at hKept
      exact prepared_kept hKept

/-- The preparation of a user partition is all or nothing exactly from the safe states. -/
theorem prepare_all_or_nothing_iff (d : Disk) (hSlots : d.parts.length = storageMaxPartitions) :
    Prepared d (storagePrepareUserPartition d) ↔ PreparesSafely d := by
  by_cases hFree : TakesFree d
  · rw [hFree.prepared_iff hSlots]
    constructor
    · intro hCounts
      refine ⟨fun _ => hCounts, ?_⟩
      intro slot p hSplit
      exact absurd hFree.2 (UInt32.not_le.mpr hSplit.full)
    · intro hSafe
      exact hSafe.free hFree
  by_cases hSplit : ∃ slot p, SplitsAt d slot p
  · obtain ⟨slot, p, hSplit⟩ := hSplit
    rw [hSplit.prepared_iff hSlots]
    constructor
    · intro hHalves
      refine ⟨fun h => absurd h hFree, ?_⟩
      intro slot' p' hSplit'
      obtain rfl : slot' = slot := hSplit.sole.slot_unique hSplit'.slot_eq hSplit'.present_eq
      obtain rfl : p' = p := Option.some_inj.mp (hSplit'.slot_eq.symm.trans hSplit.slot_eq)
      exact hHalves
    · intro hSafe
      exact hSafe.split slot p hSplit
  · rw [prepare_idle hFree fun slot p h => hSplit ⟨slot, p, h⟩]
    exact iff_of_true prepared_idle ⟨fun h => absurd h hFree, fun slot p h => absurd ⟨slot, p, h⟩ hSplit⟩

def systemPartition : Partition := ⟨true, .system, 20480, 2048, 41943040, "Update"⟩

def fullDisk : Disk := { blankDisk 20480 with parts := tableOf [systemPartition] }

theorem fullDisk_sole : Sole fullDisk.parts 0 systemPartition := ⟨rfl, rfl, by decide⟩

theorem prepare_all_or_nothing_full_disk : Prepared fullDisk (storagePrepareUserPartition fullDisk) := by
  refine (prepare_all_or_nothing_iff fullDisk (by decide)).mpr ⟨?_, ?_⟩
  · intro hFree
    exact absurd hFree.2 (by decide)
  · intro slot p hSplit _ _
    obtain rfl : slot = 0 := fullDisk_sole.slot_unique hSplit.slot_eq hSplit.present_eq
    obtain rfl : p = systemPartition := Option.some_inj.mp (hSplit.slot_eq.symm.trans fullDisk_sole.slot_eq)
    rw [if_pos (by decide), CountKept]
    decide

def failingDisk : Disk := { fullDisk with writeFails := fun n => decide (1 ≤ n) }

theorem prepare_leaves_half_a_split : ¬ Prepared failingDisk (storagePrepareUserPartition failingDisk) := by
  intro h
  have hTable := (h.failed (by decide)).1
  revert hTable
  decide

end Prepare

end UnixOS.Storage
