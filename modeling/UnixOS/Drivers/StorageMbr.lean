import UnixOS.Drivers.StorageLayout

/-! # The partition table in sector 0

The commit writes one sixteen-byte entry for each present partition, the load reads four entries
back. Places and counts survive the trip; the kind has to be guessed from the type byte and the
position, and a size survives only below `2 ^ 21` mebibytes.
-/

namespace UnixOS.Storage

open ByteMemory

section Sector

variable {s s' : Mem} {active : Option Nat}

/-- The fields of MBR entry `entry` that a load looks at are those of `p`. -/
structure HoldsEntry (s : Mem) (entry : Nat) (p : Partition) : Prop where
  type_eq : s (entryOffset entry + 4) = storagePartitionMbrType p.kind
  start_eq : storageReadLe32 s (entryOffset entry + 8) = p.startLba
  count_eq : storageReadLe32 s (entryOffset entry + 12) = p.sectorCount

theorem HoldsEntry.congr {entry : Nat} {p : Partition} (h : HoldsEntry s entry p)
    (hSame : ∀ x, entryOffset entry ≤ x → x < entryOffset entry + 16 → s' x = s x) :
    HoldsEntry s' entry p := by
  refine ⟨?_, ?_, ?_⟩
  · rw [hSame _ (by omega) (by omega), h.type_eq]
  · rw [storageReadLe32, load_congr (fun x hlo hhi => hSame x (by omega) (by omega))]
    exact h.start_eq
  · rw [storageReadLe32, load_congr (fun x hlo hhi => hSame x (by omega) (by omega))]
    exact h.count_eq

theorem store_outside {m : Mem} {a w v x : Nat} (h : x < a ∨ a + w ≤ x) :
    store m a w v x = m x := by
  rw [store_eq_fill, fill_outside h]

theorem store_byte (m : Mem) (a : Nat) (b : UInt8) : store m a 1 b.toNat a = b := by
  simp [store]

theorem storageReadLe32_writeLe32 (m : Mem) (a : Nat) (v : UInt32) :
    storageReadLe32 (storageWriteLe32 m a v) a = v := by
  rw [storageReadLe32, storageWriteLe32, load_store_same_of_lt v.toNat_lt, UInt32.ofNat_toNat]

theorem writeEntry_outside (active : Option Nat) (entry : Nat) (p : Partition) (s : Mem) {x : Nat}
    (h : x < entryOffset entry ∨ entryOffset entry + 16 ≤ x) :
    writeEntry active entry p s x = s x := by
  simp only [writeEntry, storageWriteLe32]
  iterate 10 rw [store_outside (by omega)]

theorem writeEntry_holds (active : Option Nat) (entry : Nat) (p : Partition) (s : Mem) :
    HoldsEntry (writeEntry active entry p s) entry p := by
  refine ⟨?_, ?_, ?_⟩
  · simp only [writeEntry, storageWriteLe32]
    iterate 5 rw [store_outside (by omega)]
    exact store_byte _ _ _
  · simp only [writeEntry]
    rw [storageReadLe32, storageWriteLe32, load_store_disjoint (by omega)]
    exact storageReadLe32_writeLe32 _ _ _
  · exact storageReadLe32_writeLe32 _ _ _

theorem entryOffset_succ (entry : Nat) : entryOffset (entry + 1) = entryOffset entry + 16 := by
  simp only [entryOffset]
  omega

theorem entryOffset_mono {i j : Nat} (h : i ≤ j) : entryOffset i ≤ entryOffset j := by
  simp only [entryOffset]
  omega

theorem writeEntries_filter (active : Option Nat) (entry : Nat) (parts : List Partition) (s : Mem) :
    writeEntries active entry parts s =
      writeEntries active entry (parts.filter Partition.present) s := by
  induction parts generalizing entry s with
  | nil => rfl
  | cons p ps ih =>
    cases hPresent : p.present with
    | false => simp [writeEntries, hPresent, ih]
    | true => simp [writeEntries, hPresent, ih]

theorem writeEntries_outside {entry : Nat} {ps : List Partition} {x : Nat}
    (h : x < entryOffset entry ∨ entryOffset (entry + ps.length) ≤ x) :
    writeEntries active entry ps s x = s x := by
  induction ps generalizing entry s with
  | nil => rfl
  | cons p ps ih =>
    rw [List.length_cons, show entry + (ps.length + 1) = entry + 1 + ps.length by omega] at h
    have hNext := entryOffset_succ entry
    have hMono := entryOffset_mono (show entry + 1 ≤ entry + 1 + ps.length by omega)
    rw [writeEntries]
    split
    · rw [ih (by omega), writeEntry_outside active entry p s (by omega)]
    · -- an absent partition leaves its entry to the next one
      apply ih
      have hMono' := entryOffset_mono (show entry + ps.length ≤ entry + 1 + ps.length by omega)
      omega

theorem writeEntries_holds {entry i : Nat} {ps : List Partition} {p : Partition}
    (hAll : ∀ q ∈ ps, q.present = true) (h : ps[i]? = some p) :
    HoldsEntry (writeEntries active entry ps s) (entry + i) p := by
  induction ps generalizing entry i s with
  | nil => simp at h
  | cons q ps ih =>
    rw [writeEntries, if_pos (hAll q (by simp))]
    have hRest := fun r hr => hAll r (List.mem_cons_of_mem q hr)
    cases i with
    | zero =>
      obtain rfl : q = p := by simpa using h
      refine (writeEntry_holds active entry q s).congr ?_
      intro x _ hx
      have hNext := entryOffset_succ entry
      exact writeEntries_outside (.inl (by omega))
    | succ i =>
      rw [show entry + (i + 1) = entry + 1 + i by omega]
      exact ih hRest (by simpa using h)

variable {parts : List Partition}

theorem presentCount_eq_length (parts : List Partition) :
    presentCount parts = (parts.filter Partition.present).length := by
  rw [presentCount, List.countP_eq_length_filter]

theorem mbrSector_holds (hFew : presentCount parts ≤ 4) {i : Nat} {p : Partition}
    (h : (parts.filter Partition.present)[i]? = some p) : HoldsEntry (mbrSector parts s) i p := by
  have hLt : i < presentCount parts := by
    rw [presentCount_eq_length]
    exact (List.getElem?_eq_some_iff.mp h).1
  have hEntries : HoldsEntry (writeEntries (activeSlot parts) 0 (parts.filter Partition.present)
      (fill s storageMbrPartitionOffset 64 fun _ => 0)) (0 + i) p :=
    writeEntries_holds (fun q hq => (List.mem_filter.mp hq).2) h
  rw [Nat.zero_add, ← writeEntries_filter] at hEntries
  refine hEntries.congr ?_
  intro x _ hx
  simp only [entryOffset, storageMbrPartitionOffset] at hx
  simp only [mbrSector, storageMbrSignatureOffset]
  rw [store_outside (by omega), store_outside (by omega)]

theorem mbrSector_blank {i : Nat} (hFrom : presentCount parts ≤ i) (hTo : i < 4) :
    mbrSector parts s (entryOffset i + 4) = 0 := by
  have hMono := entryOffset_mono hFrom
  have hOffset : entryOffset i = 446 + i * 16 := rfl
  simp only [mbrSector, storageMbrSignatureOffset]
  rw [store_outside (by omega), store_outside (by omega), writeEntries_filter, writeEntries_outside,
    fill, if_pos]
  · simp only [storageMbrPartitionOffset]
    omega
  · rw [Nat.zero_add, ← presentCount_eq_length]
    omega

theorem mbrSector_signature (parts : List Partition) (s : Mem) :
    mbrSector parts s storageMbrSignatureOffset = 0x55 ∧
      mbrSector parts s (storageMbrSignatureOffset + 1) = 0xAA := by
  constructor
  · rw [mbrSector, store_outside (by omega)]
    exact store_byte _ _ 0x55
  · exact store_byte _ _ 0xAA

end Sector

section Packing

variable {parts : List Partition}

def packedStart (parts : List Partition) (i : Nat) : UInt32 :=
  UInt32.ofNat (2048 + 2048 * usedMib (parts.take i))

theorem layoutFrom_take (nextLba : UInt32) (parts : List Partition) (i : Nat) :
    (layoutFrom nextLba parts).take i = layoutFrom nextLba (parts.take i) := by
  induction parts generalizing nextLba i with
  | nil => simp [layoutFrom]
  | cons p ps ih =>
    cases i with
    | zero => rfl
    | succ i =>
      cases hPresent : p.present with
      | false => simp [layoutFrom_absent, hPresent, ih]
      | true => simp [layoutFrom_present, hPresent, ih]

theorem layoutFrom_filter (nextLba : UInt32) (parts : List Partition) :
    (layoutFrom nextLba parts).filter Partition.present =
      layoutFrom nextLba (parts.filter Partition.present) := by
  induction parts generalizing nextLba with
  | nil => rfl
  | cons p ps ih =>
    cases hPresent : p.present with
    | false => simp [layoutFrom_absent, hPresent, ih]
    | true => simp [layoutFrom_present, hPresent, ih]

theorem layoutFrom_layoutFrom (nextLba nextLba' : UInt32) (parts : List Partition) :
    layoutFrom nextLba (layoutFrom nextLba' parts) = layoutFrom nextLba parts := by
  induction parts generalizing nextLba nextLba' with
  | nil => rfl
  | cons p ps ih =>
    cases hPresent : p.present with
    | false => simp [layoutFrom_absent, hPresent, ih]
    | true => simp [layoutFrom_present, hPresent, ih]

theorem layoutFrom_getElem? (nextLba : UInt32) {i : Nat} {p : Partition} (h : parts[i]? = some p) :
    ∃ p', (layoutFrom nextLba parts)[i]? = some p' ∧ p'.present = p.present ∧ p'.kind = p.kind ∧
      p'.sizeMib = p.sizeMib ∧ p'.label = p.label ∧ (p.present = true →
        p'.startLba = nextLba + UInt32.ofNat (2048 * usedMib (parts.take i)) ∧
        p'.sectorCount = storageMibToSectors p.sizeMib) := by
  induction parts generalizing nextLba i with
  | nil => simp at h
  | cons q ps ih =>
    cases i with
    | zero =>
      obtain rfl : q = p := by simpa using h
      cases hPresent : q.present with
      | false => simp [layoutFrom_absent, hPresent]
      | true => simp [layoutFrom_present, hPresent]
    | succ i =>
      cases hPresent : q.present with
      | false =>
        rw [layoutFrom_absent q ps hPresent]
        simpa [Partition.weight_absent hPresent] using ih nextLba (by simpa using h)
      | true =>
        rw [layoutFrom_present q ps hPresent]
        have hStep : storageMibToSectors q.sizeMib = UInt32.ofNat (2048 * q.sizeMib.toNat) := by
          rw [UInt32.ofNat_mul, UInt32.ofNat_toNat, storageMibToSectors, UInt32.mul_comm]
          rfl
        have hTail := ih (nextLba + storageMibToSectors q.sizeMib) (i := i) (by simpa using h)
        simp only [List.getElem?_cons_succ, List.take_succ_cons, usedMib_cons,
          Partition.weight_present hPresent, Nat.mul_add, UInt32.ofNat_add, ← hStep]
        simpa only [UInt32.add_assoc] using hTail

theorem presentCount_layoutFrom (nextLba : UInt32) (parts : List Partition) :
    presentCount (layoutFrom nextLba parts) = presentCount parts := by
  have hMap := congrArg (List.countP id) (map_layoutFrom (f := Partition.present) (fun _ _ _ => rfl) nextLba parts)
  simpa [presentCount, List.countP_map, Function.comp_def] using hMap

theorem Committed.packed {d d' : Disk} (h : Committed d parts d') {i : Nat} {p' : Partition}
    (hp : d'.parts[i]? = some p') (hPresent : p'.present = true) :
    p'.startLba = packedStart d'.parts i ∧ p'.sectorCount = storageMibToSectors p'.sizeMib := by
  rw [h.parts_eq, storageRecomputePartitionLayout] at hp ⊢
  rw [← layoutFrom_layoutFrom 2048 2048] at hp
  obtain ⟨q, hq⟩ : ∃ q, (layoutFrom 2048 parts)[i]? = some q := by
    rw [layoutFrom_layoutFrom] at hp
    exact ⟨p', hp⟩
  obtain ⟨q', hq', hPres, -, hSize, -, hPlace⟩ := layoutFrom_getElem? 2048 hq
  obtain rfl : q' = p' := by simpa [hq'] using hp
  obtain ⟨hStart, hCount⟩ := hPlace (by rw [← hPres]; exact hPresent)
  refine ⟨?_, by rw [hSize]; exact hCount⟩
  rw [hStart, packedStart, UInt32.ofNat_add]
  rfl

theorem getElem?_filter_present {i : Nat} {p : Partition} (h : parts[i]? = some p)
    (hPresent : p.present = true) :
    (parts.filter Partition.present)[presentCount (parts.take i)]? = some p := by
  induction parts generalizing i with
  | nil => simp at h
  | cons q ps ih =>
    cases i with
    | zero =>
      obtain rfl : q = p := by simpa using h
      simp [presentCount, hPresent]
    | succ i =>
      have hTail := ih (by simpa using h)
      cases hq : q.present with
      | false => simpa [presentCount, hq] using hTail
      | true => simpa [presentCount, hq] using hTail

theorem Committed.holdsEntry {d d' : Disk} (h : Committed d parts d') {i : Nat} {p' : Partition}
    (hp : d'.parts[i]? = some p') (hPresent : p'.present = true) :
    HoldsEntry (d'.sectors 0) (presentCount (d'.parts.take i)) p' := by
  obtain ⟨old, hSector⟩ := h.sector_eq
  rw [hSector, ← h.parts_eq]
  have hFew : presentCount d'.parts ≤ 4 := by
    rw [h.parts_eq, storageRecomputePartitionLayout, presentCount_layoutFrom]
    exact h.few
  exact mbrSector_holds hFew (getElem?_filter_present hp hPresent)

theorem Committed.other {d d' : Disk} {slot i : Nat} {f : Partition → Partition} {p : Partition}
    (h : Committed d (d.parts.modify slot f) d') (hOther : slot ≠ i) (hp : d.parts[i]? = some p) :
    ∃ p', d'.parts[i]? = some p' ∧ p'.present = p.present ∧ p'.kind = p.kind ∧
      p'.sizeMib = p.sizeMib ∧ p'.label = p.label := by
  have hSame : (d.parts.modify slot f)[i]? = some p := by
    rw [List.getElem?_modify_ne _ _ hOther, hp]
  obtain ⟨p', hp', hPresent, hKind, hSize, hLabel, -⟩ := layoutFrom_getElem? 2048 hSame
  exact ⟨p', by rw [h.parts_eq]; exact hp', hPresent, hKind, hSize, hLabel⟩

theorem Committed.below {d d' : Disk} {slot i : Nat} {f : Partition → Partition}
    (h : Committed d (d.parts.modify slot f) d')
    (hLaidOut : storageRecomputePartitionLayout d.parts = d.parts) (hBelow : i < slot) :
    d'.parts[i]? = d.parts[i]? := by
  have hTake : d'.parts.take slot = d.parts.take slot := by
    rw [h.parts_eq, storageRecomputePartitionLayout, layoutFrom_take]
    rw [List.take_modify, List.modify_eq_self (by simp), ← layoutFrom_take]
    exact congrArg (List.take slot) hLaidOut
  have hGet := congrArg (fun l => l[i]?) hTake
  simpa [List.getElem?_take, hBelow] using hGet

/-- An edit packs the whole table anew. A partition it is not about keeps its kind, size and label,
and its place exactly when that was the packed one. -/
theorem edit_packs_table (d : Disk) (e : Edit) (hOk : (e.apply d).2 = 0) :
    (∀ i p', (e.apply d).1.parts[i]? = some p' → p'.present = true →
      p'.startLba = packedStart (e.apply d).1.parts i ∧
      p'.sectorCount = storageMibToSectors p'.sizeMib ∧
      HoldsEntry ((e.apply d).1.sectors 0) (presentCount ((e.apply d).1.parts.take i)) p') ∧
    (∀ i p, d.parts[i]? = some p → p.present = true → e.slot d.parts ≠ some i →
      ∃ p', (e.apply d).1.parts[i]? = some p' ∧ p'.present = true ∧ p'.kind = p.kind ∧
        p'.sizeMib = p.sizeMib ∧ p'.label = p.label ∧
        (p'.startLba = p.startLba ∧ p'.sectorCount = p.sectorCount ↔
          p.startLba = packedStart (e.apply d).1.parts i ∧
            p.sectorCount = storageMibToSectors p.sizeMib)) ∧
    (storageRecomputePartitionLayout d.parts = d.parts → ∀ i slot, e.slot d.parts = some slot →
      i < slot → (e.apply d).1.parts[i]? = d.parts[i]?) := by
  obtain ⟨-, slot, q, hSlot, -, hDone⟩ := Edit.apply_ok hOk
  refine ⟨?_, ?_, ?_⟩
  · intro i p' hp' hPresent
    obtain ⟨hStart, hCount⟩ := hDone.packed hp' hPresent
    exact ⟨hStart, hCount, hDone.holdsEntry hp' hPresent⟩
  · intro i p hp hPresent hOther
    obtain ⟨p', hp', hPres', hKind, hSize, hLabel⟩ :=
      hDone.other (fun hEq => hOther (by rw [hSlot, hEq])) hp
    have hPresent' : p'.present = true := by rw [hPres', hPresent]
    obtain ⟨hStart, hCount⟩ := hDone.packed hp' hPresent'
    refine ⟨p', hp', hPresent', hKind, hSize, hLabel, ?_⟩
    rw [hStart, hCount, hSize, eq_comm, eq_comm (a := p.sectorCount)]
  · intro hLaidOut i slot' hSlot' hBelow
    obtain rfl : slot = slot' := by simpa [hSlot] using hSlot'
    exact hDone.below hLaidOut hBelow

def twoPartDisk : Disk := ((Edit.create .data 1).apply ((Edit.create .efi 1).apply (blankDisk 8)).1).1

theorem edit_packs_table_resize :
    ∃ p', ((Edit.update 0 .efi 2).apply twoPartDisk).1.parts[1]? = some p' ∧ p'.startLba = 6144 := by
  obtain ⟨hPlaces, hOthers, -⟩ := edit_packs_table twoPartDisk (.update 0 .efi 2) (by decide)
  obtain ⟨p', hp', hPresent, -⟩ :=
    hOthers 1 ⟨true, .data, 1, 4096, 2048, "Data"⟩ (by decide) rfl (by decide)
  exact ⟨p', hp', (hPlaces 1 p' hp' hPresent).1.trans (by decide)⟩

theorem edit_moves_other_partition :
    ((Edit.delete 0).apply twoPartDisk).2 = 0 ∧
    (Edit.delete 0).slot twoPartDisk.parts = some 0 ∧
    twoPartDisk.parts[1]? = some ⟨true, .data, 1, 4096, 2048, "Data"⟩ ∧
    ((Edit.delete 0).apply twoPartDisk).1.parts[1]? = some ⟨true, .data, 1, 2048, 2048, "Data"⟩ ∧
    HoldsEntry (twoPartDisk.sectors 0) 1 ⟨true, .data, 1, 4096, 2048, "Data"⟩ ∧
    HoldsEntry (((Edit.delete 0).apply twoPartDisk).1.sectors 0) 0
      ⟨true, .data, 1, 2048, 2048, "Data"⟩ :=
  ⟨by decide, by decide, by decide, by decide, ⟨by decide, by decide, by decide⟩,
    ⟨by decide, by decide, by decide⟩⟩

end Packing

section RoundTrip

variable {s : Mem} {parts ps : List Partition}

/-- What a load makes of the entry written for `p`, as its `partSlot`-th partition. -/
def decoded (partSlot : Nat) (p : Partition) : Partition :=
  let kind := kindOfMbrType (storagePartitionMbrType p.kind) partSlot p.startLba
  let sizeMib := if p.sectorCount / 2048 = 0 then 1 else p.sectorCount / 2048
  ⟨true, kind, sizeMib, p.startLba, p.sectorCount, storageDefaultPartitionLabel kind partSlot⟩

def decodeFrom : Nat → List Partition → List Partition
  | _, [] => []
  | partSlot, p :: ps =>
    if p.sectorCount = 0 then decodeFrom partSlot ps
    else decoded partSlot p :: decodeFrom (partSlot + 1) ps

theorem storagePartitionMbrType_ne_zero (kind : PartitionKind) : storagePartitionMbrType kind ≠ 0 := by
  cases kind <;> decide

theorem loadEntries_blank {n entry partSlot : Nat}
    (h : ∀ i < n, s (entryOffset (entry + i) + 4) = 0) : loadEntries s n entry partSlot = [] := by
  induction n generalizing entry with
  | zero => rfl
  | succ n ih =>
    rw [loadEntries, if_pos (.inl (by simpa using h 0 (by omega)))]
    apply ih
    intro i hi
    rw [show entry + 1 + i = entry + (i + 1) by omega]
    exact h (i + 1) (by omega)

theorem loadEntries_holds {n entry partSlot : Nat} (hLen : ps.length ≤ n)
    (hHolds : ∀ i p, ps[i]? = some p → HoldsEntry s (entry + i) p)
    (hBlank : ∀ i, ps.length ≤ i → i < n → s (entryOffset (entry + i) + 4) = 0) :
    loadEntries s n entry partSlot = decodeFrom partSlot ps := by
  induction ps generalizing n entry partSlot with
  | nil => exact loadEntries_blank fun i hi => hBlank i (Nat.zero_le i) hi
  | cons p ps ih =>
    cases n with
    | zero => simp at hLen
    | succ n =>
      have hp : HoldsEntry s entry p := hHolds 0 p rfl
      have hRest : ∀ slot, loadEntries s n (entry + 1) slot = decodeFrom slot ps := by
        intro slot
        apply ih (by simpa using hLen)
        · intro i q hq
          rw [show entry + 1 + i = entry + (i + 1) by omega]
          exact hHolds (i + 1) q hq
        · intro i hFrom hTo
          rw [show entry + 1 + i = entry + (i + 1) by omega]
          exact hBlank (i + 1) (by simpa using hFrom) (by omega)
      rw [loadEntries, decodeFrom, hp.type_eq, hp.start_eq, hp.count_eq]
      simp only [storagePartitionMbrType_ne_zero, false_or]
      split
      · exact hRest partSlot
      · rw [hRest (partSlot + 1), decoded]

theorem loadEntries_mbrSector (hFew : presentCount parts ≤ 4) :
    loadEntries (mbrSector parts s) 4 0 0 = decodeFrom 0 (parts.filter Partition.present) := by
  have hLen := presentCount_eq_length parts
  apply loadEntries_holds
  · omega
  · intro i p hp
    rw [Nat.zero_add]
    exact mbrSector_holds hFew hp
  · intro i hFrom hTo
    rw [Nat.zero_add]
    exact mbrSector_blank (by omega) hTo

theorem decodeFrom_present (partSlot : Nat) (ps : List Partition) :
    ∀ p ∈ decodeFrom partSlot ps, p.present = true := by
  induction ps generalizing partSlot with
  | nil => simp [decodeFrom]
  | cons p ps ih =>
    rw [decodeFrom]
    split
    · exact ih partSlot
    · simpa [decoded] using ih (partSlot + 1)

theorem decodeFrom_length_le (partSlot : Nat) (ps : List Partition) :
    (decodeFrom partSlot ps).length ≤ ps.length := by
  induction ps generalizing partSlot with
  | nil => simp [decodeFrom]
  | cons p ps ih =>
    rw [decodeFrom]
    have hSkip := ih partSlot
    have hKeep := ih (partSlot + 1)
    split
    · simp only [List.length_cons]
      omega
    · simp only [List.length_cons]
      omega

theorem filter_tableOf (h : ∀ p ∈ ps, p.present = true) :
    (tableOf ps).filter Partition.present = ps := by
  rw [tableOf, List.filter_append, List.filter_eq_self.mpr h]
  simp [emptyPartition]

def Partition.key (p : Partition) : PartitionKind × UInt32 × UInt32 × UInt32 :=
  (p.kind, p.sizeMib, p.startLba, p.sectorCount)

def keys (parts : List Partition) : List (PartitionKind × UInt32 × UInt32 × UInt32) :=
  (parts.filter Partition.present).map Partition.key

def mistakenKind (partSlot : Nat) (startLba : UInt32) : PartitionKind :=
  if partSlot = 0 ∧ startLba ≤ 4096 then .data else .system

theorem kindOfMbrType_eq_iff {kind : PartitionKind} (hKnown : kind ≠ .unknown) (partSlot : Nat)
    (startLba : UInt32) :
    kindOfMbrType (storagePartitionMbrType kind) partSlot startLba = kind ↔
      kind ≠ mistakenKind partSlot startLba := by
  by_cases hFirst : partSlot = 0 ∧ startLba ≤ 4096
  · cases kind <;>
      simp [kindOfMbrType, storagePartitionMbrType, mistakenKind, hFirst] at hKnown ⊢
  · cases kind <;>
      simp [kindOfMbrType, storagePartitionMbrType, mistakenKind, hFirst] at hKnown ⊢

theorem decodedSize_eq_iff {sizeMib : UInt32} (hPos : sizeMib ≠ 0) :
    (storageMibToSectors sizeMib ≠ 0 ∧
      (if storageMibToSectors sizeMib / 2048 = 0 then 1 else storageMibToSectors sizeMib / 2048)
        = sizeMib) ↔ sizeMib.toNat < 2 ^ 21 := by
  have hNat : sizeMib.toNat ≠ 0 := by
    intro hZero
    exact hPos (UInt32.toNat_inj.mp hZero)
  have hLt := sizeMib.toNat_lt
  have hCount : (storageMibToSectors sizeMib).toNat = sizeMib.toNat * 2048 % 2 ^ 32 := by
    rw [storageMibToSectors, UInt32.toNat_mul]
    rfl
  have hDiv : (storageMibToSectors sizeMib / 2048).toNat = sizeMib.toNat * 2048 % 2 ^ 32 / 2048 := by
    rw [UInt32.toNat_div, hCount]
    rfl
  constructor
  · rintro ⟨-, hSize⟩
    have hSize' := congrArg UInt32.toNat hSize
    split at hSize'
    · rw [← hSize']
      decide
    · omega
  · intro hBelow
    have hExact : (storageMibToSectors sizeMib / 2048) = sizeMib := by
      apply UInt32.toNat_inj.mp
      omega
    rw [hExact, if_neg hPos]
    refine ⟨?_, rfl⟩
    intro hZero
    rw [hZero] at hCount
    have hZero' : (0 : UInt32).toNat = 0 := rfl
    omega

theorem keys_decodeFrom_cons {partSlot : Nat} {p : Partition} :
    (decodeFrom partSlot (p :: ps)).map Partition.key = (p :: ps).map Partition.key ↔
      (p.sectorCount ≠ 0 ∧ (decoded partSlot p).key = p.key) ∧
        (decodeFrom (partSlot + 1) ps).map Partition.key = ps.map Partition.key := by
  rw [decodeFrom]
  split
  · rename_i hZero
    constructor
    · intro hEq
      have hLen := congrArg List.length hEq
      have hLe := decodeFrom_length_le partSlot ps
      simp only [List.length_map, List.length_cons] at hLen
      omega
    · intro hEq
      exact absurd hZero hEq.1.1
  · rename_i hZero
    simp [hZero]

/-- A partition of a kind and size that the installer knows. -/
def Known (p : Partition) : Prop := p.present = true ∧ p.kind ≠ .unknown ∧ p.sizeMib ≠ 0

instance (p : Partition) : Decidable (Known p) :=
  inferInstanceAs (Decidable (p.present = true ∧ p.kind ≠ .unknown ∧ p.sizeMib ≠ 0))

theorem decoded_key_iff {p : Partition} (hp : Known p) (partSlot : Nat) (nextLba : UInt32) :
    (storageMibToSectors p.sizeMib ≠ 0 ∧
      (decoded partSlot { p with
        startLba := nextLba, sectorCount := storageMibToSectors p.sizeMib }).key =
        (p.kind, p.sizeMib, nextLba, storageMibToSectors p.sizeMib)) ↔
      p.sizeMib.toNat < 2 ^ 21 ∧ p.kind ≠ mistakenKind partSlot nextLba := by
  rw [← decodedSize_eq_iff hp.2.2, ← kindOfMbrType_eq_iff hp.2.1]
  simp only [decoded, Partition.key, Prod.mk.injEq, and_true]
  tauto

theorem keys_layout_cons {p : Partition} (hp : Known p) (partSlot : Nat) (nextLba : UInt32) :
    (decodeFrom partSlot (layoutFrom nextLba (p :: ps))).map Partition.key =
        (layoutFrom nextLba (p :: ps)).map Partition.key ↔
      (p.sizeMib.toNat < 2 ^ 21 ∧ p.kind ≠ mistakenKind partSlot nextLba) ∧
        (decodeFrom (partSlot + 1) (layoutFrom (nextLba + storageMibToSectors p.sizeMib) ps)).map
            Partition.key =
          (layoutFrom (nextLba + storageMibToSectors p.sizeMib) ps).map Partition.key := by
  rw [layoutFrom_present p ps hp.1, keys_decodeFrom_cons, ← decoded_key_iff hp partSlot nextLba]
  rfl

theorem keys_layout_later (hKnown : ∀ p ∈ ps, Known p) (partSlot : Nat) (nextLba : UInt32) :
    (decodeFrom (partSlot + 1) (layoutFrom nextLba ps)).map Partition.key =
        (layoutFrom nextLba ps).map Partition.key ↔
      ∀ p ∈ ps, p.sizeMib.toNat < 2 ^ 21 ∧ p.kind ≠ .system := by
  induction ps generalizing partSlot nextLba with
  | nil => simp [layoutFrom, decodeFrom]
  | cons p ps ih =>
    rw [keys_layout_cons (hKnown p (by simp)), ih fun q hq => hKnown q (List.mem_cons_of_mem p hq),
      List.forall_mem_cons]
    simp [mistakenKind]

structure Reloadable (parts : List Partition) : Prop where
  sizes : ∀ p ∈ parts.filter Partition.present, p.sizeMib.toNat < 2 ^ 21
  first : ∀ p ∈ (parts.filter Partition.present).head?, p.kind ≠ .data
  later : ∀ p ∈ (parts.filter Partition.present).tail, p.kind ≠ .system

theorem keys_layout_iff (hKnown : ∀ p ∈ parts.filter Partition.present, Known p) :
    (decodeFrom 0 (layoutFrom 2048 (parts.filter Partition.present))).map Partition.key =
        (layoutFrom 2048 (parts.filter Partition.present)).map Partition.key ↔
      Reloadable parts := by
  have hUnfold : Reloadable parts ↔
      (∀ p ∈ parts.filter Partition.present, p.sizeMib.toNat < 2 ^ 21) ∧
      (∀ p ∈ (parts.filter Partition.present).head?, p.kind ≠ .data) ∧
      (∀ p ∈ (parts.filter Partition.present).tail, p.kind ≠ .system) :=
    ⟨fun h => ⟨h.sizes, h.first, h.later⟩, fun h => ⟨h.1, h.2.1, h.2.2⟩⟩
  rw [hUnfold]
  cases hPs : parts.filter Partition.present with
  | nil => simp [layoutFrom, decodeFrom]
  | cons p ps =>
    rw [hPs] at hKnown
    rw [keys_layout_cons (hKnown p (by simp)),
      keys_layout_later fun q hq => hKnown q (List.mem_cons_of_mem p hq)]
    have hFirst : mistakenKind 0 2048 = .data := rfl
    simp only [hFirst, List.forall_mem_cons, List.head?_cons, Option.mem_some_iff, forall_eq',
      List.tail_cons, forall_and]
    tauto

def reload (d : Disk) : Disk := storageLoadMbrPartitions (storageCommitMbrPartitions d).1

def RoundTrip (d : Disk) : Prop :=
  keys (reload d).parts = keys (storageCommitMbrPartitions d).1.parts

instance (d : Disk) : Decidable (RoundTrip d) :=
  inferInstanceAs (Decidable (keys (reload d).parts = keys (storageCommitMbrPartitions d).1.parts))

theorem reload_parts {d : Disk} (hCommit : (storageCommitMbrPartitions d).2 = 0)
    (hRead : (storageDiskReadSector (storageCommitMbrPartitions d).1 0).1.isSome) :
    (reload d).parts =
      tableOf (decodeFrom 0 (layoutFrom 2048 (d.parts.filter Partition.present))) := by
  have hDone := storageCommitMbrPartitions_ok hCommit
  obtain ⟨old, hSector⟩ := hDone.sector_eq
  have hLoaded : storageDiskReadSector (storageCommitMbrPartitions d).1 0 =
      (some ((storageCommitMbrPartitions d).1.sectors 0),
        (storageDiskReadSector (storageCommitMbrPartitions d).1 0).2) := by
    unfold storageDiskReadSector at hRead ⊢
    split at hRead
    · simp at hRead
    · rename_i hKind
      rw [if_neg hKind]
      split at hRead
      · simp at hRead
      · rename_i hWorks
        rw [if_neg hWorks]
  have hSignature := mbrSector_signature (storageRecomputePartitionLayout d.parts) old
  rw [reload, storageLoadMbrPartitions, hLoaded]
  simp only [hSector, hSignature, ne_eq, not_true, or_self, if_false]
  rw [loadEntries_mbrSector, storageRecomputePartitionLayout, layoutFrom_filter]
  rw [storageRecomputePartitionLayout, presentCount_layoutFrom]
  exact hDone.few

theorem roundTrip_iff {d : Disk} (hKnown : ∀ p ∈ d.parts.filter Partition.present, Known p)
    (hCommit : (storageCommitMbrPartitions d).2 = 0)
    (hRead : (storageDiskReadSector (storageCommitMbrPartitions d).1 0).1.isSome) :
    RoundTrip d ↔ Reloadable d.parts := by
  have hDone := storageCommitMbrPartitions_ok hCommit
  rw [← keys_layout_iff hKnown, RoundTrip, keys, keys, reload_parts hCommit hRead, hDone.parts_eq,
    filter_tableOf (decodeFrom_present 0 _), storageRecomputePartitionLayout, layoutFrom_filter]

end RoundTrip

end UnixOS.Storage
