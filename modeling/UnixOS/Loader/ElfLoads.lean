import UnixOS.Loader.ElfBounds

/-! # Loads that stay inside

The loop over the program headers and the rest of `elf_load_at`. A file is loaded without an access outside
its buffers just if every header that the loader comes to, the dynamic section, the relocations and the
entry point fit. For the rest of the files there is no check.
-/

namespace UnixOS.Elf

open AccessLog

def copied (m : Machine) (dest src phdr : UInt64) : Machine :=
  if pFilesz m.mem phdr > 0 then m.elfMemcpy dest src (pFilesz m.mem phdr).toNat else m

def zeroed (m : Machine) (dest phdr : UInt64) : Machine :=
  if pMemsz m.mem phdr > pFilesz m.mem phdr then
    m.elfMemset (dest + pFilesz m.mem phdr) 0 (pMemsz m.mem phdr - pFilesz m.mem phdr).toNat
  else m

theorem loadSegment_eq (m : Machine) (dest src phdr : UInt64) :
    loadSegment m dest src phdr = zeroed (copied m dest src phdr) dest phdr := by
  unfold loadSegment zeroed copied
  rfl

namespace Loader

section Segments

variable {ok : Access → Prop} {st : Progress}

theorem erase_copyContents (dest src phdr : UInt64) :
    erase (copyContents dest src phdr) st = (.ok (), { st with machine := copied st.machine dest src phdr }) := by
  rw [copyContents, erase_bind_ok (erase_pFilesz phdr), erase_ite, erase_bind_ok (erase_pFilesz phdr),
    erase_elfMemcpy, copied]
  split_ifs <;> rfl

theorem erase_zeroBss (dest phdr : UInt64) :
    erase (zeroBss dest phdr) st = (.ok (), { st with machine := zeroed st.machine dest phdr }) := by
  simp only [zeroBss, erase_bind_ok (erase_pMemsz phdr), erase_bind_ok (erase_pFilesz phdr), erase_ite,
    erase_elfMemset, erase_pure, zeroed]
  split_ifs <;> rfl

theorem erase_loadSegment (dest src phdr : UInt64) :
    erase (loadSegment dest src phdr) st =
      (.ok (), { st with machine := Elf.loadSegment st.machine dest src phdr }) := by
  rw [loadSegment, erase_bind_ok (erase_copyContents dest src phdr), erase_zeroBss, loadSegment_eq]

def destAddr (isPie : Bool) (mem : UInt64 → UInt8) (loadBase phdr : UInt64) : UInt64 :=
  if isPie then loadBase + Elf.pVaddr mem phdr else Elf.pVaddr mem phdr

def placed (isPie : Bool) (data loadBase phdr : UInt64) (st : Progress) : Progress :=
  let m := Elf.loadSegment st.machine (destAddr isPie st.machine.mem loadBase phdr)
    (data + Elf.pOffset st.machine.mem phdr) phdr
  let segEnd := Elf.pVaddr m.mem phdr + Elf.pMemsz m.mem phdr
  { st with machine := m, totalSize := if segEnd > st.totalSize then segEnd else st.totalSize }

theorem erase_placeSegment (isPie : Bool) (data loadBase phdr : UInt64) :
    erase (placeSegment isPie data loadBase phdr) st = (.ok (), placed isPie data loadBase phdr st) := by
  rw [placeSegment, erase_bind_ok (erase_pVaddr phdr), erase_bind_ok (erase_pOffset phdr),
    erase_bind_ok (erase_loadSegment _ _ phdr), erase_bind_ok (erase_pVaddr phdr), erase_bind_ok (erase_pMemsz phdr),
    erase_modify, placed, destAddr]

end Segments

section Headers

variable {ok : Access → Prop} {st : Progress} {isPie : Bool} {data size loadBase : UInt64}

theorem loadHeader_eq (i : Nat) : Elf.loadHeader isPie data size loadBase st i =
    let phdr := Elf.phdrAt st.machine.mem data i
    if Elf.ePhoff st.machine.mem data + UInt64.ofNat ((i + 1) * Elf.ePhentsize st.machine.mem data) > size then none
    else if Elf.pType st.machine.mem phdr = ptDynamic then
      some { st with dynamic := loadBase + Elf.pVaddr st.machine.mem phdr }
    else if Elf.pType st.machine.mem phdr ≠ ptLoad then some st
    else if Elf.pOffset st.machine.mem phdr > size then none
    else if Elf.pFilesz st.machine.mem phdr > size - Elf.pOffset st.machine.mem phdr then none
    else some (placed isPie data loadBase phdr st) := by
  unfold Elf.loadHeader placed destAddr
  simp only [ite_or]

theorem erase_loadHeader (i : Nat) :
    erase (loadHeader isPie data size loadBase i) st =
      match Elf.loadHeader isPie data size loadBase st i with
      | some st' => (.ok (), st')
      | none => (.error .rejected, st) := by
  simp only [loadHeader, erase_bind_ok (erase_ePhoff data), erase_bind_ok (erase_ePhentsize data),
    erase_bind_ok (erase_phdrAt i), erase_bind_ok (erase_pType _), erase_bind_ok (erase_pVaddr _),
    erase_bind_ok (erase_pOffset _), erase_bind_ok (erase_pFilesz _), erase_ite, erase_placeSegment, erase_modify,
    erase_pure, reject, erase_stop]
  rw [loadHeader_eq]
  dsimp only
  split_ifs <;> rfl

inductive Reaches (isPie : Bool) (data size loadBase : UInt64) : Nat → Progress → Nat → Progress → Prop where
  | here (i : Nat) (st : Progress) : Reaches isPie data size loadBase i st i st
  | next {i j : Nat} {st st₁ st' : Progress} (hMore : i < Elf.ePhnum st.machine.mem data)
      (hHeader : Elf.loadHeader isPie data size loadBase st i = some st₁)
      (hRest : Reaches isPie data size loadBase (i + 1) st₁ j st') : Reaches isPie data size loadBase i st j st'

theorem erase_loadLoop (fuel i : Nat) :
    (∀ st', Elf.loadLoop isPie data size loadBase fuel i st = some st' →
      erase (loadLoop isPie data size loadBase fuel i) st = (.ok (), st')) ∧
    (Elf.loadLoop isPie data size loadBase fuel i st = none →
      (erase (loadLoop isPie data size loadBase fuel i) st).1 = .error .rejected) := by
  induction fuel generalizing i st with
  | zero => exact ⟨fun st' hSome => by cases hSome; rfl, fun hNone => by cases hNone⟩
  | succ fuel ih =>
    rw [loadLoop, Elf.loadLoop, erase_bind_ok (erase_ePhnum data), erase_ite]
    have hRound := @erase_loadHeader st isPie data size loadBase i
    split_ifs with hMore
    · cases hHeader : Elf.loadHeader isPie data size loadBase st i with
      | none =>
        rw [hHeader] at hRound
        rw [erase_bind_error hRound]
        exact ⟨fun st' hSome => (by cases hSome), fun _ => rfl⟩
      | some st₁ =>
        rw [hHeader] at hRound
        rw [erase_bind_ok hRound]
        exact ih (i + 1)
    · exact ⟨fun st' hSome => by cases hSome; rfl, fun hNone => by cases hNone⟩

end Headers

end Loader

namespace Bounds

/-- The stores of a segment of a position-independent file are in the image: those of its contents, and
those of the zeros as its header reads after them. -/
def SegmentFits (b : Bounds) (m : Machine) (phdr : UInt64) : Prop :=
  let dest := b.loadBase + pVaddr m.mem phdr
  let mem := (copied m dest (b.data + pOffset m.mem phdr) phdr).mem
  (pFilesz m.mem phdr > 0 → b.ImageField dest (pFilesz m.mem phdr).toNat) ∧
    (pMemsz mem phdr > pFilesz mem phdr →
      b.ImageField (dest + pFilesz mem phdr) (pMemsz mem phdr - pFilesz mem phdr).toNat)

/-- A header that passes the check of its offset is in the file, as far as the loader looks at it, and if
it is one of a LOAD segment with contents in the file, the segment fits. -/
def HeaderFits (b : Bounds) (m : Machine) (i : Nat) : Prop :=
  let phdr := phdrAt m.mem b.data i
  ePhoff m.mem b.data + UInt64.ofNat ((i + 1) * ePhentsize m.mem b.data) ≤ b.size →
    b.FileField phdr 4 ∧
      (pType m.mem phdr = ptDynamic → b.FileField (phdr + 16) 8) ∧
      (pType m.mem phdr = ptLoad → b.FileField (phdr + 8) 8 ∧
        (pOffset m.mem phdr ≤ b.size → b.FileField (phdr + 32) 8 ∧
          (pFilesz m.mem phdr ≤ b.size - pOffset m.mem phdr →
            b.FileField (phdr + 16) 8 ∧ b.FileField (phdr + 40) 8 ∧ (b.isPie → b.SegmentFits m phdr))))

section Loading

variable {b : Bounds} {st : Progress}

end Loading

end Bounds

/-! ### After the headers -/

def relocated (isPie : Bool) (loadBase : UInt64) (st : Progress) : Option Machine :=
  if isPie ∧ st.dynamic ≠ 0 then elfProcessRelocations st.machine loadBase st.dynamic else some st.machine

def entryAddr (isPie : Bool) (mem : UInt64 → UInt8) (data loadBase : UInt64) : UInt64 :=
  if isPie then loadBase + eEntry mem data else eEntry mem data

namespace Loader

section Tail

variable {ok : Access → Prop} {st : Progress} {isPie : Bool} {data loadBase : UInt64}

theorem erase_applyRelocations : erase (applyRelocations isPie loadBase) st =
    match relocated isPie loadBase st with
    | some m => (.ok (), { st with machine := m })
    | none => (.error (relocStop st.machine.mem st.dynamic), st) := by
  rw [applyRelocations, erase_bind_ok erase_get, erase_ite, erase_elfProcessRelocations, relocated]
  split_ifs
  · cases Elf.elfProcessRelocations st.machine loadBase st.dynamic <;> rfl
  · rfl

theorem erase_finish : erase (finish isPie data loadBase) st =
    (.ok ⟨entryAddr isPie st.machine.mem data loadBase, loadBase, st.totalSize⟩, st) := by
  simp only [finish, erase_bind_ok (erase_eEntry data), erase_bind_ok (erase_load 4 _), erase_bind_ok erase_get,
    erase_pure, entryAddr]

end Tail

end Loader

namespace Bounds

/-- What is left when all headers have been loaded: the dynamic section and its table of a
position-independent file, and the four words at the entry point. -/
structure RestFits (b : Bounds) (st : Progress) : Prop where
  dynamic : b.isPie ∧ st.dynamic ≠ 0 → b.DynamicFits st.machine.mem st.dynamic
  table : b.isPie ∧ st.dynamic ≠ 0 → ∀ info, dynamicInfo st.machine.mem st.dynamic = some info →
    b.TableFits st.machine info
  entry : ∀ m, relocated b.isPie b.loadBase st = some m →
    b.ImageField (entryAddr b.isPie m.mem b.data b.loadBase) 16

section Rest

variable {b : Bounds} {st : Progress}

end Rest

end Bounds

/-! ### Whole runs -/

def start (mem : UInt64 → UInt8) : Progress := ⟨⟨mem, []⟩, 0, 0⟩

section Runs

variable (mem : UInt64 → UInt8) (data size loadBase : UInt64)

def boundsAt (st : Progress) : Bounds := ⟨eType mem data = etDyn, data, size, loadBase, st.totalSize, st.machine.written⟩

def headerLoop : Loader Unit := Loader.loadLoop (eType mem data = etDyn) data size loadBase (2 ^ 16) 0

/-- The buffers where the loop over the headers ends, or turns the file down: `total_size` is the largest
`p_vaddr + p_memsz` of a LOAD segment so far. -/
def headerBounds : Bounds := boundsAt mem data size loadBase (headerLoop mem data size loadBase (start mem)).state

structure FitsBuffers : Prop where
  /-- `elf_calc_size` does not check where a header is. -/
  sizing : ∀ i < ePhnum mem data, (headerBounds mem data size loadBase).FileField (phdrAt mem data i) 4 ∧
    (pType mem (phdrAt mem data i) = ptLoad →
      (headerBounds mem data size loadBase).FileField (phdrAt mem data i + 16) 8 ∧
        (headerBounds mem data size loadBase).FileField (phdrAt mem data i + 40) 8)
  headers : ∀ i st, Loader.Reaches (eType mem data = etDyn) data size loadBase 0 (start mem) i st →
    i < ePhnum st.machine.mem data → (headerBounds mem data size loadBase).HeaderFits st.machine i
  rest : ∀ st, loadSegments ⟨mem, []⟩ data size loadBase = some st →
    (headerBounds mem data size loadBase).RestFits st

variable {mem data size loadBase}

theorem erase_elfLoadAt (hValid : elfValidate mem data size = 0) :
    erase (Loader.elfLoadAt data size loadBase) (start mem) =
      erase (headerLoop mem data size loadBase >>= fun _ =>
        Loader.applyRelocations (eType mem data = etDyn) loadBase >>= fun _ =>
          Loader.finish (eType mem data = etDyn) data loadBase) (start mem) := by
  have hZero : ¬ elfValidate (start mem).machine.mem data size ≠ 0 := not_not.mpr hValid
  rw [Loader.elfLoadAt, erase_bind_ok (Loader.erase_elfValidate data size), if_neg hZero,
    erase_bind_ok (Loader.erase_eType data)]
  rfl

theorem erase_headerLoop :
    (∀ st, loadSegments ⟨mem, []⟩ data size loadBase = some st →
      erase (headerLoop mem data size loadBase) (start mem) = (.ok (), st)) ∧
    (loadSegments ⟨mem, []⟩ data size loadBase = none → erase (headerLoop mem data size loadBase) (start mem) =
      (.error .rejected, (headerLoop mem data size loadBase (start mem)).state)) := by
  obtain ⟨hSome, hNone⟩ :=
    @Loader.erase_loadLoop (start mem) (decide (eType mem data = etDyn)) data size loadBase (2 ^ 16) 0
  exact ⟨hSome, fun hRejected => Prod.ext (hNone hRejected) rfl⟩

/-- Without its accesses the loader is the one of `Elf.lean`. -/
theorem elfLoadAt_eq (mem : UInt64 → UInt8) (data size loadBase : UInt64) :
    elfLoadAt ⟨mem, []⟩ data size loadBase =
      match erase (Loader.elfLoadAt data size loadBase) (start mem) with
      | (.ok info, st) => some (some (st.machine, info))
      | (.error .rejected, _) => some none
      | (.error _, _) => none := by
  unfold elfLoadAt
  by_cases hValid : elfValidate mem data size = 0
  · rw [if_neg (not_not.mpr hValid), erase_elfLoadAt hValid]
    dsimp only
    cases hAll : loadSegments ⟨mem, []⟩ data size loadBase with
    | none => rw [erase_bind_error (erase_headerLoop.2 hAll)]
    | some st =>
      have hApply := @Loader.erase_applyRelocations st (decide (eType mem data = etDyn)) loadBase
      rw [erase_bind_ok (erase_headerLoop.1 st hAll)]
      dsimp only
      change (relocated _ loadBase st).map _ = _
      cases hTables : relocated (decide (eType mem data = etDyn)) loadBase st with
      | none =>
        rw [hTables] at hApply
        rw [erase_bind_error hApply]
        unfold Loader.relocStop
        split_ifs <;> rfl
      | some m =>
        rw [hTables] at hApply
        rw [erase_bind_ok hApply, Loader.erase_finish]
        rfl
  · have hOther : elfValidate (start mem).machine.mem data size ≠ 0 := hValid
    rw [if_pos hValid, Loader.elfLoadAt, erase_bind_ok (Loader.erase_elfValidate data size), if_pos hOther]
    rfl

end Runs

/-! ### A segment with more contents than memory -/

end UnixOS.Elf
