import UnixOS.Lib.AccessLog
import UnixOS.Loader.ElfPlacement

/-! # What the loader touches

The loader of `Elf.lean` once more, with every byte that it reads through `data`, reads through an address
of the image, or stores. A field is read as often as the source reads it, and not where the source stops
before. Without the accesses it is the loader of `Elf.lean`.
-/

namespace UnixOS.Elf

open AccessLog

inductive Access where
  | file (a : UInt64)
  | image (a : UInt64)
  | store (a : UInt64)
deriving DecidableEq

/-- Why there is no result: `-1` is returned, `rela_size / rela_ent` has no value, or the dynamic section
does not end. -/
inductive Stop where
  | rejected
  | divByZero
  | endless
deriving DecidableEq

abbrev Loader (α : Type) : Type := Run Progress Stop Access α

namespace Loader

/-! ### Single accesses -/

def memory : Loader (UInt64 → UInt8) := do return (← Run.get).machine.mem

def touch (kind : UInt64 → Access) : Nat → UInt64 → Loader Unit
  | 0, _ => pure ()
  | w + 1, a => do
    Run.access (kind a)
    touch kind w (a + 1)

/-- A number of `w` bytes that is read by way of `data`, or by way of an address of the image. -/
def load (kind : UInt64 → Access) (w : Nat) (a : UInt64) : Loader Nat := do
  touch kind w a
  return read (← memory) w a

def load64 (kind : UInt64 → Access) (a : UInt64) : Loader UInt64 := do
  return UInt64.ofNat (← load kind 8 a)

def loadByte (a : UInt64) : Loader UInt8 := do
  Run.access (.file a)
  return (← memory) a

def store (a : UInt64) (b : UInt8) : Loader Unit := do
  Run.access (.store a)
  Run.modify fun st => { st with machine := st.machine.store a b }

def reject {α : Type} : Loader α := Run.stop .rejected

def elfMemcpy (dest src : UInt64) : Nat → Loader Unit
  | 0 => pure ()
  | n + 1 => do
    store dest (← loadByte src)
    elfMemcpy (dest + 1) (src + 1) n

def elfMemset (s : UInt64) (c : UInt8) : Nat → Loader Unit
  | 0 => pure ()
  | n + 1 => do
    store s c
    elfMemset (s + 1) c n

def storeWord (a v : UInt64) : Nat → Loader Unit
  | 0 => pure ()
  | w + 1 => do
    store a v.toUInt8
    storeWord (a + 1) (v >>> 8) w

/-! ### Headers -/

section Headers

variable (data : UInt64)

def eType : Loader Nat := load .file 2 (data + 16)
def eMachine : Loader Nat := load .file 2 (data + 18)
def eEntry : Loader UInt64 := load64 .file (data + 24)
def ePhoff : Loader UInt64 := load64 .file (data + 32)
def ePhentsize : Loader Nat := load .file 2 (data + 54)
def ePhnum : Loader Nat := load .file 2 (data + 56)

def phdrAt (i : Nat) : Loader UInt64 := do
  let phoff ← ePhoff data
  let phentsize ← ePhentsize data
  return data + phoff + UInt64.ofNat (i * phentsize)

variable (phdr : UInt64)

def pType : Loader Nat := load .file 4 phdr
def pOffset : Loader UInt64 := load64 .file (phdr + 8)
def pVaddr : Loader UInt64 := load64 .file (phdr + 16)
def pFilesz : Loader UInt64 := load64 .file (phdr + 32)
def pMemsz : Loader UInt64 := load64 .file (phdr + 40)

def hasBytes : UInt64 → List UInt8 → Loader Bool
  | _, [] => return true
  | a, b :: bs => do
    if (← loadByte a) = b then hasBytes (a + 1) bs else return false

def elfValidate (size : UInt64) : Loader Int := do
  if size < ehdrSize then return -1
  else if (← hasBytes data [0x7F, 0x45, 0x4C, 0x46]) = false then return -2
  else if (← loadByte (data + 4)) ≠ 2 then return -3
  else if (← loadByte (data + 5)) ≠ 1 then return -4
  else if (← eMachine data) ≠ emAarch64 then return -5
  else if (← eType data) = etExec then return 0
  else if (← eType data) = etDyn then return 0
  else return -6

def lower (minAddr : UInt64) : Loader UInt64 := do
  if (← pVaddr phdr) < minAddr then pVaddr phdr else return minAddr

def calcLoop : List Nat → UInt64 × UInt64 → Loader (UInt64 × UInt64)
  | [], bounds => return bounds
  | i :: rest, (minAddr, maxAddr) => do
    let phdr ← phdrAt data i
    if (← pType phdr) ≠ ptLoad then calcLoop rest (minAddr, maxAddr)
    else
      let minAddr ← lower phdr minAddr
      let stop := (← pVaddr phdr) + (← pMemsz phdr)
      calcLoop rest (minAddr, if stop > maxAddr then stop else maxAddr)

def elfCalcSize (size : UInt64) : Loader UInt64 := do
  if (← elfValidate data size) ≠ 0 then return 0
  else
    let (minAddr, maxAddr) ← calcLoop data (List.range (← ePhnum data)) (0xFFFFFFFFFFFFFFFF, 0)
    return if maxAddr ≤ minAddr then 0 else maxAddr - minAddr

end Headers

/-! ### Relocations -/

def parseTag (dyn tag : UInt64) (info : RelaInfo) : Loader RelaInfo := do
  if tag = dtRela then return { info with relaAddr := ← load64 .image (dyn + 8) }
  else if tag = dtRelasz then return { info with relaSize := ← load64 .image (dyn + 8) }
  else if tag = dtRelaent then return { info with relaEnt := ← load64 .image (dyn + 8) }
  else return info

def parseDynamic : Nat → UInt64 → RelaInfo → Loader RelaInfo
  | 0, _, _ => Run.stop .endless
  | fuel + 1, dyn, info => do
    let tag ← load64 .image dyn
    if tag = dtNull then return info
    else parseDynamic fuel (dyn + 16) (← parseTag dyn tag info)

def relocate (loadBase rela : UInt64) : Loader Unit := do
  let offset ← load64 .image rela
  let info ← load64 .image (rela + 8)
  let addend ← load64 .image (rela + 16)
  if info.toNat % 2 ^ 32 = rAarch64Relative then storeWord (loadBase + offset) (loadBase + addend) 8
  else pure ()

def relocLoop (loadBase : UInt64) : Nat → UInt64 → Loader Unit
  | 0, _ => pure ()
  | n + 1, rela => do
    relocate loadBase rela
    relocLoop loadBase n (rela + relaSize)

def elfProcessRelocations (loadBase dynamic : UInt64) : Loader Unit := do
  let info ← parseDynamic (2 ^ 60) dynamic ⟨0, 0, relaSize⟩
  if info.relaAddr = 0 ∨ info.relaSize = 0 then pure ()
  else if info.relaEnt = 0 then Run.stop .divByZero
  else relocLoop loadBase (numRelas info) (loadBase + info.relaAddr)

/-! ### Loading -/

def copyContents (dest src phdr : UInt64) : Loader Unit := do
  if (← pFilesz phdr) > 0 then elfMemcpy dest src (← pFilesz phdr).toNat else pure ()

def zeroBss (dest phdr : UInt64) : Loader Unit := do
  if (← pMemsz phdr) > (← pFilesz phdr) then
    let bssSize := (← pMemsz phdr) - (← pFilesz phdr)
    elfMemset (dest + (← pFilesz phdr)) 0 bssSize.toNat
  else pure ()

def loadSegment (dest src phdr : UInt64) : Loader Unit := do
  copyContents dest src phdr
  zeroBss dest phdr

def placeSegment (isPie : Bool) (data loadBase phdr : UInt64) : Loader Unit := do
  let vaddr ← pVaddr phdr
  let destAddr := if isPie then loadBase + vaddr else vaddr
  loadSegment destAddr (data + (← pOffset phdr)) phdr
  let segEnd := (← pVaddr phdr) + (← pMemsz phdr)
  Run.modify fun st => { st with totalSize := if segEnd > st.totalSize then segEnd else st.totalSize }

def loadHeader (isPie : Bool) (data size loadBase : UInt64) (i : Nat) : Loader Unit := do
  if (← ePhoff data) + UInt64.ofNat ((i + 1) * (← ePhentsize data)) > size then reject
  else
    let phdr ← phdrAt data i
    if (← pType phdr) = ptDynamic then
      let vaddr ← pVaddr phdr
      Run.modify fun st => { st with dynamic := loadBase + vaddr }
    else if (← pType phdr) ≠ ptLoad then pure ()
    else if (← pOffset phdr) > size then reject
    else if (← pFilesz phdr) > size - (← pOffset phdr) then reject
    else placeSegment isPie data loadBase phdr

def loadLoop (isPie : Bool) (data size loadBase : UInt64) : Nat → Nat → Loader Unit
  | 0, _ => pure ()
  | fuel + 1, i => do
    if i < (← ePhnum data) then
      loadHeader isPie data size loadBase i
      loadLoop isPie data size loadBase fuel (i + 1)
    else pure ()

def applyRelocations (isPie : Bool) (loadBase : UInt64) : Loader Unit := do
  let st ← Run.get
  if isPie ∧ st.dynamic ≠ 0 then elfProcessRelocations loadBase st.dynamic else pure ()

/-- The end of `elf_load_at`: four words of code are read to be printed. -/
def finish (isPie : Bool) (data loadBase : UInt64) : Loader LoadInfo := do
  let entry ← eEntry data
  let entry := if isPie then loadBase + entry else entry
  let _ ← load .image 4 entry
  let _ ← load .image 4 (entry + 4)
  let _ ← load .image 4 (entry + 8)
  let _ ← load .image 4 (entry + 12)
  return ⟨entry, loadBase, (← Run.get).totalSize⟩

def elfLoadAt (data size loadBase : UInt64) : Loader LoadInfo := do
  if (← elfValidate data size) ≠ 0 then reject
  else
    let isPie : Bool := (← eType data) = etDyn
    loadLoop isPie data size loadBase (2 ^ 16) 0
    applyRelocations isPie loadBase
    finish isPie data loadBase

/-! ### Single accesses, seen from outside -/

section Accesses

variable {ok : Access → Prop} {st : Progress} {kind : UInt64 → Access}

theorem erase_touch (w : Nat) (a : UInt64) : erase (touch kind w a) st = (.ok (), st) := by
  induction w generalizing a with
  | zero => rfl
  | succ w ih => exact (erase_bind_ok (erase_access _)).trans (ih (a + 1))

theorem erase_load (w : Nat) (a : UInt64) :
    erase (load kind w a) st = (.ok (read st.machine.mem w a), st) :=
  erase_bind_ok (erase_touch w a)

theorem erase_load64 (a : UInt64) :
    erase (load64 kind a) st = (.ok (read64 st.machine.mem a), st) :=
  erase_bind_ok (erase_load 8 a)

theorem erase_loadByte (a : UInt64) : erase (loadByte a) st = (.ok (st.machine.mem a), st) := rfl

theorem erase_store (a : UInt64) (b : UInt8) :
    erase (store a b) st = (.ok (), { st with machine := st.machine.store a b }) := rfl

end Accesses

/-! ### Copies -/

section Copies

variable {ok : Access → Prop} {st : Progress}

theorem erase_elfMemcpy (dest src : UInt64) (n : Nat) :
    erase (elfMemcpy dest src n) st = (.ok (), { st with machine := st.machine.elfMemcpy dest src n }) := by
  induction n generalizing dest src st with
  | zero => rfl
  | succ n ih =>
    rw [elfMemcpy, erase_bind_ok (erase_loadByte src), erase_bind_ok (erase_store dest _), ih]
    rfl

theorem erase_elfMemset (s : UInt64) (c : UInt8) (n : Nat) :
    erase (elfMemset s c n) st = (.ok (), { st with machine := st.machine.elfMemset s c n }) := by
  induction n generalizing s st with
  | zero => rfl
  | succ n ih =>
    rw [elfMemset, erase_bind_ok (erase_store s c), ih]
    rfl

theorem erase_storeWord (a v : UInt64) (w : Nat) :
    erase (storeWord a v w) st = (.ok (), { st with machine := st.machine.storeWord a v w }) := by
  induction w generalizing a v st with
  | zero => rfl
  | succ w ih =>
    rw [storeWord, erase_bind_ok (erase_store a _), ih]
    rfl

end Copies

/-! ### Fields -/

section Fields

variable {ok : Access → Prop} {st : Progress} (data phdr : UInt64)

theorem erase_eType : erase (eType data) st = (.ok (Elf.eType st.machine.mem data), st) := erase_load 2 _

theorem erase_eMachine : erase (eMachine data) st = (.ok (Elf.eMachine st.machine.mem data), st) := erase_load 2 _

theorem erase_eEntry : erase (eEntry data) st = (.ok (Elf.eEntry st.machine.mem data), st) := erase_load64 _

theorem erase_ePhoff : erase (ePhoff data) st = (.ok (Elf.ePhoff st.machine.mem data), st) := erase_load64 _

theorem erase_ePhentsize : erase (ePhentsize data) st = (.ok (Elf.ePhentsize st.machine.mem data), st) := erase_load 2 _

theorem erase_ePhnum : erase (ePhnum data) st = (.ok (Elf.ePhnum st.machine.mem data), st) := erase_load 2 _

theorem erase_pType : erase (pType phdr) st = (.ok (Elf.pType st.machine.mem phdr), st) := erase_load 4 _

theorem erase_pOffset : erase (pOffset phdr) st = (.ok (Elf.pOffset st.machine.mem phdr), st) := erase_load64 _

theorem erase_pVaddr : erase (pVaddr phdr) st = (.ok (Elf.pVaddr st.machine.mem phdr), st) := erase_load64 _

theorem erase_pFilesz : erase (pFilesz phdr) st = (.ok (Elf.pFilesz st.machine.mem phdr), st) := erase_load64 _

theorem erase_pMemsz : erase (pMemsz phdr) st = (.ok (Elf.pMemsz st.machine.mem phdr), st) := erase_load64 _

end Fields

/-! ### The checks of the header -/

section Validate

variable {ok : Access → Prop} {st : Progress}

def holdsBytes (mem : UInt64 → UInt8) : UInt64 → List UInt8 → Bool
  | _, [] => true
  | a, b :: bs => if mem a = b then holdsBytes mem (a + 1) bs else false

theorem erase_hasBytes (a : UInt64) (bs : List UInt8) :
    erase (hasBytes a bs) st = (.ok (holdsBytes st.machine.mem a bs), st) := by
  induction bs generalizing a with
  | nil => rfl
  | cons b bs ih =>
    rw [hasBytes, holdsBytes, erase_bind_ok (erase_loadByte a), erase_ite, ih]
    split_ifs <;> rfl

theorem holdsBytes_eq_false_iff (mem : UInt64 → UInt8) (data : UInt64) :
    holdsBytes mem data [0x7F, 0x45, 0x4C, 0x46] = false ↔
      mem data ≠ 0x7F ∨ mem (data + 1) ≠ 0x45 ∨ mem (data + 2) ≠ 0x4C ∨ mem (data + 3) ≠ 0x46 := by
  have hTwo : data + 1 + 1 = data + 2 := by rw [UInt64.add_assoc]; rfl
  have hThree : data + 2 + 1 = data + 3 := by rw [UInt64.add_assoc]; rfl
  simp only [holdsBytes, hTwo, hThree]
  split_ifs <;> simp_all

theorem erase_elfValidate (data size : UInt64) :
    erase (elfValidate data size) st = (.ok (Elf.elfValidate st.machine.mem data size), st) := by
  have hType : ∀ type : Nat, (if type ≠ etExec ∧ type ≠ etDyn then (-6 : Int) else 0) =
      if type = etExec then 0 else if type = etDyn then 0 else -6 := by
    intro type
    split_ifs <;> first | rfl | grind
  have hExcept : ∀ {c : Prop} [Decidable c] (v w : Int),
      ((.ok (if c then v else w), st) : Except Stop Int × Progress) = if c then (.ok v, st) else (.ok w, st) := by
    intro c _ v w
    split <;> rfl
  unfold elfValidate Elf.elfValidate
  simp only [hType, hExcept, ← holdsBytes_eq_false_iff, erase_ite, erase_bind_ok (erase_hasBytes _ _),
    erase_bind_ok (erase_loadByte _), erase_bind_ok (erase_eMachine _), erase_bind_ok (erase_eType _), erase_pure]

end Validate

/-! ### The size of the image -/

section Sizing

variable {ok : Access → Prop} {st : Progress} {data : UInt64}

theorem erase_phdrAt (i : Nat) : erase (phdrAt data i) st = (.ok (Elf.phdrAt st.machine.mem data i), st) := by
  rw [phdrAt, erase_bind_ok (erase_ePhoff data), erase_bind_ok (erase_ePhentsize data)]
  rfl

end Sizing

end Loader

end UnixOS.Elf
