import Mathlib.Algebra.GroupWithZero.Nat
import Mathlib.Logic.Function.Basic

/-! # The program loader

`kernel/loader/elf.c`, and the part of `process_create` that chooses where a program goes. The file is in
memory at `data` like everything else: a header is read again each time the source reads it, so a segment
that lands on the file changes what the loader goes on with. The stores are recorded.
-/

namespace UnixOS.Elf

structure Machine where
  mem : UInt64 → UInt8
  written : List UInt64

namespace Machine

variable (m : Machine)

def store (a : UInt64) (b : UInt8) : Machine := ⟨Function.update m.mem a b, a :: m.written⟩

def elfMemcpy (m : Machine) (dest src : UInt64) : Nat → Machine
  | 0 => m
  | n + 1 => elfMemcpy (m.store dest (m.mem src)) (dest + 1) (src + 1) n

def elfMemset (m : Machine) (s : UInt64) (c : UInt8) : Nat → Machine
  | 0 => m
  | n + 1 => elfMemset (m.store s c) (s + 1) c n

def storeWord (m : Machine) (a : UInt64) (v : UInt64) : Nat → Machine
  | 0 => m
  | w + 1 => storeWord (m.store a v.toUInt8) (a + 1) (v >>> 8) w

end Machine

def read (mem : UInt64 → UInt8) : Nat → UInt64 → Nat
  | 0, _ => 0
  | w + 1, a => (mem a).toNat + 256 * read mem w (a + 1)

def read64 (mem : UInt64 → UInt8) (a : UInt64) : UInt64 := UInt64.ofNat (read mem 8 a)

/-! ### Headers -/

section Headers

variable (mem : UInt64 → UInt8) (data : UInt64)

def ehdrSize : UInt64 := 64
def phdrSize : Nat := 56

def eType : Nat := read mem 2 (data + 16)
def eMachine : Nat := read mem 2 (data + 18)
def eEntry : UInt64 := read64 mem (data + 24)
def ePhoff : UInt64 := read64 mem (data + 32)
def ePhentsize : Nat := read mem 2 (data + 54)
def ePhnum : Nat := read mem 2 (data + 56)

def etExec : Nat := 2
def etDyn : Nat := 3
def emAarch64 : Nat := 183

def phdrAt (i : Nat) : UInt64 := data + ePhoff mem data + UInt64.ofNat (i * ePhentsize mem data)

variable (phdr : UInt64)

def pType : Nat := read mem 4 phdr
def pOffset : UInt64 := read64 mem (phdr + 8)
def pVaddr : UInt64 := read64 mem (phdr + 16)
def pFilesz : UInt64 := read64 mem (phdr + 32)
def pMemsz : UInt64 := read64 mem (phdr + 40)

def ptLoad : Nat := 1
def ptDynamic : Nat := 2

def elfValidate (size : UInt64) : Int :=
  if size < ehdrSize then -1
  else if mem data ≠ 0x7F ∨ mem (data + 1) ≠ 0x45 ∨ mem (data + 2) ≠ 0x4C ∨ mem (data + 3) ≠ 0x46 then -2
  else if mem (data + 4) ≠ 2 then -3
  else if mem (data + 5) ≠ 1 then -4
  else if eMachine mem data ≠ emAarch64 then -5
  else if eType mem data ≠ etExec ∧ eType mem data ≠ etDyn then -6
  else 0

def calcLoop : List Nat → UInt64 × UInt64 → UInt64 × UInt64
  | [], bounds => bounds
  | i :: rest, (minAddr, maxAddr) =>
    let phdr := phdrAt mem data i
    if pType mem phdr ≠ ptLoad then calcLoop rest (minAddr, maxAddr)
    else
      let minAddr := if pVaddr mem phdr < minAddr then pVaddr mem phdr else minAddr
      let stop := pVaddr mem phdr + pMemsz mem phdr
      calcLoop rest (minAddr, if stop > maxAddr then stop else maxAddr)

def elfCalcSize (size : UInt64) : UInt64 :=
  if elfValidate mem data size ≠ 0 then 0
  else
    let (minAddr, maxAddr) := calcLoop mem data (List.range (ePhnum mem data)) (0xFFFFFFFFFFFFFFFF, 0)
    if maxAddr ≤ minAddr then 0 else maxAddr - minAddr

end Headers

/-! ### Relocations -/

def dtNull : UInt64 := 0
def dtRela : UInt64 := 7
def dtRelasz : UInt64 := 8
def dtRelaent : UInt64 := 9
def relaSize : UInt64 := 24
def rAarch64Relative : Nat := 0x403

structure RelaInfo where
  relaAddr : UInt64
  relaSize : UInt64
  relaEnt : UInt64

/-- The loop over the dynamic section; there are `2^60` places that it can look at, and if none of them
ends the section it never ends. -/
def parseDynamic (mem : UInt64 → UInt8) : Nat → UInt64 → RelaInfo → Option RelaInfo
  | 0, _, _ => none
  | fuel + 1, dyn, info =>
    let tag := read64 mem dyn
    let val := read64 mem (dyn + 8)
    if tag = dtNull then some info
    else parseDynamic mem fuel (dyn + 16)
      (if tag = dtRela then { info with relaAddr := val }
      else if tag = dtRelasz then { info with relaSize := val }
      else if tag = dtRelaent then { info with relaEnt := val }
      else info)

def relocate (m : Machine) (loadBase rela : UInt64) : Machine :=
  let offset := read64 m.mem rela
  let type := read m.mem 4 (rela + 8)
  let addend := read64 m.mem (rela + 16)
  if type = rAarch64Relative then m.storeWord (loadBase + offset) (loadBase + addend) 8 else m

def relocLoop (loadBase : UInt64) : Nat → UInt64 → Machine → Machine
  | 0, _, m => m
  | n + 1, rela, m => relocLoop loadBase n (rela + relaSize) (relocate m loadBase rela)

/-- `int num_relas = rela_size / rela_ent` -/
def numRelas (info : RelaInfo) : Nat :=
  let q := (info.relaSize / info.relaEnt).toNat % 2 ^ 32
  if q < 2 ^ 31 then q else 0

def dynamicInfo (mem : UInt64 → UInt8) (dynamic : UInt64) : Option RelaInfo :=
  parseDynamic mem (2 ^ 60) dynamic ⟨0, 0, relaSize⟩

/-- No result if the section has no end, or if the size of an entry is 0. -/
def elfProcessRelocations (m : Machine) (loadBase dynamic : UInt64) : Option Machine :=
  (dynamicInfo m.mem dynamic).bind fun info =>
    if info.relaAddr = 0 ∨ info.relaSize = 0 then some m
    else if info.relaEnt = 0 then none
    else some (relocLoop loadBase (numRelas info) (loadBase + info.relaAddr) m)

/-! ### Loading -/

structure Progress where
  machine : Machine
  totalSize : UInt64
  dynamic : UInt64

structure LoadInfo where
  entry : UInt64
  loadBase : UInt64
  loadSize : UInt64

def loadSegment (m : Machine) (dest src phdr : UInt64) : Machine :=
  let filesz := pFilesz m.mem phdr
  let m := if filesz > 0 then m.elfMemcpy dest src filesz.toNat else m
  if pMemsz m.mem phdr > pFilesz m.mem phdr then
    m.elfMemset (dest + pFilesz m.mem phdr) 0 (pMemsz m.mem phdr - pFilesz m.mem phdr).toNat
  else m

/-- One round over the program headers; `none` is a file that is turned down. -/
def loadHeader (isPie : Bool) (data size loadBase : UInt64) (st : Progress) (i : Nat) : Option Progress :=
  let mem := st.machine.mem
  if ePhoff mem data + UInt64.ofNat ((i + 1) * ePhentsize mem data) > size then none
  else
    let phdr := phdrAt mem data i
    if pType mem phdr = ptDynamic then some { st with dynamic := loadBase + pVaddr mem phdr }
    else if pType mem phdr ≠ ptLoad then some st
    else if pOffset mem phdr > size ∨ pFilesz mem phdr > size - pOffset mem phdr then none
    else
      let destAddr := if isPie then loadBase + pVaddr mem phdr else pVaddr mem phdr
      let m := loadSegment st.machine destAddr (data + pOffset mem phdr) phdr
      let segEnd := pVaddr m.mem phdr + pMemsz m.mem phdr
      some { st with machine := m, totalSize := if segEnd > st.totalSize then segEnd else st.totalSize }

/-- The loop; `e_phnum` has 16 bits, so `2^16` rounds are always enough. -/
def loadLoop (isPie : Bool) (data size loadBase : UInt64) : Nat → Nat → Progress → Option Progress
  | 0, _, st => some st
  | fuel + 1, i, st =>
    if i < ePhnum st.machine.mem data then
      (loadHeader isPie data size loadBase st i).bind (loadLoop isPie data size loadBase fuel (i + 1))
    else some st

def loadSegments (m : Machine) (data size loadBase : UInt64) : Option Progress :=
  loadLoop (eType m.mem data = etDyn) data size loadBase (2 ^ 16) 0 ⟨m, 0, 0⟩

/-- `none` if it does not come back, `some none` if it fails. -/
def elfLoadAt (m : Machine) (data size loadBase : UInt64) : Option (Option (Machine × LoadInfo)) :=
  if elfValidate m.mem data size ≠ 0 then some none
  else
    let isPie : Bool := eType m.mem data = etDyn
    match loadSegments m data size loadBase with
    | none => some none
    | some st =>
      (if isPie ∧ st.dynamic ≠ 0 then elfProcessRelocations st.machine loadBase st.dynamic
        else some st.machine).map fun m =>
        some (m, ⟨if isPie then loadBase + eEntry m.mem data else eEntry m.mem data, loadBase, st.totalSize⟩)

/-! ### Placing a program -/

def programLoadBase : UInt64 := 0x44000000

def align64K (x : UInt64) : UInt64 := (x + 0xFFFF) &&& ~~~0xFFFF

def aslrExecBits : UInt64 := 16

def aslrExecOffset (random : UInt64) : UInt64 := (random &&& ((1 <<< aslrExecBits) - 1)) <<< 16

/-- What a call of `process_create` finds: the file that it has read, and the next random number. -/
structure Launch where
  mem : UInt64 → UInt8
  data : UInt64
  size : UInt64
  random : UInt64

/-- The range that a process got, and the bytes that were stored for it. -/
structure Placed where
  loadAddr : UInt64
  nextLoadAddr : UInt64
  written : List UInt64
deriving DecidableEq

def Launch.loadAddr (l : Launch) (nextLoadAddr : UInt64) : UInt64 :=
  align64K (nextLoadAddr + aslrExecOffset l.random)

def place (nextLoadAddr : UInt64) (l : Launch) : Option Placed :=
  if elfCalcSize l.mem l.data l.size = 0 then none
  else
    match elfLoadAt ⟨l.mem, []⟩ l.data l.size (l.loadAddr nextLoadAddr) with
    | some (some (m, info)) =>
      some ⟨l.loadAddr nextLoadAddr, align64K (l.loadAddr nextLoadAddr + info.loadSize + 0x10000), m.written⟩
    | _ => none

def placeAll (nextLoadAddr : UInt64) : List Launch → Option (List Placed)
  | [] => some []
  | l :: rest => (place nextLoadAddr l).bind fun p => (placeAll p.nextLoadAddr rest).map (p :: ·)

end UnixOS.Elf
