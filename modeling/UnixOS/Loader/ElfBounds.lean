import UnixOS.Loader.ElfAccess

/-! # Inside the file and the image

What a run of the loader may touch: bytes of the file, bytes of the image, and for a position-independent
file nothing else by a store. The condition for it is read off the headers, the dynamic section and the
relocations as the loader comes to them.
-/

namespace UnixOS.Elf

open AccessLog

/-- The buffers of a run: `size` bytes at `data`, and the image. That of a position-independent file has
`total` bytes at `loadBase`, that of another file is what the loader has stored. -/
structure Bounds where
  isPie : Bool
  data : UInt64
  size : UInt64
  loadBase : UInt64
  total : UInt64
  written : List UInt64

namespace Bounds

def InImage (b : Bounds) (a : UInt64) : Prop :=
  if b.isPie then Elf.InImage b.loadBase b.total.toNat a else a ∈ b.written

def FileField (b : Bounds) (a : UInt64) (n : Nat) : Prop := (a - b.data).toNat + n ≤ b.size.toNat

def ImageField (b : Bounds) (a : UInt64) (n : Nat) : Prop :=
  if b.isPie then
    b.loadBase.toNat ≤ a.toNat ∧ a.toNat + n ≤ b.loadBase.toNat + b.total.toNat ∧ a.toNat + n ≤ 2 ^ 64
  else Covers (· ∈ b.written) a n

section Fields

variable {b : Bounds} {n : Nat}

end Fields

/-! ### Relocations -/

def dynAt (dynamic : UInt64) (k : Nat) : UInt64 := dynamic + UInt64.ofNat (16 * k)

def relaAt (rela : UInt64) (i : Nat) : UInt64 := rela + UInt64.ofNat (24 * i)

/-- Every entry of the dynamic section that the loader comes to is in the image, and its value where it is
looked at. -/
def DynamicFits (b : Bounds) (mem : UInt64 → UInt8) (dynamic : UInt64) : Prop :=
  ∀ k < 2 ^ 60, (∀ j < k, read64 mem (dynAt dynamic j) ≠ dtNull) →
    b.ImageField (dynAt dynamic k) 8 ∧
      (read64 mem (dynAt dynamic k) ∈ [dtRela, dtRelasz, dtRelaent] → b.ImageField (dynAt dynamic k + 8) 8)

def RelocationFits (b : Bounds) (mem : UInt64 → UInt8) (rela : UInt64) : Prop :=
  b.ImageField rela 24 ∧
    (read mem 4 (rela + 8) = rAarch64Relative → b.ImageField (b.loadBase + read64 mem rela) 8)

/-- The table that the dynamic section names: it has a size of an entry, and each relocation fits after
the ones before it. -/
def TableFits (b : Bounds) (m : Machine) (info : RelaInfo) : Prop :=
  info.relaAddr ≠ 0 → info.relaSize ≠ 0 → info.relaEnt ≠ 0 ∧
    ∀ i < numRelas info, b.RelocationFits (relocLoop b.loadBase i (b.loadBase + info.relaAddr) m).mem
      (relaAt (b.loadBase + info.relaAddr) i)

end Bounds

namespace Loader

section Relocations

variable {ok : Access → Prop} {st : Progress}

def tagInfo (mem : UInt64 → UInt8) (dyn tag : UInt64) (info : RelaInfo) : RelaInfo :=
  if tag = dtRela then { info with relaAddr := read64 mem (dyn + 8) }
  else if tag = dtRelasz then { info with relaSize := read64 mem (dyn + 8) }
  else if tag = dtRelaent then { info with relaEnt := read64 mem (dyn + 8) }
  else info

theorem erase_parseTag (dyn tag : UInt64) (info : RelaInfo) :
    erase (parseTag dyn tag info) st = (.ok (tagInfo st.machine.mem dyn tag info), st) := by
  unfold parseTag tagInfo
  simp only [erase_ite, erase_bind_ok (erase_load64 _), erase_pure]
  split_ifs <;> rfl

theorem erase_parseDynamic (fuel : Nat) (dyn : UInt64) (info : RelaInfo) :
    erase (parseDynamic fuel dyn info) st =
      ((Elf.parseDynamic st.machine.mem fuel dyn info).elim (.error .endless) .ok, st) := by
  induction fuel generalizing dyn info with
  | zero => rfl
  | succ fuel ih =>
    rw [parseDynamic, Elf.parseDynamic, erase_bind_ok (erase_load64 dyn), erase_ite,
      erase_bind_ok (erase_parseTag _ _ _), ih]
    by_cases hNull : read64 st.machine.mem dyn = dtNull
    · rw [if_pos hNull, if_pos hNull]
      rfl
    · rw [if_neg hNull, if_neg hNull]
      rfl

theorem read_lt (mem : UInt64 → UInt8) (w : Nat) (a : UInt64) : read mem w a < 256 ^ w := by
  induction w generalizing a with
  | zero => exact Nat.one_pos
  | succ w ih =>
    have hByte := (mem a).toNat_lt
    have hRest := ih (a + 1)
    rw [read, pow_succ]
    omega

theorem read_add (mem : UInt64 → UInt8) (v w : Nat) (a : UInt64) :
    read mem (v + w) a = read mem v a + 256 ^ v * read mem w (a + UInt64.ofNat v) := by
  induction v generalizing a with
  | zero =>
    rw [Nat.zero_add, show UInt64.ofNat 0 = 0 from rfl, UInt64.add_zero, read, pow_zero, Nat.one_mul, Nat.zero_add]
  | succ v ih =>
    rw [Nat.succ_add, read, read, ih, pow_succ, UInt64.add_assoc, show (1 : UInt64) = UInt64.ofNat 1 from rfl,
      ← UInt64.ofNat_add, Nat.add_comm 1 v, Nat.mul_add, Nat.add_assoc, ← Nat.mul_assoc, Nat.mul_comm 256 (256 ^ v)]

theorem read64_mod (mem : UInt64 → UInt8) (a : UInt64) : (read64 mem a).toNat % 2 ^ 32 = read mem 4 a := by
  have hAll : read mem 8 a = read mem 4 a + 256 ^ 4 * read mem 4 (a + UInt64.ofNat 4) := read_add mem 4 4 a
  have hBound := read_lt mem 8 a
  have hLow := read_lt mem 4 a
  have hWord : read mem 8 a % 2 ^ 64 = read mem 8 a := Nat.mod_eq_of_lt (by omega)
  rw [read64, UInt64.toNat_ofNat', hWord, hAll]
  omega

theorem erase_relocate (loadBase rela : UInt64) :
    erase (relocate loadBase rela) st =
      (.ok (), { st with machine := Elf.relocate st.machine loadBase rela }) := by
  rw [relocate, erase_bind_ok (erase_load64 _), erase_bind_ok (erase_load64 _), erase_bind_ok (erase_load64 _),
    erase_ite, erase_storeWord, read64_mod, Elf.relocate]
  split_ifs <;> rfl

theorem erase_relocLoop (loadBase : UInt64) (n : Nat) (rela : UInt64) :
    erase (relocLoop loadBase n rela) st =
      (.ok (), { st with machine := Elf.relocLoop loadBase n rela st.machine }) := by
  induction n generalizing rela st with
  | zero => rfl
  | succ n ih => rw [relocLoop, erase_bind_ok (erase_relocate loadBase rela), ih, Elf.relocLoop]

def relocStop (mem : UInt64 → UInt8) (dynamic : UInt64) : Stop :=
  if dynamicInfo mem dynamic = none then .endless else .divByZero

theorem erase_elfProcessRelocations (loadBase dynamic : UInt64) :
    erase (elfProcessRelocations loadBase dynamic) st =
      match Elf.elfProcessRelocations st.machine loadBase dynamic with
      | some m => (.ok (), { st with machine := m })
      | none => (.error (relocStop st.machine.mem dynamic), st) := by
  have hParse := @erase_parseDynamic st (2 ^ 60) dynamic ⟨0, 0, relaSize⟩
  change _ = ((dynamicInfo st.machine.mem dynamic).elim _ _, _) at hParse
  unfold elfProcessRelocations Elf.elfProcessRelocations relocStop
  cases hInfo : dynamicInfo st.machine.mem dynamic with
  | none =>
    rw [hInfo] at hParse
    exact erase_bind_error hParse
  | some info =>
    rw [hInfo] at hParse
    rw [erase_bind_ok hParse, erase_ite, erase_ite, erase_relocLoop, Option.bind_some,
      if_neg (Option.some_ne_none info)]
    split_ifs <;> rfl

end Relocations

end Loader

end UnixOS.Elf
