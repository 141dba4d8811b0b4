import UnixOS.Lib.Memory
import Mathlib.Data.Finset.Card
import Mathlib.Tactic.IntervalCases
import Mathlib.Logic.Function.Basic

/-! # Bitmaps kept in bytes

Bit `index` is bit `index % 8` of byte `index / 8`.
-/

namespace ByteBitmap

open ByteMemory

def bitMask (bit : Nat) : UInt8 := 1 <<< UInt8.ofNat bit

def setBit (bitmap : Mem) (index : Nat) : Mem :=
  Function.update bitmap (index / 8) (bitmap (index / 8) ||| bitMask (index % 8))

def clearBit (bitmap : Mem) (index : Nat) : Mem :=
  Function.update bitmap (index / 8) (bitmap (index / 8) &&& ~~~(bitMask (index % 8)))

def BitIsSet (bitmap : Mem) (index : Nat) : Prop :=
  bitmap (index / 8) &&& bitMask (index % 8) ≠ 0

instance (bitmap : Mem) (index : Nat) : Decidable (BitIsSet bitmap index) :=
  inferInstanceAs (Decidable (_ ≠ _))

theorem bitMask_ne_zero {i : Nat} (h : i < 8) : bitMask i ≠ 0 := by
  interval_cases i <;> decide

theorem bitMask_and_bitMask {i j : Nat} (hi : i < 8) (hj : j < 8) (hne : i ≠ j) :
    bitMask i &&& bitMask j = 0 := by
  interval_cases i <;> interval_cases j <;> first | exact absurd rfl hne | decide

theorem not_bitMask_and_bitMask {i j : Nat} (hi : i < 8) (hj : j < 8) (hne : i ≠ j) :
    ~~~(bitMask i) &&& bitMask j = bitMask j := by
  interval_cases i <;> interval_cases j <;> first | exact absurd rfl hne | decide

theorem or_and_distrib (v a c : UInt8) : (v ||| a) &&& c = (v &&& c) ||| (a &&& c) := by
  apply UInt8.toBitVec_inj.mp
  apply BitVec.eq_of_getLsbD_eq
  intro k hk
  simp [Bool.and_or_distrib_right]

theorem bitIsSet_setBit {bitmap : Mem} {i j : Nat} :
    BitIsSet (setBit bitmap i) j ↔ j = i ∨ BitIsSet bitmap j := by
  unfold BitIsSet setBit
  cases Nat.decEq (j / 8) (i / 8) with
  | isFalse hByte =>
    rw [Function.update_of_ne hByte]
    exact ⟨Or.inr, fun h => h.resolve_left fun hji => hByte (by rw [hji])⟩
  | isTrue hByte =>
    rw [hByte, Function.update_self, or_and_distrib, Ne, UInt8.or_eq_zero_iff]
    cases Nat.decEq (i % 8) (j % 8) with
    | isFalse hBit =>
      have hMask := bitMask_and_bitMask (Nat.mod_lt i (by decide)) (Nat.mod_lt j (by decide)) hBit
      simp only [hMask, and_true]
      exact ⟨Or.inr, fun h => h.resolve_left fun hji => hBit (by rw [hji])⟩
    | isTrue hBit =>
      have hSame : j = i := by omega
      rw [hBit, UInt8.and_self]
      exact iff_of_true (fun hBoth => bitMask_ne_zero (Nat.mod_lt j (by decide)) hBoth.2)
        (Or.inl hSame)

theorem bitIsSet_clearBit {bitmap : Mem} {i j : Nat} (hne : j ≠ i) :
    BitIsSet (clearBit bitmap i) j ↔ BitIsSet bitmap j := by
  unfold BitIsSet clearBit
  cases Nat.decEq (j / 8) (i / 8) with
  | isFalse hByte => rw [Function.update_of_ne hByte]
  | isTrue hByte =>
    have hBit : i % 8 ≠ j % 8 := by omega
    rw [hByte, Function.update_self, UInt8.and_assoc,
      not_bitMask_and_bitMask (Nat.mod_lt i (by decide)) (Nat.mod_lt j (by decide)) hBit]

theorem not_bitIsSet_clearBit_self (bitmap : Mem) (i : Nat) : ¬ BitIsSet (clearBit bitmap i) i := by
  unfold BitIsSet clearBit
  have hMask : ∀ j < 8, ~~~(bitMask j) &&& bitMask j = 0 := by
    intro j hj
    interval_cases j <;> decide
  rw [Function.update_self, UInt8.and_assoc, hMask _ (Nat.mod_lt i (by decide)), UInt8.and_zero]
  exact not_not_intro rfl

def zeroBits (bitmap : Mem) (limit : Nat) : Nat :=
  {i ∈ Finset.range limit | ¬ BitIsSet bitmap i}.card

theorem zeroBits_ne_zero {bitmap : Mem} {limit : Nat} :
    zeroBits bitmap limit ≠ 0 ↔ ∃ i < limit, ¬ BitIsSet bitmap i := by
  rw [zeroBits, Finset.card_ne_zero, Finset.Nonempty]
  simp only [Finset.mem_filter, Finset.mem_range]

theorem zeroBits_setBit {bitmap : Mem} {limit i : Nat} (hi : i < limit) (hClear : ¬ BitIsSet bitmap i) :
    zeroBits (setBit bitmap i) limit + 1 = zeroBits bitmap limit := by
  have hMem : i ∈ {j ∈ Finset.range limit | ¬ BitIsSet bitmap j} :=
    Finset.mem_filter.mpr ⟨Finset.mem_range.mpr hi, hClear⟩
  have hErase : {j ∈ Finset.range limit | ¬ BitIsSet (setBit bitmap i) j} =
      {j ∈ Finset.range limit | ¬ BitIsSet bitmap j}.erase i := by
    ext j
    simp only [Finset.mem_filter, Finset.mem_erase, bitIsSet_setBit, not_or]
    tauto
  rw [zeroBits, hErase, Finset.card_erase_of_mem hMem, zeroBits]
  exact Nat.succ_pred_eq_of_pos (Finset.card_pos.mpr ⟨i, hMem⟩)

theorem zeroBits_clearBit {bitmap : Mem} {limit i : Nat} (hi : i < limit) (hSet : BitIsSet bitmap i) :
    zeroBits (clearBit bitmap i) limit = zeroBits bitmap limit + 1 := by
  have hNot : i ∉ {j ∈ Finset.range limit | ¬ BitIsSet bitmap j} :=
    fun hMem => (Finset.mem_filter.mp hMem).2 hSet
  have hInsert : {j ∈ Finset.range limit | ¬ BitIsSet (clearBit bitmap i) j} =
      insert i {j ∈ Finset.range limit | ¬ BitIsSet bitmap j} := by
    ext j
    rw [Finset.mem_insert, Finset.mem_filter, Finset.mem_filter, Finset.mem_range]
    cases Nat.decEq j i with
    | isTrue hSame =>
      subst hSame
      exact iff_of_true ⟨hi, not_bitIsSet_clearBit_self bitmap j⟩ (Or.inl rfl)
    | isFalse hOther =>
      rw [bitIsSet_clearBit hOther, or_iff_right hOther]
  rw [zeroBits, hInsert, Finset.card_insert_of_notMem hNot, zeroBits]

end ByteBitmap
