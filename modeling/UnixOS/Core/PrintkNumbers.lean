import UnixOS.Core.PrintkFormat
import UnixOS.Lib.StoreLog

/-! # Numbers in a buffer

`reverse`, `itoa` and `utoa` of `kernel/core/printk.c`, store by store. What they leave in the buffer is the text that
the list model yields, which reads back as the number.
-/

namespace UnixOS.Printk

open StoreLog

def reverseLoop (str : Buffer Char) (i j : Nat) : Buffer Char :=
  if i < j then reverseLoop ((str.store i (str.mem j)).store j (str.mem i)) (i + 1) (j - 1) else str
termination_by j - i

/-- With `len` 0 the loop has no round, as with `j = -1`. -/
def reverse (str : Buffer Char) (len : Nat) : Buffer Char := reverseLoop str 0 (len - 1)

def storeDigits (digits : List Char) (base : Nat) : Nat → Nat → Buffer Char → Nat → Buffer Char × Nat
  | 0, _, buf, i => (buf, i)
  | fuel + 1, uval, buf, i =>
    if uval ≠ 0 then
      storeDigits digits base fuel (uval / base) (buf.store i (digits.getD (uval % base) '\x00')) (i + 1)
    else (buf, i)

/-- `itoa`: the buffer afterwards, and what is returned. -/
def itoaInto (buf : Buffer Char) (val : BitVec 64) (base : Nat) (isSigned uppercase : Bool) : Buffer Char × Nat :=
  let digits := if uppercase then digitsUpper else digitsLower
  let negative : Bool := isSigned && val.toInt < 0
  let uval := if negative then -val else val
  let (buf, i) := if uval = 0 then (buf.store 0 '0', 1) else (buf, 0)
  let (buf, i) := storeDigits digits base 64 uval.toNat buf i
  let (buf, i) := if negative then (buf.store i '-', i + 1) else (buf, i)
  let buf := buf.store i '\x00'
  (reverse buf i, i)

def utoaInto (buf : Buffer Char) (val : BitVec 64) (base : Nat) (uppercase : Bool) : Buffer Char × Nat :=
  itoaInto buf val base false uppercase

/-! ### What is stored -/

theorem mem_reverseLoop (str : Buffer Char) (i j k : Nat) :
    (reverseLoop str i j).mem k = if i ≤ k ∧ k ≤ j then str.mem (i + j - k) else str.mem k := by
  fun_induction reverseLoop str i j with
  | case1 str i j hLess ih =>
    rw [ih]
    by_cases hInner : i + 1 ≤ k ∧ k ≤ j - 1
    · rw [if_pos hInner, if_pos (by omega), Buffer.store_of_ne (by omega), Buffer.store_of_ne (by omega)]
      congr 1
      omega
    rw [if_neg hInner]
    by_cases hLow : k = i
    · rw [hLow, if_pos (by omega), Buffer.store_of_ne (by omega), Buffer.store_self]
      congr 1
      omega
    by_cases hHigh : k = j
    · rw [hHigh, if_pos (by omega), Buffer.store_self]
      congr 1
      omega
    rw [if_neg (by omega), Buffer.store_of_ne hHigh, Buffer.store_of_ne hLow]
  | case2 str i j hDone =>
    split
    case isTrue hHere =>
      congr 1
      omega
    case isFalse => rfl

theorem reverseLoop_within {str : Buffer Char} {i j n : Nat} (h : str.Within n) (hj : j < n) :
    (reverseLoop str i j).Within n := by
  fun_induction reverseLoop str i j with
  | case1 str i j hLess ih => exact ih ((h.store (by omega) _).store hj _) (by omega)
  | case2 => exact h

theorem text_reverse (str : Buffer Char) (len : Nat) : (reverse str len).text len = (str.text len).reverse := by
  apply List.ext_getElem
  · rw [List.length_reverse, Buffer.length_text, Buffer.length_text]
  · intro k hk _
    rw [Buffer.length_text] at hk
    rw [List.getElem_reverse]
    simp only [Buffer.text, List.getElem_map, List.getElem_range, List.length_map, List.length_range]
    rw [reverse, mem_reverseLoop, if_pos (by omega)]
    congr 1
    omega

theorem storeDigits_eq (digits : List Char) (base fuel uval : Nat) (buf : Buffer Char) (i : Nat) :
    storeDigits digits base fuel uval buf i =
      (buf.storeAll i (itoaLoop digits base fuel uval), i + (itoaLoop digits base fuel uval).length) := by
  induction fuel generalizing uval buf i with
  | zero => rfl
  | succ fuel ih =>
    rw [storeDigits, itoaLoop]
    split
    · rw [ih, Buffer.storeAll, List.length_cons]
      congr 1
      omega
    · rfl

def storedBy (val : BitVec 64) (base : Nat) (isSigned uppercase : Bool) : List Char :=
  (itoa val base isSigned uppercase).reverse

theorem itoaInto_eq (buf : Buffer Char) (val : BitVec 64) (base : Nat) (isSigned uppercase : Bool) :
    itoaInto buf val base isSigned uppercase =
      (reverse ((buf.storeAll 0 (storedBy val base isSigned uppercase)).store
        (storedBy val base isSigned uppercase).length '\x00') (storedBy val base isSigned uppercase).length,
      (storedBy val base isSigned uppercase).length) := by
  rw [storedBy, itoaInto, itoa]
  dsimp only
  rw [List.reverse_reverse]
  generalize (isSigned && decide (val.toInt < 0)) = negative
  generalize (if negative = true then -val else val) = uval
  generalize (if uppercase = true then digitsUpper else digitsLower) = digits
  have hFirst : (if uval = 0 then (buf.store 0 '0', 1) else (buf, 0)) =
      (buf.storeAll 0 (if uval = 0 then ['0'] else []), (if uval = 0 then ['0'] else []).length) := by
    split <;> rfl
  rw [hFirst]
  dsimp only
  rw [storeDigits_eq]
  dsimp only
  have hDigits := @Buffer.storeAll_append _ buf 0 (if uval = 0 then ['0'] else []) (itoaLoop digits base 64 uval.toNat)
  rw [Nat.zero_add] at hDigits
  rw [← hDigits, ← List.length_append]
  generalize (if uval = 0 then ['0'] else []) ++ itoaLoop digits base 64 uval.toNat = stored
  cases negative with
  | false => rfl
  | true =>
    have hSign := @Buffer.storeAll_append _ buf 0 stored ['-']
    rw [Nat.zero_add] at hSign
    simp only [if_true, hSign, List.length_append, List.length_singleton]
    rfl

section Itoa

variable (buf : Buffer Char) (val : BitVec 64) (base : Nat) (isSigned uppercase : Bool)

theorem length_itoaInto :
    (itoaInto buf val base isSigned uppercase).2 = (itoa val base isSigned uppercase).length := by
  rw [itoaInto_eq, storedBy, List.length_reverse]

theorem text_itoaInto : (itoaInto buf val base isSigned uppercase).1.text (itoa val base isSigned uppercase).length =
    itoa val base isSigned uppercase := by
  have hStored := @Buffer.text_storeAll _ buf 0 (storedBy val base isSigned uppercase)
  rw [Nat.zero_add] at hStored
  have hLength : (storedBy val base isSigned uppercase).length = (itoa val base isSigned uppercase).length :=
    List.length_reverse
  rw [itoaInto_eq, hLength, text_reverse, Buffer.text_store (Nat.le_refl _), ← hLength, hStored, storedBy]
  exact List.reverse_reverse _

theorem terminated_itoaInto :
    (itoaInto buf val base isSigned uppercase).1.mem (itoa val base isSigned uppercase).length = '\x00' := by
  have hLength : (storedBy val base isSigned uppercase).length = (itoa val base isSigned uppercase).length :=
    List.length_reverse
  rw [itoaInto_eq, hLength]
  show (reverse _ _).mem _ = _
  rw [reverse, mem_reverseLoop]
  split
  case isTrue hHere =>
    have hEmpty : (itoa val base isSigned uppercase).length = 0 := by omega
    rw [hEmpty]
    exact Buffer.store_self _
  case isFalse => exact Buffer.store_self _

variable {buf} in
theorem itoaInto_within {n : Nat} (h : buf.Within n) (hLength : (itoa val base isSigned uppercase).length < n) :
    (itoaInto buf val base isSigned uppercase).1.Within n := by
  rw [← List.length_reverse] at hLength
  change (storedBy val base isSigned uppercase).length < n at hLength
  rw [itoaInto_eq]
  refine reverseLoop_within (Buffer.Within.store (h.storeAll (by omega)) hLength _) (by omega)

end Itoa

/-! ### Reading back -/

def digitValue (c : Char) : Option Nat :=
  if '0' ≤ c ∧ c ≤ '9' then some (c.toNat - '0'.toNat)
  else if 'a' ≤ c ∧ c ≤ 'f' then some (c.toNat - 'a'.toNat + 10)
  else if 'A' ≤ c ∧ c ≤ 'F' then some (c.toNat - 'A'.toNat + 10)
  else none

def readDigits (base : Nat) : List Char → Nat → Option Nat
  | [], n => some n
  | c :: cs, n =>
    match digitValue c with
    | none => none
    | some d => if d < base then readDigits base cs (n * base + d) else none

def readNumber (base : Nat) : List Char → Option Int
  | '-' :: c :: cs => if c = '0' then none else (readDigits base (c :: cs) 0).map fun n => -(n : Int)
  | ['0'] => some 0
  | c :: cs => if c = '0' then none else (readDigits base (c :: cs) 0).map fun n => (n : Int)
  | [] => none

theorem readDigits_append (base : Nat) (cs ds : List Char) (n : Nat) :
    readDigits base (cs ++ ds) n = (readDigits base cs n).bind (readDigits base ds) := by
  induction cs generalizing n with
  | nil => rfl
  | cons c cs ih =>
    rw [List.cons_append, readDigits, readDigits]
    cases digitValue c with
    | none => rfl
    | some d =>
      dsimp only
      split
      · exact ih _
      · rfl

theorem digitValue_ne_none {base : Nat} {cs : List Char} {n m : Nat} (h : readDigits base cs n = some m) {c : Char}
    (hMem : c ∈ cs) : digitValue c ≠ none := by
  induction cs generalizing n with
  | nil => cases hMem
  | cons d cs ih =>
    rw [readDigits] at h
    cases hValue : digitValue d with
    | none =>
      rw [hValue] at h
      cases h
    | some k =>
      rw [hValue] at h
      dsimp only at h
      split at h
      · rcases List.mem_cons.mp hMem with rfl | hRest
        · rw [hValue]
          exact Option.some_ne_none k
        · exact ih h hRest
      · cases h

structure KeepsDigits (f : Char → Char) : Prop where
  first : f '0' = '0'
  value : ∀ k < 16, digitValue (f k.digitChar) = some k
  zero : ∀ k < 16, f k.digitChar = '0' → k = 0

theorem keepsDigits_id : KeepsDigits id := by
  have hAll : ∀ k : Fin 16, digitValue (k : Nat).digitChar = some (k : Nat) ∧ ((k : Nat).digitChar = '0' → (k : Nat) = 0) := by
    decide
  exact ⟨by decide, fun k hk => (hAll ⟨k, hk⟩).1, fun k hk => (hAll ⟨k, hk⟩).2⟩

theorem keepsDigits_toUpper : KeepsDigits Char.toUpper := by
  have hAll : ∀ k : Fin 16, digitValue (k : Nat).digitChar.toUpper = some (k : Nat) ∧
      ((k : Nat).digitChar.toUpper = '0' → (k : Nat) = 0) := by
    decide
  exact ⟨by decide, fun k hk => (hAll ⟨k, hk⟩).1, fun k hk => (hAll ⟨k, hk⟩).2⟩

section Digits

variable {f : Char → Char} (hf : KeepsDigits f) {b : Nat} (hb : 1 < b) (hLe : b ≤ 16)
include hf hb hLe

theorem readDigits_toDigits (n : Nat) : readDigits b ((Nat.toDigits b n).map f) 0 = some n := by
  induction n using Nat.strongRecOn with
  | ind n ih =>
    by_cases hSmall : n < b
    · rw [Nat.toDigits_of_lt_base hSmall, List.map_singleton, readDigits, hf.value n (by omega)]
      simp [hSmall, readDigits]
    · have hMod : n % b < b := Nat.mod_lt n (by omega)
      have hQuotient : n / b < n := Nat.div_lt_self (by omega) hb
      rw [Nat.toDigits_of_base_le hb (by omega), List.map_append, readDigits_append, ih (n / b) hQuotient]
      rw [Option.bind_some, List.map_singleton, readDigits, hf.value _ (by omega)]
      dsimp only
      rw [if_pos hMod, readDigits, Nat.div_add_mod']

theorem map_toDigits_head {n : Nat} (h : 0 < n) :
    ∃ c cs, (Nat.toDigits b n).map f = c :: cs ∧ c ≠ '0' ∧ c ≠ '-' := by
  obtain ⟨d, ds, hPos, hLt, hDigits⟩ := toDigits_head hb h
  refine ⟨_, ds.map f, congrArg (List.map f) hDigits, fun hZero => ?_, fun hMinus => ?_⟩
  · exact absurd (hf.zero d (by omega) hZero) (by omega)
  · have hValue := hf.value d (by omega)
    rw [hMinus, show digitValue '-' = none by decide] at hValue
    cases hValue

theorem readNumber_toDigits (n : Nat) : readNumber b ((Nat.toDigits b n).map f) = some (n : Int) := by
  by_cases hZero : n = 0
  · rw [hZero, Nat.toDigits_zero, List.map_singleton, hf.first]
    rfl
  · obtain ⟨c, cs, hDigits, hNe, hMinus⟩ := map_toDigits_head hf hb hLe (Nat.pos_of_ne_zero hZero)
    have hRead := readDigits_toDigits hf hb hLe n
    rw [hDigits] at hRead ⊢
    unfold readNumber
    split
    case h_1 hEq => exact absurd (List.cons.inj hEq).1 hMinus
    case h_2 hEq => exact absurd (List.cons.inj hEq).1 hNe
    case h_3 hEq =>
      obtain ⟨rfl, rfl⟩ := List.cons.inj hEq
      rw [if_neg hNe, hRead]
      rfl
    case h_4 hEq => cases hEq

theorem readNumber_minus {n : Nat} (h : 0 < n) :
    readNumber b ('-' :: (Nat.toDigits b n).map f) = some (-(n : Int)) := by
  obtain ⟨c, cs, hDigits, hNe, -⟩ := map_toDigits_head hf hb hLe h
  have hRead := readDigits_toDigits hf hb hLe n
  rw [hDigits] at hRead ⊢
  rw [readNumber, if_neg hNe, hRead]
  rfl

end Digits

/-! ### Every value -/

/-- What `itoa` yields: a text of at most 21 characters with its terminator, which reads back as the value, and its
length. -/
structure Exact (base : Nat) (value : Int) (r : Buffer Char × Nat) : Prop where
  length : r.2 ≤ 21
  terminated : r.1.mem r.2 = '\x00'
  before : '\x00' ∉ r.1.text r.2
  value : readNumber base (r.1.text r.2) = some value

theorem length_itoa_le (val : BitVec 64) {base : Nat} (hb : 10 ≤ base) (hLe : base ≤ 16) (isSigned uppercase : Bool) :
    (itoa val base isSigned uppercase).length ≤ 21 := by
  rw [itoa_eq val base isSigned uppercase (by omega) hLe, List.length_append, List.length_map]
  generalize (if (isSigned && decide (val.toInt < 0)) = true then -val else val) = uval
  have hDigits : (Nat.toDigits base uval.toNat).length ≤ 20 := by
    rw [Nat.length_toDigits_le_iff (by omega) (by decide)]
    have hLt := uval.isLt
    exact hLt.trans_le ((show 2 ^ 64 ≤ 10 ^ 20 by decide).trans (Nat.pow_le_pow_left hb 20))
  split
  · rw [List.length_singleton]
    omega
  · rw [List.length_nil]
    omega

theorem readNumber_itoa (val : BitVec 64) {base : Nat} (hb : 1 < base) (hLe : base ≤ 16) (isSigned uppercase : Bool) :
    readNumber base (itoa val base isSigned uppercase) =
      some (if isSigned then val.toInt else (val.toNat : Int)) := by
  have hKeeps : KeepsDigits (if uppercase then Char.toUpper else id) := by
    split
    · exact keepsDigits_toUpper
    · exact keepsDigits_id
  rw [itoa_eq val base isSigned uppercase hb hLe]
  cases isSigned with
  | false => exact readNumber_toDigits hKeeps hb hLe val.toNat
  | true =>
    by_cases hNeg : val.toInt < 0
    · have hAbs := toNat_neg_of_neg hNeg
      have hRead := readNumber_minus hKeeps hb hLe (n := (-val).toNat) (by omega)
      simp only [hNeg, decide_true, Bool.and_self, if_true]
      rw [show ['-'] ++ (Nat.toDigits base (-val).toNat).map (if uppercase then Char.toUpper else id) =
        '-' :: (Nat.toDigits base (-val).toNat).map (if uppercase then Char.toUpper else id) from rfl, hRead]
      congr 1
      omega
    · have hAbs := toNat_of_nonneg hNeg
      have hRead := readNumber_toDigits hKeeps hb hLe val.toNat
      simp only [hNeg, decide_false, Bool.and_false, if_true, Bool.false_eq_true, if_false, List.nil_append]
      rw [hRead]
      congr 1
      omega

theorem nul_not_mem_itoa (val : BitVec 64) {base : Nat} (hb : 1 < base) (hLe : base ≤ 16) (isSigned uppercase : Bool) :
    '\x00' ∉ itoa val base isSigned uppercase := by
  have hKeeps : KeepsDigits (if uppercase then Char.toUpper else id) := by
    split
    · exact keepsDigits_toUpper
    · exact keepsDigits_id
  rw [itoa_eq val base isSigned uppercase hb hLe]
  intro hMem
  rcases List.mem_append.mp hMem with hSign | hDigit
  · split at hSign
    · exact absurd (List.mem_singleton.mp hSign) (by decide)
    · cases hSign
  · exact digitValue_ne_none (readDigits_toDigits hKeeps hb hLe _) hDigit (by decide)

theorem itoaInto_exact (buf : Buffer Char) (val : BitVec 64) {base : Nat} (hBase : base = 10 ∨ base = 16)
    (isSigned uppercase : Bool) : Exact base (if isSigned then val.toInt else (val.toNat : Int))
      (itoaInto buf val base isSigned uppercase) := by
  have hBounds : 10 ≤ base ∧ base ≤ 16 := by omega
  constructor
  · rw [length_itoaInto]
    exact length_itoa_le val hBounds.1 hBounds.2 isSigned uppercase
  · rw [length_itoaInto]
    exact terminated_itoaInto buf val base isSigned uppercase
  · rw [length_itoaInto, text_itoaInto]
    exact nul_not_mem_itoa val (by omega) hBounds.2 isSigned uppercase
  · rw [length_itoaInto, text_itoaInto]
    exact readNumber_itoa val (by omega) hBounds.2 isSigned uppercase

/-- `itoa` with its sign and `utoa` are exact in both bases. -/
theorem number_conversion_exact (buf : Buffer Char) (val : BitVec 64) {base : Nat} (hBase : base = 10 ∨ base = 16)
    (uppercase : Bool) : Exact base val.toInt (itoaInto buf val base true uppercase) ∧
      Exact base val.toNat (utoaInto buf val base uppercase) :=
  ⟨itoaInto_exact buf val hBase true uppercase, itoaInto_exact buf val hBase false uppercase⟩

theorem number_conversion_exact_min :
    Exact 10 (BitVec.intMin 64).toInt (itoaInto ⟨fun _ => '\x00', []⟩ (BitVec.intMin 64) 10 true false) ∧
      Exact 10 (BitVec.intMin 64).toNat (utoaInto ⟨fun _ => '\x00', []⟩ (BitVec.intMin 64) 10 false) :=
  number_conversion_exact _ _ (Or.inl rfl) false

end UnixOS.Printk
