import UnixOS.Core.Printk

/-! # The text that `kvsnprintf` writes

A conversion is read back from its characters, and the digits of a number are those of the standard; what is
left is the padding, which goes in front of the sign.
-/

namespace UnixOS.Printk

open CFormat

/-! ### Reading a conversion -/

theorem skipZeros_of_ne {c : Char} (h : c ≠ '0') (fmt : List Char) : skipZeros (c :: fmt) = (false, c :: fmt) :=
  if_neg h

theorem toDigits_head {b n : Nat} (hb : 1 < b) (h : 0 < n) :
    ∃ d cs, 0 < d ∧ d < b ∧ Nat.toDigits b n = d.digitChar :: cs := by
  induction n using Nat.strongRecOn with
  | ind n ih =>
    by_cases hSmall : n < b
    · exact ⟨n, [], h, hSmall, Nat.toDigits_of_lt_base hSmall⟩
    · have hQuotient : 0 < n / b := Nat.div_pos (by omega) (by omega)
      obtain ⟨d, cs, hPos, hLt, hDigits⟩ := ih (n / b) (Nat.div_lt_self h hb) hQuotient
      refine ⟨d, cs ++ [(n % b).digitChar], hPos, hLt, ?_⟩
      rw [Nat.toDigits_of_base_le hb (by omega), hDigits]
      rfl

theorem toDigits_head_ne {n : Nat} (h : 0 < n) : ∃ c cs, Nat.toDigits 10 n = c :: cs ∧ c ≠ '0' := by
  obtain ⟨d, cs, hPos, -, hDigits⟩ := toDigits_head (show 1 < 10 by decide) h
  exact ⟨_, cs, hDigits, by simpa using Nat.ne_of_gt hPos⟩

theorem digit_of_mem_toDigits {n : Nat} {c : Char} (h : c ∈ Nat.toDigits 10 n) : '0' ≤ c ∧ c ≤ '9' := by
  have hDigit := Nat.isDigit_of_mem_toDigits (by decide) (by decide) h
  simpa [Char.isDigit, Char.le_def] using hDigit

theorem readWidth_append (cs rest : List Char) (h : ∀ c ∈ cs, '0' ≤ c ∧ c ≤ '9') (w : Nat) :
    readWidth (cs ++ rest) (BitVec.ofNat 32 w) = readWidth rest (BitVec.ofNat 32 (Nat.ofDigitChars 10 cs w)) := by
  induction cs generalizing w with
  | nil => simp
  | cons c cs ih =>
    have hStep : BitVec.ofNat 32 w * 10 + BitVec.ofNat 32 (c.toNat - '0'.toNat) =
        BitVec.ofNat 32 (10 * w + (c.toNat - '0'.toNat)) := by
      rw [BitVec.ofNat_add, Nat.mul_comm, BitVec.ofNat_mul]
      rfl
    rw [List.cons_append, readWidth, if_pos (h c List.mem_cons_self), hStep,
      ih (fun c hMem => h c (List.mem_cons_of_mem _ hMem)), Nat.ofDigitChars_cons]

theorem readWidth_widthChars (width : Nat) (c : Char) (rest : List Char) (hc : ¬('0' ≤ c ∧ c ≤ '9')) :
    readWidth (widthChars width ++ c :: rest) 0 = (BitVec.ofNat 32 width, c :: rest) := by
  have hZero : (0 : BitVec 32) = BitVec.ofNat 32 0 := rfl
  have hStop : ∀ w, readWidth (c :: rest) w = (w, c :: rest) := fun w => by rw [readWidth, if_neg hc]
  rw [widthChars]
  split
  case isTrue hNone => rw [List.nil_append, hStop, hNone, hZero]
  case isFalse hSome =>
    rw [hZero, readWidth_append _ _ (fun _ => digit_of_mem_toDigits), hStop, Nat.ofDigitChars_ten_toDigits]

structure EndsModifiers (c : Char) : Prop where
  not_digit : ¬('0' ≤ c ∧ c ≤ '9')
  not_l : c ≠ 'l'
  not_z : c ≠ 'z'

section Modifiers

variable {c : Char} (hc : EndsModifiers c) (m : Modifiers) (fmt : List Char)

include hc

theorem length_chars_head : ∃ d rest, m.length.chars ++ c :: fmt = d :: rest ∧ ¬('0' ≤ d ∧ d ≤ '9') := by
  cases m.length with
  | none => exact ⟨c, fmt, rfl, hc.not_digit⟩
  | l => exact ⟨'l', _, rfl, by decide⟩
  | ll => exact ⟨'l', _, rfl, by decide⟩
  | z => exact ⟨'z', _, rfl, by decide⟩

theorem skipZeros_widthChars :
    skipZeros (widthChars m.width ++ (m.length.chars ++ c :: fmt)) =
      (false, widthChars m.width ++ (m.length.chars ++ c :: fmt)) := by
  rw [widthChars]
  split
  case isTrue hNone =>
    obtain ⟨d, rest, hHead, hDigit⟩ := length_chars_head hc m fmt
    rw [List.nil_append, hHead]
    apply skipZeros_of_ne
    rintro rfl
    exact hDigit (by decide)
  case isFalse hSome =>
    obtain ⟨d, ds, hHead, hNe⟩ := toDigits_head_ne (Nat.pos_of_ne_zero hSome)
    rw [hHead]
    exact skipZeros_of_ne hNe _

theorem skipZeros_chars :
    skipZeros (m.chars ++ c :: fmt) = (m.zero, widthChars m.width ++ (m.length.chars ++ c :: fmt)) := by
  have hRest := skipZeros_widthChars hc m fmt
  rw [Modifiers.chars, List.append_assoc, List.append_assoc]
  cases m.zero with
  | false => exact hRest
  | true =>
    change (true, (skipZeros (widthChars m.width ++ (m.length.chars ++ c :: fmt))).2) = _
    rw [hRest]

theorem readWidth_chars :
    readWidth (widthChars m.width ++ (m.length.chars ++ c :: fmt)) 0 =
      (BitVec.ofNat 32 m.width, m.length.chars ++ c :: fmt) := by
  obtain ⟨d, rest, hHead, hDigit⟩ := length_chars_head hc m fmt
  rw [hHead]
  exact readWidth_widthChars m.width d rest hDigit

end Modifiers

def isLongOf : LengthModifier → Bool
  | .none => false
  | _ => true

def isLongLongOf : LengthModifier → Bool
  | .ll => true
  | _ => false

theorem readLength_chars {c : Char} (hc : EndsModifiers c) (length : LengthModifier) (fmt : List Char) :
    readLength (length.chars ++ c :: fmt) = (isLongOf length, isLongLongOf length, c :: fmt) := by
  have hL := hc.not_l
  have hZ := hc.not_z
  cases length with
  | none => simp [LengthModifier.chars, readLength, isLongOf, isLongLongOf, hL, hZ]
  | l => simp [LengthModifier.chars, readLength, isLongOf, isLongLongOf, hL]
  | ll => rfl
  | z => rfl

section Loops

variable {c : Char} (hc : EndsModifiers c) (m : Modifiers) (fmt : List Char) (args : List VaArg) {p : Cursor}
  (hRoom : p.room ≠ 0) (fuel : Nat)

include hc hRoom

theorem kvsnprintfLoop_conversion :
    kvsnprintfLoop (fuel + 1) ('%' :: (m.chars ++ c :: fmt)) args p =
      (kvsnprintfConversion m.zero (BitVec.ofNat 32 m.width) (isLongOf m.length) (isLongLongOf m.length) c args
        p).bind fun r => kvsnprintfLoop fuel fmt r.1 r.2 := by
  rw [kvsnprintfLoop, if_neg hRoom, if_neg (not_not_intro rfl), skipZeros_chars hc]
  dsimp only
  rw [readWidth_chars hc]
  dsimp only
  rw [readLength_chars hc]
  dsimp only
  cases kvsnprintfConversion m.zero (BitVec.ofNat 32 m.width) (isLongOf m.length) (isLongLongOf m.length) c args p
    with
  | none => rfl
  | some r => rfl

end Loops

/-! ### Digits -/

theorem getD_digitsLower {k : Nat} (h : k < 16) : digitsLower.getD k '\x00' = k.digitChar := by
  have hAll : ∀ k : Fin 16, digitsLower.getD k '\x00' = (k : Nat).digitChar := by decide
  exact hAll ⟨k, h⟩

theorem getD_digitsUpper {k : Nat} (h : k < 16) : digitsUpper.getD k '\x00' = k.digitChar.toUpper := by
  have hAll : ∀ k : Fin 16, digitsUpper.getD k '\x00' = (k : Nat).digitChar.toUpper := by decide
  exact hAll ⟨k, h⟩

theorem itoaLoop_zero (digits : List Char) (b fuel : Nat) : itoaLoop digits b fuel 0 = [] := by
  cases fuel with
  | zero => rfl
  | succ fuel => rfl

theorem itoaLoop_eq_digitLoop (digits : List Char) (b : Nat) {fuel n : Nat} (h : n ≠ 0) :
    itoaLoop digits b fuel n = digitLoop (fun n => digits.getD (n % b) '\x00') (· / b) fuel n := by
  induction fuel generalizing n with
  | zero => rfl
  | succ fuel ih =>
    rw [itoaLoop, digitLoop, if_pos h]
    by_cases hMore : n / b > 0
    · rw [if_pos hMore, ih (Nat.ne_of_gt hMore)]
    · have hNone : n / b = 0 := Nat.eq_zero_of_not_pos hMore
      rw [if_neg hMore, hNone, itoaLoop_zero]

theorem reverse_itoaLoop {digits : List Char} {b : Nat} (f : Char → Char) (hb : 1 < b) (hLe : b ≤ 16)
    (hZero : f '0' = '0')
    (hDigit : ∀ k, k < 16 → digits.getD k '\x00' = f k.digitChar) {n : Nat} (h : n < 2 ^ 64) :
    ((if n = 0 then ['0'] else []) ++ itoaLoop digits b 64 n).reverse = (Nat.toDigits b n).map f := by
  by_cases hNone : n = 0
  · rw [if_pos hNone, hNone, itoaLoop_zero, Nat.toDigits_zero, List.map_singleton, hZero]
    rfl
  · have hLess : n < b ^ (63 + 1) := h.trans_le (Nat.pow_le_pow_left hb 64)
    rw [if_neg hNone, List.nil_append, itoaLoop_eq_digitLoop digits b hNone]
    exact reverse_digitLoop f hb (fun n => hDigit _ ((Nat.mod_lt n (by omega)).trans_le hLe)) (fun _ => rfl) hLess

theorem itoa_eq (v : BitVec 64) (b : Nat) (isSigned uppercase : Bool) (hb : 1 < b) (hLe : b ≤ 16) :
    itoa v b isSigned uppercase =
      (if isSigned && v.toInt < 0 then ['-'] else []) ++
        (Nat.toDigits b (if isSigned && v.toInt < 0 then -v else v).toNat).map
          (if uppercase then Char.toUpper else id) := by
  generalize hNeg : (isSigned && decide (v.toInt < 0)) = negative
  have hUval : ∀ u : BitVec 64,
      ((if u = 0 then ['0'] else []) ++
        itoaLoop (if uppercase then digitsUpper else digitsLower) b 64 u.toNat).reverse =
        (Nat.toDigits b u.toNat).map (if uppercase then Char.toUpper else id) := by
    intro u
    have hIff : (if u = 0 then ['0'] else []) = if u.toNat = 0 then ['0'] else ([] : List Char) := by
      simp only [BitVec.toNat_eq]
      rfl
    rw [hIff]
    cases uppercase with
    | false => exact reverse_itoaLoop id hb hLe rfl (fun _ => getD_digitsLower) u.isLt
    | true => exact reverse_itoaLoop Char.toUpper hb hLe rfl (fun _ => getD_digitsUpper) u.isLt
  simp only [itoa, hNeg]
  cases negative with
  | false => exact hUval v
  | true =>
    rw [if_pos rfl, if_pos rfl, List.reverse_append]
    exact congrArg (['-'] ++ ·) (hUval (-v))

theorem utoa_eq (v : BitVec 64) (b : Nat) (uppercase : Bool) (hb : 1 < b) (hLe : b ≤ 16) :
    utoa v b uppercase = (Nat.toDigits b v.toNat).map (if uppercase then Char.toUpper else id) := by
  rw [utoa, itoa_eq v b false uppercase hb hLe]
  rfl

theorem toNat_neg_of_neg {v : BitVec 64} (h : v.toInt < 0) : (-v).toNat = v.toInt.natAbs := by
  have hLt := v.isLt
  rw [BitVec.toInt_eq_toNat_cond] at h ⊢
  rw [BitVec.toNat_neg]
  split at h <;> split <;> omega

theorem toNat_of_nonneg {v : BitVec 64} (h : ¬v.toInt < 0) : v.toNat = v.toInt.natAbs := by
  have hLt := v.isLt
  rw [BitVec.toInt_eq_toNat_cond] at h ⊢
  split at h <;> split <;> omega

theorem itoa_decimal (v : BitVec 64) :
    itoa v 10 true false = (if v.toInt < 0 then ['-'] else []) ++ Nat.toDigits 10 v.toInt.natAbs := by
  rw [itoa_eq v 10 true false (by decide) (by decide)]
  by_cases hNeg : v.toInt < 0
  · simp [hNeg, toNat_neg_of_neg hNeg]
  · simp [hNeg, toNat_of_nonneg hNeg]

/-! ### The kernel's text -/

def signedValue : Number → BitVec 64
  | .int v => v.signExtend 64
  | .long _ v => v

def unsignedValue : Number → BitVec 64
  | .int v => v.setWidth 64
  | .long _ v => v

theorem toInt_signedValue (n : Number) : (signedValue n).toInt = n.toInt := by
  cases n with
  | int v => exact BitVec.toInt_signExtend_of_le (by decide)
  | long m v => rfl

theorem toNat_unsignedValue (n : Number) : (unsignedValue n).toNat = n.toNat := by
  cases n with
  | int v =>
    have hLt := v.isLt
    rw [unsignedValue, BitVec.toNat_setWidth]
    exact Nat.mod_eq_of_lt (by omega)
  | long m v => rfl

theorem vaSigned_arg (n : Number) (args : List VaArg) :
    vaSigned (isLongOf n.length) (isLongLongOf n.length) (n.arg :: args) = some (signedValue n, args) := by
  cases n with
  | int v => rfl
  | long m v => cases m <;> rfl

theorem vaUnsigned_arg (n : Number) (args : List VaArg) :
    vaUnsigned (isLongOf n.length) (isLongLongOf n.length) (n.arg :: args) = some (unsignedValue n, args) := by
  cases n with
  | int v => rfl
  | long m v => cases m <;> rfl

def body (spec : NumberSpecifier) (n : Number) : List Char := spec.sign n ++ spec.digits n

def kernelText : Item → List Char
  | .number zero width spec n =>
    List.replicate ((BitVec.ofNat 32 width).toInt - (body spec n).length).toNat (if zero then '0' else ' ') ++
      body spec n
  | item => item.text

theorem puts_putNumber (zero : Bool) (width : BitVec 32) (numbuf : List Char) (p : Cursor) :
    putNumber zero width numbuf p =
      p.puts (List.replicate (width.toInt - numbuf.length).toNat (if zero then '0' else ' ') ++ numbuf) :=
  (Cursor.puts_append _ _).symm

theorem kvsnprintfConversion_number (zero : Bool) (width : BitVec 32) (spec : NumberSpecifier) (n : Number)
    (args : List VaArg) (p : Cursor) :
    kvsnprintfConversion zero width (isLongOf n.length) (isLongLongOf n.length) spec.char (n.arg :: args) p =
      some (args, putNumber zero width (body spec n) p) := by
  cases spec with
  | d | i =>
    simp only [kvsnprintfConversion, NumberSpecifier.char, vaSigned_arg, Option.map_some, itoa_decimal,
      toInt_signedValue]
    rfl
  | u =>
    simp only [kvsnprintfConversion, NumberSpecifier.char, vaUnsigned_arg, Option.map_some,
      utoa_eq _ 10 false (by decide) (by decide), toNat_unsignedValue]
    simp [body, NumberSpecifier.sign, NumberSpecifier.digits]
  | x | X =>
    simp only [kvsnprintfConversion, NumberSpecifier.char, vaUnsigned_arg, Option.map_some,
      utoa_eq _ 16 _ (by decide) (by decide), toNat_unsignedValue]
    simp [body, NumberSpecifier.sign, NumberSpecifier.digits]

theorem endsModifiers_char (spec : NumberSpecifier) : EndsModifiers spec.char := by
  cases spec <;> exact ⟨by decide, by decide, by decide⟩

theorem kvsnprintfLoop_item (item : Item) (fmt : List Char) (args : List VaArg) {p : Cursor} (hRoom : p.room ≠ 0)
    (fuel : Nat) :
    kvsnprintfLoop (fuel + 1) (item.format ++ fmt) (item.args ++ args) p =
      kvsnprintfLoop fuel fmt args (p.puts (kernelText item)) := by
  cases item with
  | ordinary c hOrdinary =>
    change kvsnprintfLoop (fuel + 1) (c :: fmt) args p = _
    rw [kvsnprintfLoop, if_neg hRoom, if_pos hOrdinary.1]
    rfl
  | number zero width spec n =>
    simp only [Item.format, Item.args, List.cons_append, List.append_assoc, List.nil_append]
    rw [kvsnprintfLoop_conversion (endsModifiers_char spec) _ _ _ hRoom, kvsnprintfConversion_number,
      puts_putNumber]
    rfl
  | char m v =>
    simp only [Item.format, Item.args, List.cons_append, List.append_assoc, List.nil_append]
    rw [kvsnprintfLoop_conversion ⟨by decide, by decide, by decide⟩ _ _ _ hRoom]
    rfl
  | string m s =>
    simp only [Item.format, Item.args, List.cons_append, List.append_assoc, List.nil_append]
    rw [kvsnprintfLoop_conversion ⟨by decide, by decide, by decide⟩ _ _ _ hRoom]
    rfl
  | pointer m v =>
    simp only [Item.format, Item.args, List.cons_append, List.append_assoc, List.nil_append]
    rw [kvsnprintfLoop_conversion ⟨by decide, by decide, by decide⟩ _ _ _ hRoom]
    simp [kvsnprintfConversion, vaPointer, utoa_eq v 16 false (by decide) (by decide), kernelText, Item.text,
      Cursor.puts_append, Cursor.puts_cons]
  | percent m =>
    simp only [Item.format, Item.args, List.cons_append, List.append_assoc, List.nil_append]
    rw [kvsnprintfLoop_conversion ⟨by decide, by decide, by decide⟩ _ _ _ hRoom]
    rfl

theorem kvsnprintfLoop_format (items : List Item) {p : Cursor} {fuel : Nat} (h : items.length < fuel) :
    kvsnprintfLoop fuel (format items) (args items) p = some (p.puts (items.flatMap kernelText)) := by
  induction items generalizing p fuel with
  | nil =>
    obtain ⟨fuel, rfl⟩ : ∃ n, fuel = n + 1 := ⟨fuel - 1, by omega⟩
    rfl
  | cons item items ih =>
    rw [List.length_cons] at h
    obtain ⟨fuel, rfl⟩ : ∃ n, fuel = n + 1 := ⟨fuel - 1, by omega⟩
    by_cases hRoom : p.room = 0
    · rw [Cursor.puts_of_full hRoom]
      cases hFormat : format (item :: items) with
      | nil => rfl
      | cons c fmt => rw [kvsnprintfLoop, if_pos hRoom]
    · simp only [format, args, List.flatMap_cons, Cursor.puts_append]
      rw [kvsnprintfLoop_item item _ _ hRoom]
      exact ih (by omega)

theorem length_le_format (items : List Item) : items.length ≤ (format items).length := by
  induction items with
  | nil => exact Nat.zero_le _
  | cons item items ih =>
    have hSome : 1 ≤ item.format.length := by
      cases item <;> simp [Item.format]
    rw [format, List.flatMap_cons, List.length_append, List.length_cons]
    have hRest : items.length ≤ (items.flatMap Item.format).length := ih
    omega

theorem room_eq {buf size : Nat} (hSize : 0 < size) (hEnd : buf + size ≤ 2 ^ 64) :
    (buf + size + (2 ^ 64 - 1)) % 2 ^ 64 - buf = size - 1 := by
  have hLast : buf + size + (2 ^ 64 - 1) = buf + size - 1 + 2 ^ 64 := by omega
  rw [hLast, Nat.add_mod_right, Nat.mod_eq_of_lt (by omega)]
  omega

theorem kvsnprintf_eq (items : List Item) {buf size : Nat} (hSize : (items.flatMap kernelText).length < size)
    (hEnd : buf + size ≤ 2 ^ 64) :
    kvsnprintf buf size (format items) (args items) = some (items.flatMap kernelText) := by
  have hLength := length_le_format items
  rw [kvsnprintf, room_eq (by omega) hEnd, kvsnprintfLoop_format items (by omega),
    Cursor.puts_of_le (by simp only; omega)]
  rfl

/-! ### The kernel against the standard -/

theorem length_padded (zero : Bool) (width : Nat) (sign digits : List Char) :
    (padded zero width sign digits).length = max width (sign ++ digits).length := by
  cases zero <;> simp [padded] <;> omega

theorem length_sign_le (spec : NumberSpecifier) (n : Number) : (spec.sign n).length ≤ 1 := by
  cases spec <;> simp [NumberSpecifier.sign] <;> split <;> simp

theorem Number.toNat_lt (n : Number) : n.toNat < 2 ^ 64 := by
  rw [← toNat_unsignedValue]
  exact (unsignedValue n).isLt

theorem Number.natAbs_le (n : Number) : n.toInt.natAbs ≤ 2 ^ 63 := by
  rw [← toInt_signedValue]
  have hLt := (signedValue n).isLt
  rw [BitVec.toInt_eq_toNat_cond]
  split <;> omega

theorem length_digits_le (spec : NumberSpecifier) (n : Number) : (spec.digits n).length ≤ 20 := by
  have hNat := Number.toNat_lt n
  have hAbs := Number.natAbs_le n
  cases spec with
  | d | i | u => exact (Nat.length_toDigits_le_iff (by decide) (by decide)).mpr (by omega)
  | x => exact (Nat.length_toDigits_le_iff (by decide) (by decide)).mpr (by omega)
  | X =>
    rw [NumberSpecifier.digits, List.length_map]
    exact (Nat.length_toDigits_le_iff (by decide) (by decide)).mpr (by omega)

theorem length_body_le (spec : NumberSpecifier) (n : Number) : (body spec n).length ≤ 21 := by
  have hSign := length_sign_le spec n
  have hDigits := length_digits_le spec n
  rw [body, List.length_append]
  omega

theorem toInt_width (width : Nat) : (BitVec.ofNat 32 width).toInt ≤ width ∧
    ((BitVec.ofNat 32 width).toInt = width ↔ width < 2 ^ 31) := by
  rw [BitVec.toInt_eq_toNat_cond, BitVec.toNat_ofNat]
  split <;> omega

/-- The kernel writes what the standard prescribes: the width is an `int`, and no sign has zeros in front. -/
def kernelOk : Item → Prop
  | .number zero width spec n =>
    width < 2 ^ 31 ∧ (zero = true → spec.sign n ≠ [] → width ≤ (body spec n).length)
  | _ => True

theorem length_kernelText_le (item : Item) : (kernelText item).length ≤ item.text.length := by
  cases item with
  | number zero width spec n =>
    have hWidth := (toInt_width width).1
    simp only [kernelText, Item.text, length_padded, List.length_append, List.length_replicate, body]
    omega
  | _ => exact Nat.le_refl _

theorem padded_of_le {zero : Bool} {width : Nat} {sign digits : List Char} (h : width ≤ (sign ++ digits).length) :
    padded zero width sign digits = sign ++ digits := by
  rw [List.length_append] at h
  have hNone : width - (sign.length + digits.length) = 0 := by omega
  cases zero <;> simp [padded, hNone]

theorem sign_eq_of_ne {spec : NumberSpecifier} {n : Number} (h : spec.sign n ≠ []) : spec.sign n = ['-'] := by
  cases spec with
  | d | i =>
    simp only [NumberSpecifier.sign] at h ⊢
    split at h
    case isTrue hNeg => rw [if_pos hNeg]
    case isFalse => exact absurd rfl h
  | _ => exact absurd rfl h

theorem kernelText_of_ok {zero : Bool} {width : Nat} {spec : NumberSpecifier} {n : Number}
    (h : kernelOk (.number zero width spec n)) :
    kernelText (.number zero width spec n) = padded zero width (spec.sign n) (spec.digits n) := by
  obtain ⟨hInt, hSign⟩ := h
  have hPadding : ((BitVec.ofNat 32 width).toInt - (body spec n).length).toNat = width - (body spec n).length := by
    rw [(toInt_width width).2.mpr hInt]
    omega
  simp only [kernelText, hPadding]
  cases zero with
  | false => simp [padded, body]
  | true =>
    by_cases hNone : spec.sign n = []
    · simp [padded, body, hNone]
    · have hWidth : width ≤ (body spec n).length := hSign rfl hNone
      rw [padded_of_le hWidth, Nat.sub_eq_zero_of_le hWidth]
      rfl

theorem kernelText_eq_iff (item : Item) : kernelText item = item.text ↔ kernelOk item := by
  cases item with
  | number zero width spec n =>
    constructor
    · intro hSame
      obtain ⟨hLe, hInt⟩ := toInt_width width
      have hBody := length_body_le spec n
      have hLength := congrArg List.length hSame
      have hText : (Item.number zero width spec n).text.length = max width (body spec n).length :=
        length_padded zero width (spec.sign n) (spec.digits n)
      rw [hText] at hLength
      simp only [kernelText, List.length_append, List.length_replicate] at hLength
      refine ⟨by omega, ?_⟩
      rintro rfl hSign
      -- a sign that the padding stands in front of is not the first character
      by_contra hWide
      have hMinus := sign_eq_of_ne hSign
      obtain ⟨k, hk⟩ : ∃ k, ((BitVec.ofNat 32 width).toInt - (body spec n).length).toNat = k + 1 :=
        ⟨((BitVec.ofNat 32 width).toInt - (body spec n).length).toNat - 1, by omega⟩
      simp [kernelText, hk, Item.text, padded, hMinus, List.replicate_succ] at hSame
    · exact kernelText_of_ok
  | _ => exact iff_of_true rfl trivial

theorem length_flatMap_le {α β : Type} {f g : α → List β} (hLe : ∀ a, (f a).length ≤ (g a).length) (l : List α) :
    (l.flatMap f).length ≤ (l.flatMap g).length := by
  induction l with
  | nil => exact Nat.le_refl _
  | cons a l ih =>
    have hHead := hLe a
    simp only [List.flatMap_cons, List.length_append]
    omega

theorem flatMap_eq_iff_of_length_le {α β : Type} {f g : α → List β} (hLe : ∀ a, (f a).length ≤ (g a).length)
    (l : List α) : l.flatMap f = l.flatMap g ↔ ∀ a ∈ l, f a = g a := by
  induction l with
  | nil => simp
  | cons a l ih =>
    rw [List.flatMap_cons, List.flatMap_cons, List.forall_mem_cons]
    constructor
    · intro hSame
      have hLength := congrArg List.length hSame
      simp only [List.length_append] at hLength
      have hHead := hLe a
      have hTail := length_flatMap_le hLe l
      obtain ⟨hFirst, hRest⟩ := List.append_inj hSame (by omega)
      exact ⟨hFirst, ih.mp hRest⟩
    · rintro ⟨hFirst, hRest⟩
      rw [hFirst, ih.mpr hRest]

/-- In every buffer larger than the text the kernel writes the text. -/
def KernelWrites (items : List Item) : Prop :=
  ∀ buf size, (text items).length < size → buf + size ≤ 2 ^ 64 →
    kvsnprintf buf size (format items) (args items) = some (text items)

theorem kernelWrites_iff {items : List Item} (hFits : (text items).length + 4098 ≤ 2 ^ 64) :
    KernelWrites items ↔ ∀ item ∈ items, kernelOk item := by
  have hSame := flatMap_eq_iff_of_length_le length_kernelText_le items
  have hLe : (items.flatMap kernelText).length ≤ (text items).length := length_flatMap_le length_kernelText_le items
  simp only [kernelText_eq_iff] at hSame
  rw [← hSame]
  constructor
  · intro hWrites
    have hHere := hWrites 4096 ((text items).length + 1) (by omega) (by omega)
    rw [kvsnprintf_eq items (by omega) (by omega)] at hHere
    exact Option.some.inj hHere
  · intro hText buf size hSize hEnd
    rw [kvsnprintf_eq items (by omega) hEnd, hText]
    rfl

end UnixOS.Printk
