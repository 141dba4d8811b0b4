import UnixOS.Core.PrintkFormat
import UnixOS.Libc.Stdio

/-! # The text that `vsnprintf` writes

The padding loops of the library do not count: once entered they run to the end of the buffer. So the text is
right exactly where there is nothing to pad.
-/

namespace UnixOS.Libc

open CFormat UnixOS.Printk

theorem readIsLong_chars {c : Char} (hc : EndsModifiers c) (length : LengthModifier) (fmt : List Char) :
    readIsLong (length.chars ++ c :: fmt) = (isLongOf length, c :: fmt) := by
  have hL := hc.not_l
  have hZ := hc.not_z
  cases length with
  | none => simp [LengthModifier.chars, readIsLong, isLongOf, hL, hZ]
  | l => simp [LengthModifier.chars, readIsLong, isLongOf, hL]
  | ll => rfl
  | z => rfl

theorem vsnprintfLoop_conversion {c : Char} (hc : EndsModifiers c) (m : Modifiers) (fmt : List Char)
    (args : List VaArg) {p : Cursor} (hRoom : p.room ≠ 0) (fuel : Nat) :
    vsnprintfLoop (fuel + 1) ('%' :: (m.chars ++ c :: fmt)) args p =
      (vsnprintfConversion m.zero (BitVec.ofNat 32 m.width) (isLongOf m.length) c args p).bind
        fun r => vsnprintfLoop fuel fmt r.1 r.2 := by
  rw [vsnprintfLoop, if_neg hRoom, if_neg (not_not_intro rfl), skipZeros_chars hc]
  dsimp only
  rw [readWidth_chars hc]
  dsimp only
  rw [readIsLong_chars hc]
  dsimp only
  cases vsnprintfConversion m.zero (BitVec.ofNat 32 m.width) (isLongOf m.length) c args p with
  | none => rfl
  | some r => rfl

/-! ### The library's text -/

theorem copyOut_eq {numbuf : List Char} {i : Nat} (h : i ≤ numbuf.length) (p : Cursor) :
    copyOut numbuf i p = some (p.puts (numbuf.take i).reverse) := by
  induction i generalizing p with
  | zero => rfl
  | succ i ih =>
    rw [copyOut]
    split
    case isTrue hFull => rw [Cursor.puts_of_full hFull]
    case isFalse hRoom =>
      have hHere : numbuf[i]? = some (numbuf[i]) := List.getElem?_eq_getElem h
      rw [hHere, List.take_succ_eq_append_getElem h, List.reverse_append]
      exact ih (Nat.le_of_succ_le h) (p.put numbuf[i])

theorem copyOut_all (numbuf : List Char) (p : Cursor) :
    copyOut numbuf numbuf.length p = some (p.puts numbuf.reverse) := by
  rw [copyOut_eq (Nat.le_refl _), List.take_length]

theorem ofNat_digit {k : Nat} (h : k < 10) : Char.ofNat (48 + k) = k.digitChar := by
  have hAll : ∀ k : Fin 10, Char.ofNat (48 + k) = (k : Nat).digitChar := by decide
  exact hAll ⟨k, h⟩

theorem decimalLoop_of_nonneg (fuel n : Nat) :
    decimalLoop fuel n = digitLoop (fun v => Char.ofNat (48 + v % 10)) (· / 10) fuel n := by
  induction fuel generalizing n with
  | zero => rfl
  | succ fuel ih =>
    have hMod : (48 + (n : Int).tmod 10).toNat = 48 + n % 10 := rfl
    have hDiv : (n : Int).tdiv 10 = ((n / 10 : Nat) : Int) := rfl
    rw [decimalLoop, digitLoop, hMod, hDiv, ih]
    simp only [gt_iff_lt, Int.natCast_pos]

theorem reverse_decimal {n : Nat} (h : n < 2 ^ 64) :
    (digitLoop (fun v => Char.ofNat (48 + v % 10)) (· / 10) 64 n).reverse = Nat.toDigits 10 n := by
  have hLoop := reverse_digitLoop id (by decide : 1 < 10) (fun n => ofNat_digit (Nat.mod_lt n (by decide)))
    (fun _ => rfl) (h.trans_le (by decide) : n < 10 ^ (63 + 1))
  rwa [List.map_id] at hLoop

def signedNumbuf (v : BitVec 64) : List Char :=
  decimalLoop 64 (if v.toInt < 0 then -v else v).toInt ++ if v.toInt < 0 then ['-'] else []

theorem reverse_signedNumbuf {v : BitVec 64} (h : v.toInt ≠ -2 ^ 63) :
    (signedNumbuf v).reverse = (if v.toInt < 0 then ['-'] else []) ++ Nat.toDigits 10 v.toInt.natAbs := by
  have hLt := v.isLt
  have hAbs : (if v.toInt < 0 then -v else v).toInt = (v.toInt.natAbs : Int) := by
    split
    case isTrue hNeg =>
      have hNat := toNat_neg_of_neg hNeg
      have hLow := BitVec.le_toInt v
      rw [BitVec.toInt_eq_toNat_cond, hNat, if_pos (by omega)]
    case isFalse hNonneg => omega
  have hSmall : v.toInt.natAbs < 2 ^ 64 := by
    rw [BitVec.toInt_eq_toNat_cond]
    split <;> omega
  rw [signedNumbuf, hAbs, decimalLoop_of_nonneg, List.reverse_append, reverse_decimal hSmall]
  split <;> rfl

theorem signedNumbuf_min {v : BitVec 64} (h : v.toInt = -2 ^ 63) : signedNumbuf v = ['(', '-'] := by
  have hMin : v = BitVec.intMin 64 := by
    apply BitVec.eq_of_toInt_eq
    rw [h]
    rfl
  rw [hMin]
  decide

theorem reverse_hexDigits {digits : List Char} (f : Char → Char)
    (hDigit : ∀ k, k < 16 → digits.getD k '\x00' = f k.digitChar) (v : BitVec 64) :
    (hexDigits digits v).reverse = (Nat.toDigits 16 v.toNat).map f := by
  apply reverse_digitLoop f (by decide)
  · intro n
    have hLow : n &&& 0xf = n % 16 := Nat.and_two_pow_sub_one_eq_mod n 4
    rw [hLow]
    exact hDigit _ (Nat.mod_lt n (by decide))
  · intro n
    exact Nat.shiftRight_eq_div_pow n 4
  · exact v.isLt.trans_le (by decide)

theorem reverse_pointerDigits {j n : Nat} (h : n < 16 ^ (j + 1)) :
    (pointerDigits (j + 1) n).reverse =
      List.replicate (j + 1 - (Nat.toDigits 16 n).length) '0' ++ Nat.toDigits 16 n := by
  have hLow : n &&& 0xf = n % 16 := Nat.and_two_pow_sub_one_eq_mod n 4
  have hShift : n >>> 4 = n / 16 := Nat.shiftRight_eq_div_pow n 4
  induction j generalizing n with
  | zero =>
    have hSmall : n < 16 := h
    rw [pointerDigits, pointerDigits, hLow, Nat.mod_eq_of_lt hSmall, getD_digitsLower hSmall,
      Nat.toDigits_of_lt_base hSmall]
    rfl
  | succ j ih =>
    have hNext : n / 16 < 16 ^ (j + 1) := by
      rw [Nat.div_lt_iff_lt_mul (by decide)]
      rwa [Nat.pow_succ] at h
    rw [pointerDigits, List.reverse_cons, hLow, hShift, getD_digitsLower (Nat.mod_lt n (by decide)),
      ih hNext (Nat.and_two_pow_sub_one_eq_mod _ 4) (Nat.shiftRight_eq_div_pow _ 4)]
    by_cases hSmall : n < 16
    · rw [Nat.div_eq_of_lt hSmall, Nat.toDigits_zero, Nat.toDigits_of_lt_base hSmall, Nat.mod_eq_of_lt hSmall]
      simp [List.replicate_succ', List.append_assoc]
    · have hDigits : Nat.toDigits 16 n = Nat.toDigits 16 (n / 16) ++ [(n % 16).digitChar] :=
        Nat.toDigits_of_base_le (by decide) (Nat.le_of_not_lt hSmall)
      rw [hDigits, List.length_append, List.length_singleton, Nat.add_sub_add_right, List.append_assoc]

theorem length_pointerDigits (j n : Nat) : (pointerDigits j n).length = j := by
  induction j generalizing n with
  | zero => rfl
  | succ j ih => rw [pointerDigits, List.length_cons, ih]

theorem copyOut_of_full {numbuf : List Char} {p : Cursor} (h : p.room = 0) (i : Nat) :
    copyOut numbuf i p = some p := by
  cases i with
  | zero => rfl
  | succ i => rw [copyOut, if_pos h]

/-- Once begun, the loop goes on until the buffer is full or `i` has come around. -/
theorem zeroFill_fills {neg : Bool} {width : Int} (hWidth : width < 2 ^ 31) {fuel : Nat} {i : Int} {p : Cursor}
    (hLess : i < width) (hLow : -2 ^ 31 ≤ i) (hFuel : p.room ≤ fuel) :
    (zeroFill neg width fuel i p).2.text.length + (zeroFill neg width fuel i p).2.room =
        p.text.length + p.room ∧
      ((zeroFill neg width fuel i p).2.room = 0 ∨ (zeroFill neg width fuel i p).1 = 2 ^ 31 - 1) := by
  induction fuel generalizing i p with
  | zero => exact ⟨rfl, Or.inl (Nat.le_zero.mp hFuel)⟩
  | succ fuel ih =>
    have hPut : ∀ c, p.room ≠ 0 → (p.put c).room ≤ fuel := by
      intro c hRoom
      rw [Cursor.put_of_pos (Nat.pos_of_ne_zero hRoom)]
      exact Nat.sub_le_of_le_add hFuel
    rw [zeroFill]
    split
    case isFalse hStop => exact ⟨rfl, Or.inl (by_contra fun hRoom => hStop ⟨hLess, hRoom⟩)⟩
    case isTrue hGo =>
      cases neg with
      | false =>
        have hRest := ih hLess hLow (hPut '0' hGo.2)
        rw [Cursor.length_add_room_put] at hRest
        exact hRest
      | true =>
        rw [if_pos rfl]
        by_cases hWrap : i = -2 ^ 31
        · have hAround : decrement i = 2 ^ 31 - 1 := if_pos hWrap
          have hStop : ∀ q, zeroFill true width fuel (2 ^ 31 - 1) q = (2 ^ 31 - 1, q) := by
            intro q
            cases fuel with
            | zero => rfl
            | succ fuel => rw [zeroFill, if_neg (by omega)]
          rw [hAround, hStop]
          exact ⟨Cursor.length_add_room_put _, Or.inr rfl⟩
        · have hDown : decrement i = i - 1 := if_neg hWrap
          have hRest := ih (i := decrement i) (by omega) (by omega)
            (hPut (if decrement i = 0 then '-' else '0') hGo.2)
          rw [Cursor.length_add_room_put] at hRest
          exact hRest

def Fills (p q : Cursor) : Prop := q.room = 0 ∧ q.text.length = p.text.length + p.room

theorem putSigned_eq (zero : Bool) (width : BitVec 32) (v : BitVec 64) (p : Cursor) :
    putSigned zero width v p =
      let r := if zero then zeroFill (decide (v.toInt < 0)) width.toInt p.room (signedNumbuf v).length p
        else (((signedNumbuf v).length : Int), p)
      copyOut (signedNumbuf v) r.1.toNat r.2 := by
  simp only [putSigned, signedNumbuf, decide_eq_true_eq]

theorem putSigned_fills {width : BitVec 32} {v : BitVec 64} {p q : Cursor}
    (hLess : ((signedNumbuf v).length : Int) < width.toInt) (h : putSigned true width v p = some q) :
    Fills p q := by
  have hWidth := BitVec.toInt_lt (x := width)
  obtain ⟨hSum, hEnd⟩ := @zeroFill_fills (decide (v.toInt < 0)) _ hWidth _ _ p hLess (by omega)
    (Nat.le_refl p.room)
  simp only [putSigned_eq, if_true] at h
  generalize zeroFill (decide (v.toInt < 0)) width.toInt p.room (signedNumbuf v).length p = r at hSum hEnd h
  by_cases hFull : r.2.room = 0
  · rw [copyOut_of_full hFull] at h
    cases h
    exact ⟨hFull, by omega⟩
  · -- the digit it reads next is not in `numbuf`
    have hAround := hEnd.resolve_left hFull
    have hIndex : r.1.toNat = 2 ^ 31 - 2 + 1 := by omega
    have hNone : (signedNumbuf v)[2 ^ 31 - 2]? = none := List.getElem?_eq_none (by omega)
    rw [hIndex, copyOut, if_neg hFull, hNone] at h
    cases h

theorem putSigned_puts {zero : Bool} {width : BitVec 32} {v : BitVec 64} {p : Cursor}
    (h : zero = true → ¬((signedNumbuf v).length : Int) < width.toInt) :
    putSigned zero width v p = some (p.puts (signedNumbuf v).reverse) := by
  have hStay : (if zero then zeroFill (decide (v.toInt < 0)) width.toInt p.room (signedNumbuf v).length p
      else (((signedNumbuf v).length : Int), p)) = (((signedNumbuf v).length : Int), p) := by
    cases zero with
    | false => rfl
    | true =>
      rw [if_pos rfl]
      cases p.room with
      | zero => rfl
      | succ n => rw [zeroFill, if_neg fun hGo => h rfl hGo.1]
  rw [putSigned_eq, hStay]
  exact copyOut_all (signedNumbuf v) p

theorem putUnsigned_fills {zero : Bool} {width : BitVec 32} {numbuf : List Char} {p q : Cursor}
    (hLess : (numbuf.length : Int) < width.toInt) (h : putUnsigned zero width numbuf p = some q) :
    Fills p q := by
  rw [putUnsigned, if_pos hLess, Cursor.puts_of_le (by rw [List.length_replicate]), copyOut_of_full] at h
  · cases h
    exact ⟨by simp, by simp⟩
  · simp

theorem putUnsigned_puts {zero : Bool} {width : BitVec 32} {numbuf : List Char} {p : Cursor}
    (h : ¬(numbuf.length : Int) < width.toInt) :
    putUnsigned zero width numbuf p = some (p.puts numbuf.reverse) := by
  rw [putUnsigned, if_neg h, copyOut_all]

/-- The characters of a number in `numbuf`, from the last one on. -/
def numbuf (spec : NumberSpecifier) (n : Number) : List Char :=
  match spec with
  | .d | .i => signedNumbuf (signedValue n)
  | .u => decimalDigits (unsignedValue n)
  | .x => hexDigits digitsLower (unsignedValue n)
  | .X => hexDigits digitsUpper (unsignedValue n)

def isSigned : NumberSpecifier → Bool
  | .d | .i => true
  | _ => false

theorem reverse_numbuf {spec : NumberSpecifier} {n : Number} (h : isSigned spec = true → n.toInt ≠ -2 ^ 63) :
    (numbuf spec n).reverse = body spec n := by
  cases spec with
  | d | i =>
    rw [numbuf, reverse_signedNumbuf (by rw [toInt_signedValue]; exact h rfl), toInt_signedValue]
    rfl
  | u =>
    rw [numbuf, decimalDigits, reverse_decimal (unsignedValue n).isLt, toNat_unsignedValue]
    rfl
  | x =>
    rw [numbuf, reverse_hexDigits id (fun _ => getD_digitsLower), toNat_unsignedValue, List.map_id]
    rfl
  | X =>
    rw [numbuf, reverse_hexDigits Char.toUpper (fun _ => getD_digitsUpper), toNat_unsignedValue]
    rfl

theorem vaSigned_arg' (n : Number) (args : List VaArg) :
    vaSigned (isLongOf n.length) false (n.arg :: args) = some (signedValue n, args) := by
  cases n with
  | int v => rfl
  | long m v => cases m <;> rfl

theorem vaUnsigned_arg' (n : Number) (args : List VaArg) :
    vaUnsigned (isLongOf n.length) false (n.arg :: args) = some (unsignedValue n, args) := by
  cases n with
  | int v => rfl
  | long m v => cases m <;> rfl

def numberFills (zero : Bool) (width : Nat) (spec : NumberSpecifier) (n : Number) : Prop :=
  (zero = true ∨ isSigned spec = false) ∧ ((numbuf spec n).length : Int) < (BitVec.ofNat 32 width).toInt

def putLibcNumber (zero : Bool) (width : BitVec 32) (spec : NumberSpecifier) (n : Number) (p : Cursor) :
    Option Cursor :=
  if isSigned spec then putSigned zero width (signedValue n) p else putUnsigned zero width (numbuf spec n) p

theorem vsnprintfConversion_number (zero : Bool) (width : BitVec 32) (spec : NumberSpecifier) (n : Number)
    (args : List VaArg) (p : Cursor) :
    vsnprintfConversion zero width (isLongOf n.length) spec.char (n.arg :: args) p =
      (putLibcNumber zero width spec n p).map fun p => (args, p) := by
  cases spec <;>
    simp [vsnprintfConversion, NumberSpecifier.char, vaSigned_arg', vaUnsigned_arg', putLibcNumber, isSigned, numbuf]

theorem putLibcNumber_puts {zero : Bool} {width : Nat} {spec : NumberSpecifier} {n : Number} {p : Cursor}
    (h : ¬numberFills zero width spec n) :
    putLibcNumber zero (BitVec.ofNat 32 width) spec n p = some (p.puts (numbuf spec n).reverse) := by
  rw [putLibcNumber]
  cases hSigned : isSigned spec with
  | false => exact putUnsigned_puts fun hLess => h ⟨Or.inr hSigned, hLess⟩
  | true =>
    have hNumbuf : numbuf spec n = signedNumbuf (signedValue n) := by
      cases spec <;> first | rfl | cases hSigned
    rw [if_pos rfl, hNumbuf]
    apply putSigned_puts
    intro hZero hLess
    exact h ⟨Or.inl hZero, by rwa [hNumbuf]⟩

theorem putLibcNumber_fills {zero : Bool} {width : Nat} {spec : NumberSpecifier} {n : Number} {p q : Cursor}
    (hFills : numberFills zero width spec n)
    (h : putLibcNumber zero (BitVec.ofNat 32 width) spec n p = some q) : Fills p q := by
  obtain ⟨hPad, hLess⟩ := hFills
  rw [putLibcNumber] at h
  cases hSigned : isSigned spec with
  | false =>
    rw [hSigned] at h
    exact putUnsigned_fills hLess h
  | true =>
    have hNumbuf : numbuf spec n = signedNumbuf (signedValue n) := by
      cases spec <;> first | rfl | cases hSigned
    have hZero : zero = true := hPad.resolve_right (by rw [hSigned]; decide)
    rw [hSigned, if_pos rfl, hZero] at h
    exact putSigned_fills (by rwa [← hNumbuf]) h

def libcItem (item : Item) (p : Cursor) : Option Cursor :=
  match item with
  | .number zero width spec n => putLibcNumber zero (BitVec.ofNat 32 width) spec n p
  | item => some (p.puts item.text)

theorem vsnprintfLoop_item (item : Item) (fmt : List Char) (args : List VaArg) {p : Cursor} (hRoom : p.room ≠ 0)
    (fuel : Nat) :
    vsnprintfLoop (fuel + 1) (item.format ++ fmt) (item.args ++ args) p =
      (libcItem item p).bind (vsnprintfLoop fuel fmt args) := by
  cases item with
  | ordinary c hOrdinary =>
    change vsnprintfLoop (fuel + 1) (c :: fmt) args p = _
    rw [vsnprintfLoop, if_neg hRoom, if_pos hOrdinary.1]
    rfl
  | number zero width spec n =>
    simp only [Item.format, Item.args, List.cons_append, List.append_assoc, List.nil_append]
    rw [vsnprintfLoop_conversion (endsModifiers_char spec) _ _ _ hRoom, vsnprintfConversion_number, libcItem]
    cases putLibcNumber zero (BitVec.ofNat 32 width) spec n p with
    | none => rfl
    | some q => rfl
  | char m v =>
    simp only [Item.format, Item.args, List.cons_append, List.append_assoc, List.nil_append]
    rw [vsnprintfLoop_conversion ⟨by decide, by decide, by decide⟩ _ _ _ hRoom]
    simp [vsnprintfConversion, vaInt, hRoom, libcItem, Item.text, Cursor.puts_singleton]
  | string m s =>
    simp only [Item.format, Item.args, List.cons_append, List.append_assoc, List.nil_append]
    rw [vsnprintfLoop_conversion ⟨by decide, by decide, by decide⟩ _ _ _ hRoom]
    rfl
  | pointer m v =>
    have hLess : v.toNat < 16 ^ (15 + 1) := v.isLt.trans_le (by decide)
    have hCopy := copyOut_all (pointerDigits 16 v.toNat) ((p.put '0').put 'x')
    rw [length_pointerDigits, reverse_pointerDigits hLess] at hCopy
    simp only [Item.format, Item.args, List.cons_append, List.append_assoc, List.nil_append]
    rw [vsnprintfLoop_conversion ⟨by decide, by decide, by decide⟩ _ _ _ hRoom]
    simp [vsnprintfConversion, vaPointer, hCopy, libcItem, Item.text, Cursor.puts_cons]
  | percent m =>
    simp only [Item.format, Item.args, List.cons_append, List.append_assoc, List.nil_append]
    rw [vsnprintfLoop_conversion ⟨by decide, by decide, by decide⟩ _ _ _ hRoom]
    rfl

def libcRun : List Item → Cursor → Option Cursor
  | [], p => some p
  | item :: items, p => if p.room = 0 then some p else (libcItem item p).bind (libcRun items)

theorem vsnprintfLoop_format (items : List Item) {p : Cursor} {fuel : Nat} (h : items.length < fuel) :
    vsnprintfLoop fuel (format items) (args items) p = libcRun items p := by
  induction items generalizing p fuel with
  | nil =>
    obtain ⟨fuel, rfl⟩ : ∃ n, fuel = n + 1 := ⟨fuel - 1, by omega⟩
    rfl
  | cons item items ih =>
    rw [List.length_cons] at h
    obtain ⟨fuel, rfl⟩ : ∃ n, fuel = n + 1 := ⟨fuel - 1, by omega⟩
    rw [libcRun]
    split
    case isTrue hRoom =>
      cases hFormat : format (item :: items) with
      | nil => rfl
      | cons c fmt => rw [vsnprintfLoop, if_pos hRoom]
    case isFalse hRoom =>
      simp only [format, args, List.flatMap_cons]
      rw [vsnprintfLoop_item item _ _ hRoom]
      congr 1
      funext q
      exact ih (by omega)

/-! ### The library against the standard -/

/-- The library writes what the standard prescribes: there is nothing to pad, and the value has a negation. -/
def libcOk : Item → Prop
  | .number _ width spec n => width ≤ (body spec n).length ∧ (isSigned spec = true → n.toInt ≠ -2 ^ 63)
  | _ => True

def itemFills : Item → Prop
  | .number zero width spec n => numberFills zero width spec n
  | _ => False

def libcText : Item → List Char
  | .number _ _ spec n => (numbuf spec n).reverse
  | item => item.text

theorem libcItem_puts {item : Item} (h : ¬itemFills item) (p : Cursor) :
    libcItem item p = some (p.puts (libcText item)) := by
  cases item with
  | number zero width spec n => exact putLibcNumber_puts h
  | _ => rfl

theorem libcItem_fills {item : Item} (hFills : itemFills item) {p q : Cursor} (h : libcItem item p = some q) :
    Fills p q := by
  cases item with
  | number zero width spec n => exact putLibcNumber_fills hFills h
  | _ => cases hFills

theorem length_numbuf_min {spec : NumberSpecifier} {n : Number} (hSigned : isSigned spec = true)
    (h : n.toInt = -2 ^ 63) : (numbuf spec n).length = 2 ∧ (body spec n).length = 20 := by
  have hNumbuf : numbuf spec n = ['(', '-'] := by
    have hMin := signedNumbuf_min ((toInt_signedValue n).trans h)
    cases spec <;> first | exact hMin | cases hSigned
  have hBody : body spec n = '-' :: Nat.toDigits 10 (2 ^ 63) := by
    cases spec with
    | d | i => simp [body, NumberSpecifier.sign, NumberSpecifier.digits, h]
    | _ => cases hSigned
  rw [hNumbuf, hBody]
  decide

theorem length_libcText (item : Item) : (libcText item).length ≤ item.text.length ∧
    (¬itemFills item → (libcText item).length = item.text.length → libcOk item) := by
  cases item with
  | number zero width spec n =>
    have hText : (Item.number zero width spec n).text.length = max width (body spec n).length :=
      length_padded zero width (spec.sign n) (spec.digits n)
    rw [hText]
    simp only [libcText, List.length_reverse]
    by_cases hMin : isSigned spec = true ∧ n.toInt = -2 ^ 63
    · obtain ⟨hTwo, hTwenty⟩ := length_numbuf_min hMin.1 hMin.2
      rw [hTwo, hTwenty]
      exact ⟨by omega, fun _ hLength => by omega⟩
    · have hValue : isSigned spec = true → n.toInt ≠ -2 ^ 63 := fun hSigned hEq => hMin ⟨hSigned, hEq⟩
      have hLength := congrArg List.length (reverse_numbuf hValue)
      rw [List.length_reverse] at hLength
      rw [hLength]
      exact ⟨by omega, fun _ hSame => ⟨by omega, hValue⟩⟩
  | _ => exact ⟨Nat.le_refl _, fun _ _ => trivial⟩

theorem libcText_of_ok {item : Item} (h : libcOk item) : ¬itemFills item ∧ libcText item = item.text := by
  cases item with
  | number zero width spec n =>
    obtain ⟨hWidth, hValue⟩ := h
    have hNumbuf := reverse_numbuf hValue
    have hLength := congrArg List.length hNumbuf
    rw [List.length_reverse] at hLength
    constructor
    · rintro ⟨-, hLess⟩
      have hLe := (toInt_width width).1
      omega
    · exact hNumbuf.trans (padded_of_le hWidth).symm
  | _ => exact ⟨id, rfl⟩

theorem libcRun_of_ok {items : List Item} (h : ∀ item ∈ items, libcOk item) (p : Cursor) :
    libcRun items p = some (p.puts (text items)) := by
  induction items generalizing p with
  | nil => rfl
  | cons item items ih =>
    obtain ⟨hOk, hRest⟩ := List.forall_mem_cons.mp h
    obtain ⟨hFills, hText⟩ := libcText_of_ok hOk
    rw [libcRun]
    split
    case isTrue hFull => rw [Cursor.puts_of_full hFull]
    case isFalse hRoom =>
      rw [libcItem_puts hFills, hText, Option.bind_some, ih hRest, text, text, List.flatMap_cons,
        Cursor.puts_append]

theorem ok_of_libcRun {items : List Item} {p q : Cursor} (h : libcRun items p = some q)
    (hEnd : q.text.length + 1 = p.text.length + p.room)
    (hRoom : p.text.length + (text items).length ≤ q.text.length) :
    p.text.length + (text items).length = q.text.length ∧ ∀ item ∈ items, libcOk item := by
  induction items generalizing p with
  | nil =>
    cases h
    exact ⟨rfl, nofun⟩
  | cons item items ih =>
    have hLength : (text (item :: items)).length = item.text.length + (text items).length := by
      rw [text, List.flatMap_cons, List.length_append]
      rfl
    rw [hLength] at hRoom ⊢
    rw [libcRun, if_neg (by omega)] at h
    obtain ⟨p', hItem, hRun⟩ := Option.bind_eq_some_iff.mp h
    by_cases hFills : itemFills item
    · -- then the run ends here, at the end of the buffer
      obtain ⟨hFull, hAll⟩ := libcItem_fills hFills hItem
      have hStop : libcRun items p' = some p' := by
        cases items with
        | nil => rfl
        | cons item' items' => rw [libcRun, if_pos hFull]
      rw [hStop] at hRun
      cases hRun
      omega
    · obtain ⟨hLe, hOk⟩ := length_libcText item
      rw [libcItem_puts hFills, Cursor.puts_of_le (by omega)] at hItem
      cases hItem
      obtain ⟨hSame, hRest⟩ := ih hRun
        (by simp only [List.length_append]; omega) (by simp only [List.length_append]; omega)
      simp only [List.length_append] at hSame
      refine ⟨by omega, List.forall_mem_cons.mpr ⟨hOk hFills (by omega), hRest⟩⟩

/-- In every buffer larger than the text the library writes the text. -/
def LibraryWrites (items : List Item) : Prop :=
  ∀ str size, (text items).length < size → str + size ≤ 2 ^ 64 →
    vsnprintf str size (format items) (args items) = some (text items)

theorem vsnprintf_eq (items : List Item) {str size : Nat} (hSize : 0 < size) (hEnd : str + size ≤ 2 ^ 64) :
    vsnprintf str size (format items) (args items) = (libcRun items ⟨[], size - 1⟩).map Cursor.text := by
  have hLength := length_le_format items
  rw [vsnprintf, if_pos hSize, room_eq hSize hEnd, vsnprintfLoop_format items (by omega)]

theorem libraryWrites_iff {items : List Item} (hFits : (text items).length + 4098 ≤ 2 ^ 64) :
    LibraryWrites items ↔ ∀ item ∈ items, libcOk item := by
  constructor
  · intro hWrites
    have hHere := hWrites 4096 ((text items).length + 2) (by omega) (by omega)
    rw [vsnprintf_eq items (by omega) (by omega), Option.map_eq_some_iff] at hHere
    obtain ⟨q, hRun, hText⟩ := hHere
    exact (ok_of_libcRun hRun (by rw [hText]; simp) (by rw [hText]; simp)).2
  · intro hOk str size hSize hEnd
    rw [vsnprintf_eq items (by omega) hEnd, libcRun_of_ok hOk, Cursor.puts_of_le (by simp only; omega)]
    rfl

/-- `sprintf` writes the text, wherever the buffer is. -/
def SprintfWrites (items : List Item) : Prop :=
  ∀ str size, (text items).length < size → str + size ≤ 2 ^ 64 →
    vsprintf str (format items) (args items) = some (text items)

def silent : Item → Prop
  | .string _ s => s = some []
  | _ => False

theorem text_eq_nil_iff (item : Item) : item.text = [] ↔ silent item := by
  cases item with
  | number zero width spec n =>
    have hText : (Item.number zero width spec n).text.length = max width (body spec n).length :=
      length_padded zero width (spec.sign n) (spec.digits n)
    have hDigits : 0 < (body spec n).length := by
      have hPos : 0 < (spec.digits n).length := by
        cases spec <;> simp [NumberSpecifier.digits, Nat.length_toDigits_pos]
      rw [body, List.length_append]
      omega
    apply iff_of_false _ id
    intro hNil
    rw [hNil, List.length_nil] at hText
    omega
  | string m s =>
    cases s with
    | none => simp [Item.text, silent]
    | some s => simp [Item.text, silent]
  | _ => simp [Item.text, silent]

theorem libcOk_of_silent {item : Item} (h : silent item) : libcOk item := by
  cases item with
  | string m s => trivial
  | _ => cases h

theorem vsprintf_eq_nil {str : Nat} (hLow : 2 ≤ str) (hHigh : str < 2 ^ 64) (format : List Char)
    (args : List VaArg) : vsprintf str format args = some [] := by
  have hLast : (str + (2 ^ 64 - 1) + (2 ^ 64 - 1)) % 2 ^ 64 - str = 0 := by omega
  rw [vsprintf, vsnprintf, if_pos (by decide), hLast]
  cases format with
  | nil => rfl
  | cons c format => rfl

theorem sprintfWrites_iff {items : List Item} (hFits : (text items).length + 4098 ≤ 2 ^ 64) :
    SprintfWrites items ↔ ∀ item ∈ items, silent item := by
  have hNil : text items = [] ↔ ∀ item ∈ items, silent item := by
    rw [text, List.flatMap_eq_nil_iff]
    exact forall₂_congr fun item _ => text_eq_nil_iff item
  rw [← hNil]
  constructor
  · intro hWrites
    have hHere := hWrites 4096 ((text items).length + 1) (by omega) (by omega)
    rw [vsprintf_eq_nil (by decide) (by decide)] at hHere
    exact (Option.some.inj hHere).symm
  · intro hText str size _ _
    have hOk : ∀ item ∈ items, libcOk item := fun item hMem => libcOk_of_silent (hNil.mp hText item hMem)
    have hLength := length_le_format items
    rw [vsprintf, vsnprintf, if_pos (by decide), vsnprintfLoop_format items (by omega), libcRun_of_ok hOk, hText]
    rfl

/-- Each formatter writes the text of a format in every buffer that is larger exactly under a condition of its
own: the kernel must not pad a negative number with zeros, the library must not pad at all, and `sprintf`
must have nothing to write. -/
theorem formatted_output_iff (items : List Item) (hFits : (text items).length + 4098 ≤ 2 ^ 64) :
    (KernelWrites items ↔ ∀ item ∈ items, kernelOk item) ∧
      (LibraryWrites items ↔ ∀ item ∈ items, libcOk item) ∧
      (SprintfWrites items ↔ ∀ item ∈ items, silent item) :=
  ⟨kernelWrites_iff hFits, libraryWrites_iff hFits, sprintfWrites_iff hFits⟩

theorem formatted_output_padded :
    (text [.number true 5 .d (.int 42)]).length + 4098 ≤ 2 ^ 64 ∧
      KernelWrites [.number true 5 .d (.int 42)] ∧ ¬LibraryWrites [.number true 5 .d (.int 42)] ∧
      ¬SprintfWrites [.number true 5 .d (.int 42)] := by
  have hFits : (text [.number true 5 .d (.int 42)]).length + 4098 ≤ 2 ^ 64 := by decide
  obtain ⟨hKernel, hLibrary, hSprintf⟩ := formatted_output_iff _ hFits
  refine ⟨hFits, hKernel.mpr ?_, ?_, ?_⟩
  · intro item hMem
    rw [List.mem_singleton.mp hMem]
    exact ⟨by decide, fun _ hSign => absurd (by decide) hSign⟩
  · intro hWrites
    exact absurd (hLibrary.mp hWrites _ List.mem_cons_self).1 (by decide)
  · intro hWrites
    exact hSprintf.mp hWrites _ List.mem_cons_self

theorem zero_padded_negative :
    text [.number true 5 .d (.int (-42))] = ['-', '0', '0', '4', '2'] ∧
      kvsnprintf 4096 16 ['%', '0', '5', 'd'] [.int (-42)] = some ['0', '0', '-', '4', '2'] ∧
      vsnprintf 4096 16 ['%', '0', '5', 'd'] [.int (-42)] = some ('0' :: '0' :: '-' :: List.replicate 12 '0') ∧
      vsprintf 4096 ['%', '0', '5', 'd'] [.int (-42)] = some [] := by
  decide +kernel

end UnixOS.Libc
