import UnixOS.Libc.StdioFormat
import UnixOS.Libc.Strtol

/-! # Formatted input of the C library

`vsscanf` of `libc/src/stdio.c`, and which texts of `vsnprintf` it reads back with the format they were written with.
-/

namespace UnixOS.Libc

open CFormat Numerals UnixOS.Printk

inductive Stored where
  | int (v : BitVec 32)
  | long (v : BitVec 64)
  | char (c : Char)
  | string (s : List Char)
deriving DecidableEq

/-- How a conversion ends. `%%` and `%n` are not counted, and an overflow of the `long` in `%d` is undefined. -/
inductive Scanned where
  | counted (v : Stored) (s : List Char)
  | passed (vs : List Stored) (s : List Char)
  | done
  | overflow

def readLengthModifier : List Char → Bool × List Char
  | 'l' :: 'l' :: format => (true, format)
  | 'l' :: format => (true, format)
  | 'h' :: 'h' :: format => (false, format)
  | 'h' :: format => (false, format)
  | format => (false, format)

def storeNumber (isLong : Bool) (val : BitVec 64) : Stored := if isLong then .long val else .int (val.setWidth 32)

/-- The digits into an `unsigned long`, which wraps around. -/
def scanUnsigned (isLong : Bool) (base : Nat) (s : List Char) : Scanned :=
  .counted (storeNumber isLong (BitVec.ofNat 64 (number base (s.takeWhile (isDigit base))))) (s.dropWhile (isDigit base))

/-- The `switch`, `pos` characters into the string. -/
def vsscanfConversion (pos : Nat) (isLong : Bool) (spec : Char) (s : List Char) : Scanned :=
  if spec = 'd' ∨ spec = 'i' then
    let (sign, s) := takeSign (s.dropWhile isSpace)
    if s.head?.any (isDigit 10) then
      match convertDigits 10 s 0 with
      | none => .overflow
      | some (val, s) => .counted (storeNumber isLong (BitVec.ofInt 64 (val * sign))) s
    else .done
  else if spec = 'u' then
    let s := s.dropWhile isSpace
    if s.head?.any (isDigit 10) then scanUnsigned isLong 10 s else .done
  else if spec = 'x' ∨ spec = 'X' then
    let s := s.dropWhile isSpace
    scanUnsigned isLong 16 (if hexMark s then s.drop 2 else s)
  else if spec = 's' then
    let s := s.dropWhile isSpace
    .counted (.string (s.takeWhile (!isSpace ·))) (s.dropWhile (!isSpace ·))
  else if spec = 'c' then
    match s with
    | [] => .done
    | c :: s => .counted (.char c) s
  else if spec = '%' then
    if s.head? = some '%' then .passed [] s.tail else .done
  else if spec = 'n' then .passed [.int (BitVec.ofNat 32 pos)] s
  else .done

/-- The loop; every round takes a character of the format. The width is read over. -/
def vsscanfLoop (len : Nat) : Nat → List Char → List Char → Option (Nat × List Stored)
  | 0, _, _ => none
  | _ + 1, [], _ => some (0, [])
  | fuel + 1, c :: format, s =>
    if s = [] then some (0, [])
    else if isSpace c then vsscanfLoop len fuel format (s.dropWhile isSpace)
    else if c ≠ '%' then
      if s.head? = some c then vsscanfLoop len fuel format s.tail else some (0, [])
    else
      let (isLong, format) := readLengthModifier (format.dropWhile (isDigit 10))
      match format with
      | [] => some (0, [])
      | spec :: format =>
        match vsscanfConversion (len - s.length) isLong spec s with
        | .counted v s => (vsscanfLoop len fuel format s).map fun (count, vs) => (count + 1, v :: vs)
        | .passed vs s => (vsscanfLoop len fuel format s).map fun (count, vs') => (count, vs ++ vs')
        | .done => some (0, [])
        | .overflow => none

/-- The count that is returned, and what is stored. -/
def vsscanf (str format : List Char) : Option (Nat × List Stored) :=
  let s := str.takeWhile (· ≠ '\x00')
  vsscanfLoop s.length (format.length + 1) format s

/-! ### What is read back -/

def baseOf : NumberSpecifier → Nat
  | .x | .X => 16
  | _ => 10

/-- With `rest` behind it the text of the item ends where the reader ends it, and the item has nothing to pad. A hexadecimal
zero in front of an `x` would be taken for a prefix. -/
def ReadsBack (rest : List Char) : Item → Prop
  | .ordinary c _ => isSpace c → ¬ rest.head?.any isSpace
  | .number zero width spec n => libcOk (.number zero width spec n) ∧ n.length ≠ .z ∧
      ¬ rest.head?.any (isDigit (baseOf spec)) ∧ (baseOf spec = 16 → ¬ rest.head?.any fun c => c = 'x' ∨ c = 'X')
  | .char m _ | .percent m => m.length ≠ .z
  | .string m (some t) => m.length ≠ .z ∧ t ≠ [] ∧ (∀ c ∈ t, ¬ isSpace c) ∧ rest.head?.all isSpace
  | .string _ none | .pointer _ _ => False

def AllReadBack : List Item → Prop
  | [] => True
  | item :: items => ReadsBack (text items) item ∧ AllReadBack items

def storedNumber : Number → Stored
  | .int v => .int v
  | .long _ v => .long v

def storedBy : Item → List Stored
  | .number _ _ _ n => [storedNumber n]
  | .char _ v => [.char (Char.ofNat (v.toNat % 256))]
  | .string _ s => [.string (s.getD [])]
  | _ => []

/-! ### Numbers -/

theorem takeWhile_append_of_head {α : Type*} {p : α → Bool} {l rest : List α} (h : ∀ c ∈ l, p c)
    (hRest : ¬ rest.head?.any p) : (l ++ rest).takeWhile p = l ∧ (l ++ rest).dropWhile p = rest := by
  rw [List.takeWhile_append_of_pos h, List.dropWhile_append_of_pos h]
  cases rest with
  | nil => exact ⟨List.append_nil l, rfl⟩
  | cons c rest =>
    have hStop : ¬ p c := hRest
    rw [List.takeWhile_cons_of_neg hStop, List.dropWhile_cons_of_neg hStop, List.append_nil]
    exact ⟨rfl, rfl⟩

theorem number_toDigits {base : Nat} (hBase : 1 < base) {f : Char → Char}
    (hf : ∀ k < base, digitOf (f k.digitChar) = some k) (n : Nat) :
    number base ((Nat.toDigits base n).map f) = n ∧ ∀ c ∈ (Nat.toDigits base n).map f, isDigit base c := by
  have hDigit : ∀ k < base, isDigit base (f k.digitChar) := fun k hk => by simp [isDigit, hf k hk, hk]
  induction n using Nat.strongRecOn with
  | ind n ih =>
    by_cases hSmall : n < base
    · rw [Nat.toDigits_of_lt_base hSmall]
      simp [number, hf n hSmall, hDigit n hSmall]
    · have hMod := Nat.mod_lt n (by omega : base > 0)
      obtain ⟨hNumber, hDigits⟩ := ih (n / base) (Nat.div_lt_self (by omega) hBase)
      rw [number, value] at hNumber
      rw [Nat.toDigits_of_base_le hBase (by omega), List.map_append, number, value, List.foldl_append, hNumber]
      refine ⟨?_, fun c hc => ?_⟩
      · rw [List.map_singleton, List.foldl_cons, List.foldl_nil, hf _ hMod, Option.getD_some, Nat.div_add_mod']
      · obtain hc | hc := List.mem_append.mp hc
        · exact hDigits c hc
        · rw [List.mem_singleton.mp hc]
          exact hDigit _ hMod

theorem digitOf_digitChar : ∀ k < 16, digitOf k.digitChar = some k ∧ digitOf k.digitChar.toUpper = some k := by
  decide

theorem digits_isDigit (spec : NumberSpecifier) (n : Number) :
    (number (baseOf spec) (spec.digits n) = if isSigned spec then n.toInt.natAbs else n.toNat) ∧
      ∀ c ∈ spec.digits n, isDigit (baseOf spec) c := by
  have hDecimal := number_toDigits (f := id) (show 1 < 10 by decide) fun k hk => (digitOf_digitChar k (by omega)).1
  simp only [List.map_id] at hDecimal
  cases spec with
  | d | i => exact hDecimal n.toInt.natAbs
  | u => exact hDecimal n.toNat
  | x =>
    have hHex := number_toDigits (f := id) (show 1 < 16 by decide) fun k hk => (digitOf_digitChar k hk).1
    simp only [List.map_id] at hHex
    exact hHex n.toNat
  | X => exact number_toDigits (by decide) (fun k hk => (digitOf_digitChar k hk).2) n.toNat

theorem storeNumber_signedValue (n : Number) : storeNumber (isLongOf n.length) (signedValue n) = storedNumber n := by
  cases n with
  | int v =>
    have hBack : (v.signExtend 64).setWidth 32 = v := by
      ext i hi
      rw [BitVec.getElem_setWidth, BitVec.getLsbD_signExtend, if_pos hi, decide_eq_true (by omega), Bool.true_and,
        BitVec.getLsbD_eq_getElem hi]
    exact congrArg Stored.int hBack
  | long m v => cases m <;> rfl

theorem storeNumber_unsignedValue (n : Number) :
    storeNumber (isLongOf n.length) (unsignedValue n) = storedNumber n := by
  cases n with
  | int v =>
    simp [storeNumber, isLongOf, Number.length, unsignedValue, storedNumber]
  | long m v => cases m <;> rfl

theorem digits_ne_nil (spec : NumberSpecifier) (n : Number) : spec.digits n ≠ [] := by
  apply List.ne_nil_of_length_pos
  cases spec <;> simp [NumberSpecifier.digits, Nat.length_toDigits_pos]

theorem digits_head {base : Nat} {ds : List Char} (hDigits : ∀ c ∈ ds, isDigit base c) (hNonempty : ds ≠ [])
    (rest : List Char) : (ds ++ rest).dropWhile isSpace = ds ++ rest ∧ takeSign (ds ++ rest) = (1, ds ++ rest) ∧
      (ds ++ rest).head?.any (isDigit base) := by
  obtain ⟨c, t, rfl⟩ := List.exists_cons_of_ne_nil hNonempty
  have hDigit := hDigits c List.mem_cons_self
  have hSome : digitOf c ≠ none := by
    intro hNone
    simp [isDigit, hNone] at hDigit
  obtain ⟨hSpace, hPlus, hMinus⟩ := not_isSpace_of_digitOf hSome
  refine ⟨List.dropWhile_cons_of_neg hSpace, takeSign_of_ne ?_, hDigit⟩
  rintro _ ⟨⟩
  exact ⟨hPlus, hMinus⟩

theorem toInt_natAbs_le (n : Number) (h : n.toInt ≠ -2 ^ 63) : n.toInt.natAbs ≤ longMax := by
  have hLow := BitVec.le_toInt (signedValue n)
  have hHigh := BitVec.toInt_lt (x := signedValue n)
  rw [toInt_signedValue] at hLow hHigh
  simp only [longMax]
  omega

theorem vsscanfConversion_signed {pos : Nat} {spec : Char} {n : Number} {rest : List Char} (hSpec : spec = 'd' ∨ spec = 'i')
    (hMin : n.toInt ≠ -2 ^ 63) (hRest : ¬ rest.head?.any (isDigit 10)) :
    vsscanfConversion pos (isLongOf n.length) spec (Printk.body .d n ++ rest) = .counted (storedNumber n) rest := by
  obtain ⟨hNumber, hDigits⟩ := digits_isDigit .d n
  obtain ⟨hSpace, hSign, hHead⟩ := @digits_head 10 _ hDigits (digits_ne_nil .d n) rest
  obtain ⟨hTake, hDrop⟩ := takeWhile_append_of_head (p := isDigit 10) hDigits hRest
  have hTaken : takeSign ((Printk.body .d n ++ rest).dropWhile isSpace) =
      (if n.toInt < 0 then -1 else 1, NumberSpecifier.d.digits n ++ rest) := by
    rw [Printk.body, NumberSpecifier.sign]
    split
    · rfl
    · rw [List.nil_append, hSpace, hSign]
  have hConvert : convertDigits 10 (NumberSpecifier.d.digits n ++ rest) 0 = some (n.toInt.natAbs, rest) := by
    have hValue : value 10 (fun c => (digitOf c).getD 0) (NumberSpecifier.d.digits n) 0 = n.toInt.natAbs := hNumber
    rw [convertDigits_eq (by decide) _ (Nat.zero_le _), hTake, hDrop, hValue, if_pos (toInt_natAbs_le n hMin)]
  have hVal : (n.toInt.natAbs : Int) * (if n.toInt < 0 then -1 else 1) = (signedValue n).toInt := by
    rw [toInt_signedValue]
    split <;> omega
  unfold vsscanfConversion
  rw [if_pos hSpec, hTaken]
  dsimp only
  rw [if_pos hHead, hConvert]
  dsimp only
  rw [hVal, BitVec.ofInt_toInt, storeNumber_signedValue]

theorem scanUnsigned_digits {spec : NumberSpecifier} (hSpec : isSigned spec = false) (n : Number) {rest : List Char}
    (hRest : ¬ rest.head?.any (isDigit (baseOf spec))) :
    scanUnsigned (isLongOf n.length) (baseOf spec) (spec.digits n ++ rest) = .counted (storedNumber n) rest := by
  obtain ⟨hNumber, hDigits⟩ := digits_isDigit spec n
  obtain ⟨hTake, hDrop⟩ := takeWhile_append_of_head hDigits hRest
  rw [if_neg (by rw [hSpec]; decide), ← toNat_unsignedValue] at hNumber
  rw [scanUnsigned, hTake, hDrop, hNumber, BitVec.ofNat_toNat, BitVec.setWidth_eq, storeNumber_unsignedValue]

theorem hexMark_digits {ds rest : List Char} (hDigits : ∀ c ∈ ds, isDigit 16 c) (hNonempty : ds ≠ [])
    (hRest : ¬ rest.head?.any fun c => c = 'x' ∨ c = 'X') : hexMark (ds ++ rest) = false := by
  rw [← Bool.not_eq_true, hexMark_iff]
  rintro ⟨x, t, hx, hText⟩
  match ds with
  | [] => exact hNonempty rfl
  | [c] =>
    obtain ⟨-, rfl⟩ := List.cons.inj hText
    exact hRest (decide_eq_true hx)
  | c :: d :: ds =>
    obtain ⟨rfl, -⟩ := List.cons.inj (List.cons.inj hText).2
    exact not_isDigit_of_mark hx (Nat.le_refl 16) (hDigits d (by simp))

theorem vsscanfConversion_unsigned {spec : NumberSpecifier} (hSpec : isSigned spec = false) (pos : Nat) (isLong : Bool)
    {s : List Char} (hSpace : s.dropWhile isSpace = s) (hHead : s.head?.any (isDigit (baseOf spec)))
    (hMark : baseOf spec = 16 → hexMark s = false) :
    vsscanfConversion pos isLong spec.char s = scanUnsigned isLong (baseOf spec) s := by
  cases spec with
  | d | i => cases hSpec
  | u => simp [vsscanfConversion, NumberSpecifier.char, hSpace, baseOf, show s.head?.any (isDigit 10) from hHead]
  | x | X => simp [vsscanfConversion, NumberSpecifier.char, hSpace, baseOf, hMark rfl]

theorem vsscanfConversion_number {pos : Nat} {zero : Bool} {width : Nat} {spec : NumberSpecifier} {n : Number}
    {rest : List Char} (h : ReadsBack rest (.number zero width spec n)) :
    vsscanfConversion pos (isLongOf n.length) spec.char ((Item.number zero width spec n).text ++ rest) =
      .counted (storedNumber n) rest := by
  obtain ⟨⟨hWidth, hMin⟩, -, hRest, hMark⟩ := h
  have hText : (Item.number zero width spec n).text = Printk.body spec n := padded_of_le hWidth
  rw [hText]
  cases hSigned : isSigned spec with
  | true =>
    cases spec with
    | d => exact vsscanfConversion_signed (Or.inl rfl) (hMin rfl) hRest
    | i => exact vsscanfConversion_signed (Or.inr rfl) (hMin rfl) hRest
    | u | x | X => cases hSigned
  | false =>
    have hBody : Printk.body spec n = spec.digits n := by
      cases spec with
      | d | i => cases hSigned
      | u | x | X => exact List.nil_append _
    obtain ⟨-, hDigits⟩ := digits_isDigit spec n
    obtain ⟨hSpace, -, hHead⟩ := digits_head hDigits (digits_ne_nil spec n) rest
    rw [hBody, vsscanfConversion_unsigned hSigned pos _ hSpace hHead fun hHex =>
      hexMark_digits (hHex ▸ hDigits) (digits_ne_nil spec n) (hMark hHex)]
    exact scanUnsigned_digits hSigned n hRest

theorem vsscanfConversion_string {pos : Nat} {isLong : Bool} {t rest : List Char} (hNonempty : t ≠ [])
    (hWord : ∀ c ∈ t, ¬ isSpace c) (hEnd : rest.head?.all isSpace) :
    vsscanfConversion pos isLong 's' (t ++ rest) = .counted (.string t) rest := by
  have hStart : (t ++ rest).dropWhile isSpace = t ++ rest := by
    obtain ⟨c, t, rfl⟩ := List.exists_cons_of_ne_nil hNonempty
    exact List.dropWhile_cons_of_neg (hWord c List.mem_cons_self)
  have hStop : ¬ rest.head?.any (!isSpace ·) := by
    cases rest with
    | nil => simp
    | cons d rest => simpa using hEnd
  obtain ⟨hTake, hDrop⟩ := takeWhile_append_of_head (l := t) (fun c hc => by simp [hWord c hc]) hStop
  simp [vsscanfConversion, hStart, hTake, hDrop]

/-! ### The loop -/

theorem readLengthModifier_chars {m : Modifiers} (hLength : m.length ≠ .z) {c : Char}
    (hc : ¬ isDigit 10 c ∧ c ≠ 'l' ∧ c ≠ 'h') (format : List Char) :
    readLengthModifier ((m.chars ++ c :: format).dropWhile (isDigit 10)) = (isLongOf m.length, c :: format) := by
  obtain ⟨hDigit, hl, hh⟩ := hc
  have hDigits : ∀ d ∈ (if m.zero then ['0'] else []) ++ widthChars m.width, isDigit 10 d := by
    intro d hd
    obtain hd | hd := List.mem_append.mp hd
    · cases hZero : m.zero with
      | false => simp [hZero] at hd
      | true =>
        simp only [hZero, if_true, List.mem_singleton] at hd
        rw [hd]
        decide
    · rw [widthChars] at hd
      split at hd
      · cases hd
      · have hAll := (number_toDigits (f := id) (show 1 < 10 by decide)
          (fun k hk => (digitOf_digitChar k (by omega)).1) m.width).2
        rw [List.map_id] at hAll
        exact hAll d hd
  rw [Modifiers.chars, List.append_assoc, List.dropWhile_append_of_pos hDigits]
  cases hChars : m.length with
  | none =>
    rw [LengthModifier.chars, List.nil_append, List.dropWhile_cons_of_neg hDigit]
    simp [readLengthModifier, hl, hh, isLongOf]
  | l =>
    change readLengthModifier ('l' :: c :: format) = _
    simp [readLengthModifier, hl, isLongOf]
  | ll => rfl
  | z => exact absurd hChars hLength

theorem vsscanfLoop_conversion {m : Modifiers} (hLength : m.length ≠ .z) {c : Char}
    (hc : ¬ isDigit 10 c ∧ c ≠ 'l' ∧ c ≠ 'h') {s : List Char} (hs : s ≠ []) (len fuel : Nat) (format : List Char) :
    vsscanfLoop len (fuel + 1) ('%' :: (m.chars ++ [c]) ++ format) s =
      match vsscanfConversion (len - s.length) (isLongOf m.length) c s with
      | .counted v s => (vsscanfLoop len fuel format s).map fun r => (r.1 + 1, v :: r.2)
      | .passed vs s => (vsscanfLoop len fuel format s).map fun r => (r.1, vs ++ r.2)
      | .done => some (0, [])
      | .overflow => none := by
  rw [List.cons_append, List.append_assoc, List.singleton_append, vsscanfLoop, if_neg hs, if_neg (by decide),
    if_neg (not_not_intro rfl), readLengthModifier_chars hLength hc]

theorem vsscanfLoop_item {rest : List Char} {item : Item} (h : ReadsBack rest item) (len fuel : Nat)
    (format : List Char) : vsscanfLoop len (fuel + 1) (item.format ++ format) (item.text ++ rest) =
      (vsscanfLoop len fuel format rest).map fun r => (r.1 + (storedBy item).length, storedBy item ++ r.2) := by
  cases item with
  | ordinary c hOrdinary =>
    change vsscanfLoop len (fuel + 1) (c :: format) (c :: rest) = (vsscanfLoop len fuel format rest).map id
    rw [vsscanfLoop, if_neg (List.cons_ne_nil _ _), Option.map_id_apply]
    split
    case isTrue hSpace =>
      have hStay : rest.dropWhile isSpace = rest :=
        (takeWhile_append_of_head (l := []) (List.forall_mem_nil _) (h hSpace)).2
      rw [List.dropWhile_cons_of_pos hSpace, hStay]
    case isFalse => rw [if_pos hOrdinary.1, List.head?_cons, if_pos rfl, List.tail_cons]
  | number zero width spec n =>
    have hSpec : ¬ isDigit 10 spec.char ∧ spec.char ≠ 'l' ∧ spec.char ≠ 'h' := by cases spec <;> decide
    have hNonempty : (Item.number zero width spec n).text ++ rest ≠ [] := by
      intro hNil
      exact (text_eq_nil_iff _).mp (List.append_eq_nil_iff.mp hNil).1
    rw [Item.format, vsscanfLoop_conversion h.2.1 hSpec hNonempty, vsscanfConversion_number h]
    rfl
  | char m v => exact vsscanfLoop_conversion h (show ¬ isDigit 10 'c' ∧ _ by decide) (List.cons_ne_nil _ _) len fuel format
  | string m s =>
    cases s with
    | none => exact h.elim
    | some t =>
      obtain ⟨hLength, hNonempty, hWord, hEnd⟩ := h
      refine (vsscanfLoop_conversion hLength (show ¬ isDigit 10 's' ∧ _ by decide)
        (List.append_ne_nil_of_left_ne_nil hNonempty rest) len fuel format).trans ?_
      rw [vsscanfConversion_string hNonempty hWord hEnd]
      rfl
  | pointer m v => exact h.elim
  | percent m => exact vsscanfLoop_conversion h (show ¬ isDigit 10 '%' ∧ _ by decide) (List.cons_ne_nil _ _) len fuel format

theorem vsscanfLoop_format {items : List Item} (h : AllReadBack items) (len : Nat) {fuel : Nat}
    (hFuel : items.length < fuel) : vsscanfLoop len fuel (format items) (text items) =
      some ((items.flatMap storedBy).length, items.flatMap storedBy) := by
  induction items generalizing fuel with
  | nil =>
    obtain ⟨fuel, rfl⟩ : ∃ n, fuel = n + 1 := ⟨fuel - 1, by omega⟩
    rfl
  | cons item items ih =>
    rw [List.length_cons] at hFuel
    obtain ⟨fuel, rfl⟩ : ∃ n, fuel = n + 1 := ⟨fuel - 1, by omega⟩
    have hItem := vsscanfLoop_item h.1 len fuel (format items)
    have hCount : (items.flatMap storedBy).length + (storedBy item).length = ((item :: items).flatMap storedBy).length := by
      rw [List.flatMap_cons, List.length_append, Nat.add_comm]
    rw [ih h.2 (by omega)] at hItem
    exact hItem.trans (congrArg some (Prod.ext hCount rfl))

/-- What `vsnprintf` wrote is read back by `vsscanf` with the same format. -/
theorem vsscanf_vsnprintf {items : List Item} (hBack : AllReadBack items) (hText : '\x00' ∉ text items) {str size : Nat}
    (hSize : (text items).length < size) (hEnd : str + size ≤ 2 ^ 64) :
    (vsnprintf str size (format items) (args items)).bind (vsscanf · (format items)) =
      some ((items.flatMap storedBy).length, items.flatMap storedBy) := by
  have hOk : ∀ items : List Item, AllReadBack items → ∀ item ∈ items, libcOk item := by
    intro items hAll item hMem
    induction items with
    | nil => cases hMem
    | cons first items ih =>
      obtain rfl | hMem := List.mem_cons.mp hMem
      · cases item with
        | number zero width spec n => exact hAll.1.1
        | _ => trivial
      · exact ih hAll.2 hMem
  have hLength := length_le_format items
  have hWhole : (text items).takeWhile (· ≠ '\x00') = text items := by
    rw [List.takeWhile_eq_self_iff]
    intro c hc
    exact decide_eq_true fun hNul => hText (hNul ▸ hc)
  rw [vsnprintf_eq items (by omega) hEnd, libcRun_of_ok (hOk items hBack), Cursor.puts_of_le (by simp only; omega),
    Option.map_some, Option.bind_some, List.nil_append, vsscanf, hWhole]
  exact vsscanfLoop_format hBack _ (by omega)

def numberAndWord : List Item := [.number false 0 .d (.int (-7)), .ordinary ' ' (by decide), .string ⟨false, 0, .none⟩ (some ['a'])]

theorem vsscanf_vsnprintf_word : (vsnprintf 4096 16 (format numberAndWord) (args numberAndWord)).bind
    (vsscanf · (format numberAndWord)) = some (2, [.int (-7), .string ['a']]) := by
  have hBack : AllReadBack numberAndWord :=
    ⟨⟨⟨by decide, by decide⟩, by rintro ⟨⟩, by decide, by decide⟩, fun _ => by decide,
      ⟨by rintro ⟨⟩, by decide, List.forall_mem_singleton.mpr (by decide), rfl⟩, trivial⟩
  exact vsscanf_vsnprintf hBack (by decide) (by decide) (by decide)

end UnixOS.Libc
