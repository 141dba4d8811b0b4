import UnixOS.Lib.Numerals
import Mathlib.Data.List.TakeWhile
import Mathlib.Order.Lattice

/-! # Numbers read from text

`strtol` of `libc/src/stdlib.c`, and what C asks of it. A string is the list of its characters, and a place in it is told
by what follows there.
-/

namespace UnixOS.Libc

open Numerals

def longMax : Nat := 9223372036854775807

/-- `digit`; none for a character at which the loop stops in every base. -/
def digitOf (c : Char) : Option Nat :=
  if '0' ≤ c ∧ c ≤ '9' then some (c.toNat - '0'.toNat)
  else if 'a' ≤ c ∧ c ≤ 'z' then some (c.toNat - 'a'.toNat + 10)
  else if 'A' ≤ c ∧ c ≤ 'Z' then some (c.toNat - 'A'.toNat + 10)
  else none

/-- The loop over the digits. An overflow of `result` is undefined and has no result. -/
def convertDigits (base : Nat) : List Char → Nat → Option (Nat × List Char)
  | [], result => some (result, [])
  | c :: p, result =>
    match digitOf c with
    | none => some (result, c :: p)
    | some digit =>
      if digit ≥ base then some (result, c :: p)
      else if result * base + digit > longMax then none
      else convertDigits base p (result * base + digit)

def isBlank (c : Char) : Bool := c = ' ' ∨ c = '\t'

def takeSign (p : List Char) : Int × List Char :=
  if p.head? = some '-' then (-1, p.tail)
  else if p.head? = some '+' then (1, p.tail)
  else (1, p)

def hexMark (p : List Char) : Bool := p[0]? = some '0' ∧ (p[1]? = some 'x' ∨ p[1]? = some 'X')

def handleBase (base : Nat) (p : List Char) : Nat × List Char :=
  if base = 0 then
    if p[0]? = some '0' then
      if hexMark p then (16, p.drop 2) else (8, p.drop 1)
    else (10, p)
  else if base = 16 ∧ hexMark p then (16, p.drop 2)
  else (base, p)

/-- The number that is returned, and the text at `*endptr`. -/
def strtol (nptr : List Char) (base : Nat) : Option (Int × List Char) :=
  let (sign, p) := takeSign (nptr.dropWhile isBlank)
  let (base, p) := handleBase base p
  match convertDigits base p 0 with
  | none => none
  | some (result, p) => some (result * sign, p)

/-! ### The C rules -/

def isSpace (c : Char) : Bool := c = ' ' ∨ c = '\t' ∨ c = '\n' ∨ c = '\x0b' ∨ c = '\x0c' ∨ c = '\r'

def isDigit (base : Nat) (c : Char) : Bool := (digitOf c).any (· < base)

def number (base : Nat) (digits : List Char) : Nat := value base (fun c => (digitOf c).getD 0) digits 0

def clamp (n : Int) : Int := max (-(longMax : Int) - 1) (min n longMax)

/-- Which prefix and digits go together, and in which base the digits are read. An octal number has its prefix among its
digits. -/
inductive Marked : Nat → List Char → Nat → List Char → Prop
  | given {base : Nat} (digits : List Char) (h : base ≠ 0) : Marked base [] base digits
  | hex {base : Nat} {x : Char} (digits : List Char) (h : base = 0 ∨ base = 16) (hx : x = 'x' ∨ x = 'X') :
      Marked base ['0', x] 16 digits
  | octal (digits : List Char) : Marked 0 [] 8 ('0' :: digits)
  | decimal (digits : List Char) (h : digits[0]? ≠ some '0') : Marked 0 [] 10 digits

/-- Prefix and digits at the start of a text. -/
structure NumberAt (base : Nat) (body pre : List Char) (radix : Nat) (digits rest : List Char) : Prop where
  text : body = pre ++ (digits ++ rest)
  marked : Marked base pre radix digits
  nonempty : digits ≠ []
  digits : ∀ c ∈ digits, isDigit radix c

/-- An initial part of the string that has the form of a number, the number, and what follows the part. -/
inductive Part (base : Nat) (nptr : List Char) : Int → List Char → Prop
  | mk {spaces sign body pre digits rest : List Char} {radix : Nat} (text : nptr = spaces ++ (sign ++ body))
      (hSpaces : ∀ c ∈ spaces, isSpace c) (hSign : sign = [] ∨ sign = ['+'] ∨ sign = ['-'])
      (h : NumberAt base body pre radix digits rest) :
      Part base nptr (if sign = ['-'] then -(number radix digits : Int) else number radix digits) rest

/-- The answer that C asks for: from the longest part, or from none. -/
inductive Follows (base : Nat) (nptr : List Char) : Int × List Char → Prop
  | longest {n : Int} {rest : List Char} (h : Part base nptr n rest)
      (hLongest : ∀ n' rest', Part base nptr n' rest' → rest.length ≤ rest'.length) :
      Follows base nptr (clamp n, rest)
  | nothing (h : ∀ n rest, ¬ Part base nptr n rest) : Follows base nptr (0, nptr)

/-! ### The longest part -/

def body (nptr : List Char) : List Char := (takeSign (nptr.dropWhile isSpace)).2

def sign (nptr : List Char) : Int := (takeSign (nptr.dropWhile isSpace)).1

def hexNumber (base : Nat) (body : List Char) : Bool :=
  (base = 0 ∨ base = 16) ∧ hexMark body ∧ body[2]?.any (isDigit 16)

def radixOf (base : Nat) (body : List Char) : Nat :=
  if hexNumber base body then 16
  else if base = 0 then if body[0]? = some '0' then 8 else 10
  else base

def unmarked (base : Nat) (body : List Char) : List Char := if hexNumber base body then body.drop 2 else body

def digitsOf (base : Nat) (body : List Char) : List Char := (unmarked base body).takeWhile (isDigit (radixOf base body))

def behind (base : Nat) (body : List Char) : List Char := (unmarked base body).dropWhile (isDigit (radixOf base body))

theorem hexMark_iff (p : List Char) : hexMark p = true ↔ ∃ x t, (x = 'x' ∨ x = 'X') ∧ p = '0' :: x :: t := by
  constructor
  · intro h
    obtain ⟨h0, h1⟩ := of_decide_eq_true h
    match p with
    | [] => cases h0
    | [c] => rcases h1 with h1 | h1 <;> cases h1
    | c :: x :: t =>
      cases h0
      refine ⟨x, t, ?_, rfl⟩
      simpa using h1
  · rintro ⟨x, t, hx, rfl⟩
    simpa [hexMark] using hx

theorem hexNumber_iff (base : Nat) (body : List Char) : hexNumber base body = true ↔
    ∃ x c t, (base = 0 ∨ base = 16) ∧ (x = 'x' ∨ x = 'X') ∧ isDigit 16 c = true ∧ body = '0' :: x :: c :: t := by
  rw [hexNumber, decide_eq_true_iff, hexMark_iff]
  constructor
  · rintro ⟨hBase, ⟨x, t, hx, rfl⟩, hDigit⟩
    cases t with
    | nil => cases hDigit
    | cons c t => exact ⟨x, c, t, hBase, hx, hDigit, rfl⟩
  · rintro ⟨x, c, t, hBase, hx, hDigit, rfl⟩
    exact ⟨hBase, ⟨x, c :: t, hx, rfl⟩, hDigit⟩

theorem not_isDigit_of_mark {x : Char} (hx : x = 'x' ∨ x = 'X') {radix : Nat} (h : radix ≤ 16) : ¬ isDigit radix x := by
  have hValue : digitOf x = some 33 := by
    rcases hx with rfl | rfl <;> decide
  simp [isDigit, hValue]
  omega

namespace NumberAt

variable {base radix : Nat} {text pre digits rest : List Char}

/-- No other number at the start of the text is longer, and none of its length is another number. -/
structure IsLongest (base : Nat) (text : List Char) (radix : Nat) (digits rest : List Char) : Prop where
  nonempty : digitsOf base text ≠ []
  le : (behind base text).length ≤ rest.length
  eq : rest.length ≤ (behind base text).length →
    rest = behind base text ∧ number radix digits = number (radixOf base text) (digitsOf base text)

theorem isLongest_of_unmarked (hRadix : radixOf base text = radix) (hText : unmarked base text = digits ++ rest)
    (hNonempty : digits ≠ []) (hDigits : ∀ c ∈ digits, isDigit radix c) : IsLongest base text radix digits rest := by
  subst hRadix
  have hTake : digitsOf base text = digits ++ rest.takeWhile (isDigit (radixOf base text)) := by
    rw [digitsOf, hText, List.takeWhile_append_of_pos hDigits]
  have hDrop : behind base text = rest.dropWhile (isDigit (radixOf base text)) := by
    rw [behind, hText, List.dropWhile_append_of_pos hDigits]
  have hSplit := congrArg List.length (List.takeWhile_append_dropWhile (p := isDigit (radixOf base text)) (l := rest))
  rw [List.length_append, ← hDrop] at hSplit
  refine ⟨?_, by omega, fun hLe => ?_⟩
  · rw [hTake]
    exact List.append_ne_nil_of_left_ne_nil hNonempty _
  · have hNil : rest.takeWhile (isDigit (radixOf base text)) = [] := List.eq_nil_of_length_eq_zero (by omega)
    rw [hTake, hNil, List.append_nil, hDrop]
    refine ⟨?_, rfl⟩
    conv_lhs => rw [← List.takeWhile_append_dropWhile (p := isDigit (radixOf base text)) (l := rest), hNil]
    rfl

theorem digitsOf_of_hexNumber (hHex : hexNumber base text) : digitsOf base text ≠ [] := by
  obtain ⟨x, c, t, -, -, hDigit, rfl⟩ := (hexNumber_iff base text).mp hHex
  rw [digitsOf, unmarked, radixOf, if_pos hHex, if_pos hHex]
  change (c :: t).takeWhile (isDigit 16) ≠ []
  rw [List.takeWhile_cons_of_pos hDigit]
  exact List.cons_ne_nil _ _

theorem isLongest_of_hexNumber (hHex : hexNumber base text) (hText : text = digits ++ rest) (hNonempty : digits ≠ [])
    (hRadix : radix ≤ 16) (hDigits : ∀ c ∈ digits, isDigit radix c) : IsLongest base text radix digits rest := by
  obtain ⟨x, c, t, hBase, hx, hDigit, hEq⟩ := (hexNumber_iff base text).mp hHex
  have hRadix16 : radixOf base text = 16 := if_pos hHex
  have hUnmarked : unmarked base text = c :: t := by
    rw [unmarked, if_pos hHex, hEq]
    rfl
  have hRest : rest = x :: c :: t := by
    rw [hEq] at hText
    match digits, hNonempty with
    | [_], _ => exact (List.cons.inj hText).2.symm
    | _ :: d :: ds, _ =>
      have hd : x = d := (List.cons.inj (List.cons.inj hText).2).1
      exact absurd (hDigits x (hd ▸ by simp)) (not_isDigit_of_mark hx hRadix)
  have hShort : (behind base text).length ≤ t.length := by
    rw [behind, hUnmarked, hRadix16, List.dropWhile_cons_of_pos hDigit]
    exact (List.dropWhile_suffix _).length_le
  have hLength : rest.length = t.length + 2 := congrArg List.length hRest
  exact ⟨digitsOf_of_hexNumber hHex, by omega, by omega⟩

theorem isLongest (h : NumberAt base text pre radix digits rest) : IsLongest base text radix digits rest := by
  obtain ⟨hText, hMarked, hNonempty, hDigits⟩ := h
  by_cases hHex : hexNumber base text
  · cases hMarked with
    | hex =>
      exact isLongest_of_unmarked (if_pos hHex) (by rw [unmarked, if_pos hHex, hText]; rfl) hNonempty hDigits
    | given _ hBase =>
      have h16 : base = 16 := ((hexNumber_iff base text).mp hHex).choose_spec.choose_spec.choose_spec.1.resolve_left hBase
      exact isLongest_of_hexNumber hHex hText hNonempty (by omega) hDigits
    | octal => exact isLongest_of_hexNumber hHex hText hNonempty (by omega) hDigits
    | decimal => exact isLongest_of_hexNumber hHex hText hNonempty (by omega) hDigits
  · have hUnmarked : unmarked base text = text := if_neg hHex
    have hRadix : radixOf base text = _ := if_neg hHex
    cases hMarked with
    | hex _ hBase hx =>
      refine absurd ((hexNumber_iff base text).mpr ?_) hHex
      obtain ⟨d, ds, rfl⟩ := List.exists_cons_of_ne_nil hNonempty
      exact ⟨_, d, ds ++ rest, hBase, hx, hDigits d (List.mem_cons_self ..), hText⟩
    | given _ hBase =>
      have hPlain : unmarked base text = digits ++ rest := hUnmarked.trans hText
      rw [if_neg hBase] at hRadix
      exact isLongest_of_unmarked hRadix hPlain hNonempty hDigits
    | octal =>
      rw [if_pos rfl, if_pos (by rw [hText]; rfl)] at hRadix
      exact isLongest_of_unmarked hRadix (hUnmarked.trans hText) (List.cons_ne_nil _ _) hDigits
    | decimal _ hHead =>
      obtain ⟨d, ds, rfl⟩ := List.exists_cons_of_ne_nil hNonempty
      rw [if_pos rfl, if_neg (by rw [hText]; exact hHead)] at hRadix
      exact isLongest_of_unmarked hRadix (hUnmarked.trans hText) hNonempty hDigits

theorem of_digitsOf (h : digitsOf base text ≠ []) :
    ∃ pre, NumberAt base text pre (radixOf base text) (digitsOf base text) (behind base text) := by
  have hSplit : digitsOf base text ++ behind base text = unmarked base text := List.takeWhile_append_dropWhile
  have hDigits : ∀ c ∈ digitsOf base text, isDigit (radixOf base text) c := fun _ => List.mem_takeWhile_imp
  by_cases hHex : hexNumber base text
  · obtain ⟨x, c, t, hBase, hx, -, hEq⟩ := (hexNumber_iff base text).mp hHex
    refine ⟨['0', x], ?_, ?_, h, hDigits⟩
    · rw [hSplit, unmarked, if_pos hHex, hEq]
      rfl
    · rw [show radixOf base text = 16 from if_pos hHex]
      exact .hex _ hBase hx
  · have hUnmarked : unmarked base text = text := if_neg hHex
    refine ⟨[], (hSplit.trans hUnmarked).symm, ?_, h, hDigits⟩
    obtain ⟨d, ds, hCons⟩ := List.exists_cons_of_ne_nil h
    have hHead : text[0]? = some d := by
      rw [← hUnmarked, ← hSplit, hCons]
      rfl
    by_cases hBase : base = 0
    · subst hBase
      by_cases hZero : d = '0'
      · rw [show radixOf 0 text = 8 by rw [radixOf, if_neg hHex, if_pos rfl, if_pos (hHead.trans (congrArg some hZero))],
          hCons, hZero]
        exact .octal ds
      · rw [show radixOf 0 text = 10 by
          rw [radixOf, if_neg hHex, if_pos rfl, if_neg (by rw [hHead]; exact fun h => hZero (Option.some.inj h))], hCons]
        exact .decimal _ fun h => hZero (Option.some.inj h)
    · rw [show radixOf base text = base by rw [radixOf, if_neg hHex, if_neg hBase]]
      exact .given _ hBase

theorem head (h : NumberAt base text pre radix digits rest) : ∃ c t, text = c :: t ∧ digitOf c ≠ none := by
  obtain ⟨hText, hMarked, hNonempty, hDigits⟩ := h
  cases hMarked with
  | hex => exact ⟨'0', _, hText, by decide⟩
  | octal => exact ⟨'0', _, hText, by decide⟩
  | given | decimal =>
    obtain ⟨d, ds, rfl⟩ := List.exists_cons_of_ne_nil hNonempty
    refine ⟨d, ds ++ rest, hText, fun hNone => ?_⟩
    have hDigit := hDigits d (List.mem_cons_self ..)
    rw [isDigit, hNone] at hDigit
    cases hDigit

end NumberAt

theorem takeSign_of_ne {p : List Char} (h : ∀ c, p.head? = some c → c ≠ '+' ∧ c ≠ '-') : takeSign p = (1, p) := by
  rw [takeSign, if_neg fun hHead => (h _ hHead).2 rfl, if_neg fun hHead => (h _ hHead).1 rfl]

theorem not_isSpace_of_digitOf {c : Char} (h : digitOf c ≠ none) : ¬ isSpace c ∧ c ≠ '+' ∧ c ≠ '-' := by
  refine ⟨fun hSpace => ?_, ?_, ?_⟩
  · rcases of_decide_eq_true hSpace with rfl | rfl | rfl | rfl | rfl | rfl
    all_goals exact h (by decide)
  all_goals
    rintro rfl
    exact h (by decide)

section Part

variable {base : Nat} {nptr rest : List Char} {n : Int}

theorem Part.isLongest (h : Part base nptr n rest) : digitsOf base (body nptr) ≠ [] ∧
    (behind base (body nptr)).length ≤ rest.length ∧ (rest.length ≤ (behind base (body nptr)).length →
      rest = behind base (body nptr) ∧
        n = sign nptr * number (radixOf base (body nptr)) (digitsOf base (body nptr))) := by
  obtain @⟨spaces, sgn, text, pre, digits, rest, radix, hText, hSpaces, hSign, hNumber⟩ := h
  obtain ⟨c, t, hHead, hDigit⟩ := hNumber.head
  obtain ⟨hSpace, hPlus, hMinus⟩ := not_isSpace_of_digitOf hDigit
  have hSkip : nptr.dropWhile isSpace = sgn ++ text := by
    rw [hText, List.dropWhile_append_of_pos hSpaces]
    rcases hSign with rfl | rfl | rfl
    · rw [List.nil_append, hHead, List.dropWhile_cons_of_neg hSpace]
    · rfl
    · rfl
  have hTake : takeSign (nptr.dropWhile isSpace) = (if sgn = ['-'] then -1 else 1, text) := by
    rw [hSkip]
    rcases hSign with rfl | rfl | rfl
    · refine takeSign_of_ne fun d hd => ?_
      rw [List.nil_append, hHead] at hd
      cases hd
      exact ⟨hPlus, hMinus⟩
    · rfl
    · rfl
  have hBody : body nptr = text := congrArg Prod.snd hTake
  have hSgn : sign nptr = if sgn = ['-'] then -1 else 1 := congrArg Prod.fst hTake
  obtain ⟨hNonempty, hLe, hEq⟩ := hNumber.isLongest
  rw [hBody, hSgn]
  refine ⟨hNonempty, hLe, fun hLonger => ⟨(hEq hLonger).1, ?_⟩⟩
  rw [(hEq hLonger).2]
  split
  · rw [Int.neg_one_mul]
  · rw [Int.one_mul]

theorem part_of_digitsOf (h : digitsOf base (body nptr) ≠ []) : Part base nptr
    (sign nptr * number (radixOf base (body nptr)) (digitsOf base (body nptr))) (behind base (body nptr)) := by
  obtain ⟨pre, hNumber⟩ := NumberAt.of_digitsOf h
  have hSplit : nptr = nptr.takeWhile isSpace ++ nptr.dropWhile isSpace := List.takeWhile_append_dropWhile.symm
  have hSpaces : ∀ c ∈ nptr.takeWhile isSpace, isSpace c := fun _ => List.mem_takeWhile_imp
  -- the sign as characters
  obtain ⟨sgn, hSign, hSkip, hValue⟩ : ∃ sgn, (sgn = [] ∨ sgn = ['+'] ∨ sgn = ['-']) ∧
      nptr.dropWhile isSpace = sgn ++ body nptr ∧ sign nptr = if sgn = ['-'] then -1 else 1 := by
    rw [body, sign]
    match nptr.dropWhile isSpace with
    | [] => exact ⟨[], .inl rfl, rfl, rfl⟩
    | c :: t =>
      by_cases hMinus : c = '-'
      · subst hMinus
        exact ⟨['-'], .inr (.inr rfl), rfl, rfl⟩
      · by_cases hPlus : c = '+'
        · subst hPlus
          exact ⟨['+'], .inr (.inl rfl), rfl, rfl⟩
        · rw [takeSign_of_ne (by rintro _ ⟨⟩; exact ⟨hPlus, hMinus⟩)]
          exact ⟨[], .inl rfl, rfl, rfl⟩
  rw [hSkip] at hSplit
  convert Part.mk hSplit hSpaces hSign hNumber using 1
  rw [hValue]
  split
  · rw [Int.neg_one_mul]
  · rw [Int.one_mul]

end Part

def expected (base : Nat) (nptr : List Char) : Int × List Char :=
  if digitsOf base (body nptr) = [] then (0, nptr)
  else (clamp (sign nptr * number (radixOf base (body nptr)) (digitsOf base (body nptr))), behind base (body nptr))

theorem follows_iff (base : Nat) (nptr : List Char) (r : Int × List Char) :
    Follows base nptr r ↔ r = expected base nptr := by
  constructor
  · rintro (⟨hPart, hLongest⟩ | hNothing)
    · obtain ⟨hNonempty, -, hEq⟩ := hPart.isLongest
      obtain ⟨rfl, rfl⟩ := hEq (hLongest _ _ (part_of_digitsOf hNonempty))
      rw [expected, if_neg hNonempty]
    · rw [expected, if_pos]
      by_contra hNonempty
      exact hNothing _ _ (part_of_digitsOf hNonempty)
  · rintro rfl
    rw [expected]
    split
    case isTrue hNil => exact .nothing fun _ _ hPart => hPart.isLongest.1 hNil
    case isFalse hNonempty =>
      exact .longest (part_of_digitsOf hNonempty) fun _ _ hPart => hPart.isLongest.2.1

/-! ### The code -/

theorem convertDigits_eq {base : Nat} (hBase : 0 < base) (p : List Char) {n : Nat} (hn : n ≤ longMax) :
    convertDigits base p n =
      if value base (fun c => (digitOf c).getD 0) (p.takeWhile (isDigit base)) n ≤ longMax then
        some (value base (fun c => (digitOf c).getD 0) (p.takeWhile (isDigit base)) n, p.dropWhile (isDigit base))
      else none := by
  induction p generalizing n with
  | nil => exact (if_pos hn).symm
  | cons c p ih =>
    rw [convertDigits]
    cases hDigit : digitOf c with
    | none =>
      have hStop : ¬ isDigit base c := by simp [isDigit, hDigit]
      rw [List.takeWhile_cons_of_neg hStop, List.dropWhile_cons_of_neg hStop, value_nil, if_pos hn]
    | some d =>
      dsimp only
      by_cases hLarge : d ≥ base
      · have hStop : ¬ isDigit base c := by simpa [isDigit, hDigit] using hLarge
        rw [if_pos hLarge, List.takeWhile_cons_of_neg hStop, List.dropWhile_cons_of_neg hStop, value_nil, if_pos hn]
      · have hGo : isDigit base c := by simpa [isDigit, hDigit] using hLarge
        rw [if_neg hLarge, List.takeWhile_cons_of_pos hGo, List.dropWhile_cons_of_pos hGo, value_cons, hDigit,
          Option.getD_some]
        by_cases hOver : n * base + d > longMax
        · have hMore := le_value (fun c => (digitOf c).getD 0) hBase (p.takeWhile (isDigit base)) (n * base + d)
          rw [if_pos hOver, if_neg (by omega)]
        · rw [if_neg hOver, ih (by omega)]

def LoneMark (base : Nat) (body : List Char) : Prop :=
  (base = 0 ∨ base = 16) ∧ hexMark body ∧ ¬ hexNumber base body

/-- The condition on the text: what the code does about white space, prefixes and large numbers does not show. -/
def ReadsPlainly (base : Nat) (nptr : List Char) : Prop :=
  if digitsOf base (body nptr) = [] then ∀ c, nptr.head? = some c → ¬ isBlank c ∧ c ≠ '+' ∧ c ≠ '-'
  else (∀ c ∈ nptr.takeWhile isSpace, isBlank c) ∧ ¬ LoneMark base (body nptr) ∧
    number (radixOf base (body nptr)) (digitsOf base (body nptr)) ≤ longMax

def StrtolRight (base : Nat) (nptr : List Char) : Prop := ∃ r, strtol nptr base = some r ∧ Follows base nptr r

def converted (sign : Int) (base : Nat) (p : List Char) : Option (Int × List Char) :=
  match convertDigits (handleBase base p).1 (handleBase base p).2 0 with
  | none => none
  | some (result, p) => some (result * sign, p)

theorem strtol_eq (nptr : List Char) (base : Nat) : strtol nptr base =
    converted (takeSign (nptr.dropWhile isBlank)).1 base (takeSign (nptr.dropWhile isBlank)).2 := rfl

theorem converted_eq {base : Nat} {text : List Char} (hMark : ¬ LoneMark base text) (sgn : Int) :
    converted sgn base text = if number (radixOf base text) (digitsOf base text) ≤ longMax then
      some (number (radixOf base text) (digitsOf base text) * sgn, behind base text) else none := by
  have hRadix : 0 < radixOf base text := by
    rw [radixOf]
    split
    · decide
    · split
      · split <;> decide
      · omega
  have hConvert : convertDigits (handleBase base text).1 (handleBase base text).2 0 =
      convertDigits (radixOf base text) (unmarked base text) 0 := by
    by_cases hHex : hexNumber base text
    · obtain ⟨hBase, hx, -⟩ := of_decide_eq_true hHex
      have hZero : text[0]? = some '0' := (of_decide_eq_true hx).1
      rw [radixOf, unmarked, if_pos hHex, if_pos hHex, handleBase]
      rcases hBase with rfl | rfl
      · rw [if_pos rfl, if_pos hZero, if_pos hx]
      · rw [if_neg (by decide), if_pos ⟨rfl, hx⟩]
    · rw [radixOf, unmarked, if_neg hHex, if_neg hHex, handleBase]
      by_cases hBase : base = 0
      · rw [if_pos hBase, if_pos hBase]
        by_cases hZero : text[0]? = some '0'
        · rw [if_pos hZero, if_neg fun hx => hMark ⟨.inl hBase, hx, hHex⟩, if_pos hZero]
          -- the zero of an octal number adds nothing
          obtain ⟨t, rfl⟩ := List.head?_eq_some_iff.mp (List.head?_eq_getElem?.trans hZero)
          rfl
        · rw [if_neg hZero, if_neg hZero]
      · rw [if_neg hBase, if_neg hBase, if_neg fun h => hMark ⟨.inr h.1, h.2, hHex⟩]
  rw [converted, hConvert, convertDigits_eq hRadix _ (Nat.zero_le _), number, digitsOf, behind]
  split_ifs
  · rfl
  · rfl

theorem converted_of_loneMark {base : Nat} {text : List Char} (hMark : LoneMark base text) (sgn : Int) :
    digitsOf base text ≠ [] ∧ ∀ r, converted sgn base text = some r → r.2 ≠ behind base text := by
  obtain ⟨hBase, hx, hHex⟩ := hMark
  obtain ⟨x, t, hx', rfl⟩ := (hexMark_iff text).mp hx
  have hAt : handleBase base ('0' :: x :: t) = (16, t) := by
    rw [handleBase]
    rcases hBase with rfl | rfl
    · rw [if_pos rfl, if_pos (by rfl), if_pos hx]
      rfl
    · rw [if_neg (by decide), if_pos ⟨rfl, hx⟩]
      rfl
  have hSmall : radixOf base ('0' :: x :: t) = 8 ∨ radixOf base ('0' :: x :: t) = 16 := by
    rw [radixOf, if_neg hHex]
    rcases hBase with rfl | rfl
    · exact .inl rfl
    · exact .inr rfl
  have hZero : isDigit (radixOf base ('0' :: x :: t)) '0' := by rcases hSmall with h | h <;> rw [h] <;> rfl
  have hStop : ¬ isDigit (radixOf base ('0' :: x :: t)) x := not_isDigit_of_mark hx' (by omega)
  have hUnmarked : unmarked base ('0' :: x :: t) = '0' :: x :: t := if_neg hHex
  constructor
  · rw [digitsOf, hUnmarked, List.takeWhile_cons_of_pos hZero]
    exact List.cons_ne_nil _ _
  · intro r hRead hEnd
    rw [converted, hAt, convertDigits_eq (show 0 < 16 by decide) _ (Nat.zero_le _)] at hRead
    have hLe := List.length_dropWhile_le (isDigit 16) t
    rw [behind, hUnmarked, List.dropWhile_cons_of_pos hZero, List.dropWhile_cons_of_neg hStop] at hEnd
    split_ifs at hRead
    cases hRead
    have hLength : (t.dropWhile (isDigit 16)).length = t.length + 1 := congrArg List.length hEnd
    omega

theorem takeSign_length_le (p : List Char) : (takeSign p).2.length ≤ p.length := by
  rw [takeSign]
  split_ifs
  · exact (List.tail_suffix p).length_le
  · exact (List.tail_suffix p).length_le
  · exact Nat.le_refl _

theorem sign_eq (nptr : List Char) : sign nptr = 1 ∨ sign nptr = -1 := by
  rw [sign, takeSign]
  split_ifs
  · exact .inr rfl
  · exact .inl rfl
  · exact .inl rfl

theorem behind_length_le (base : Nat) (nptr : List Char) :
    (behind base (body nptr)).length ≤ (nptr.dropWhile isSpace).length := by
  have hBehind : (behind base (body nptr)).length ≤ (unmarked base (body nptr)).length := List.length_dropWhile_le ..
  have hUnmarked : (unmarked base (body nptr)).length ≤ (body nptr).length := by
    rw [unmarked]
    split_ifs
    · exact (List.drop_suffix 2 _).length_le
    · exact Nat.le_refl _
  exact (hBehind.trans hUnmarked).trans (takeSign_length_le _)

theorem isSpace_of_isBlank {c : Char} (h : isBlank c) : isSpace c := by
  rcases of_decide_eq_true h with rfl | rfl
  · rfl
  · rfl

theorem dropWhile_of_blank {nptr : List Char} (h : ∀ c ∈ nptr.takeWhile isSpace, isBlank c) :
    nptr.dropWhile isBlank = nptr.dropWhile isSpace := by
  induction nptr with
  | nil => rfl
  | cons c p ih =>
    by_cases hSpace : isSpace c
    · rw [List.takeWhile_cons_of_pos hSpace] at h
      rw [List.dropWhile_cons_of_pos hSpace, List.dropWhile_cons_of_pos (h c (List.mem_cons_self ..))]
      exact ih fun d hd => h d (List.mem_cons_of_mem c hd)
    · rw [List.dropWhile_cons_of_neg hSpace, List.dropWhile_cons_of_neg (mt isSpace_of_isBlank hSpace)]

theorem dropWhile_of_other {nptr : List Char} (h : ¬ ∀ c ∈ nptr.takeWhile isSpace, isBlank c) :
    ∃ w t, nptr.dropWhile isBlank = w :: t ∧ isSpace w ∧ nptr.dropWhile isSpace = t.dropWhile isSpace := by
  induction nptr with
  | nil => exact absurd (List.forall_mem_nil _) h
  | cons c p ih =>
    by_cases hSpace : isSpace c
    · rw [List.takeWhile_cons_of_pos hSpace, List.forall_mem_cons] at h
      by_cases hBlank : isBlank c
      · rw [List.dropWhile_cons_of_pos hSpace, List.dropWhile_cons_of_pos hBlank]
        exact ih fun hAll => h ⟨hBlank, hAll⟩
      · rw [List.dropWhile_cons_of_pos hSpace, List.dropWhile_cons_of_neg hBlank]
        exact ⟨c, p, rfl, hSpace, rfl⟩
    · rw [List.takeWhile_cons_of_neg hSpace] at h
      exact absurd (List.forall_mem_nil _) h

theorem strtol_of_other {nptr t : List Char} {w : Char} (h : nptr.dropWhile isBlank = w :: t) (hSpace : isSpace w)
    (base : Nat) : strtol nptr base = some (0, w :: t) := by
  have hDigit : digitOf w = none := by
    by_contra hDigit
    exact (not_isSpace_of_digitOf hDigit).1 hSpace
  have hZero : ¬ (w :: t)[0]? = some '0' := by
    rintro ⟨⟩
    cases hDigit
  have hMark : ¬ hexMark (w :: t) := fun hMark => hZero (of_decide_eq_true hMark).1
  have hSign : takeSign (w :: t) = (1, w :: t) := by
    refine takeSign_of_ne ?_
    rintro _ ⟨⟩
    constructor
    all_goals
      rintro rfl
      cases hSpace
  have hHandle : (handleBase base (w :: t)).2 = w :: t := by
    rw [handleBase, if_neg hZero]
    split_ifs with hBase hHex
    · rfl
    · exact absurd hHex.2 hMark
    · rfl
  rw [strtol_eq, h, hSign, converted, hHandle, convertDigits, hDigit]
  rfl

theorem body_eq_iff {nptr : List Char} (h : ∀ c ∈ nptr.takeWhile isSpace, isBlank c) :
    body nptr = nptr ↔ ∀ c, nptr.head? = some c → ¬ isBlank c ∧ c ≠ '+' ∧ c ≠ '-' := by
  cases nptr with
  | nil =>
    refine ⟨fun _ c hHead => ?_, fun _ => rfl⟩
    cases hHead
  | cons c p =>
    by_cases hSpace : isSpace c
    · have hBlank : isBlank c := h c (by rw [List.takeWhile_cons_of_pos hSpace]; exact List.mem_cons_self ..)
      have hLe := takeSign_length_le (p.dropWhile isSpace)
      have hLess := List.length_dropWhile_le isSpace p
      rw [body, List.dropWhile_cons_of_pos hSpace]
      constructor
      · intro hEq
        rw [hEq, List.length_cons] at hLe
        omega
      · exact fun hHead => absurd hBlank (hHead c rfl).1
    · rw [body, List.dropWhile_cons_of_neg hSpace]
      constructor
      · rintro hEq _ ⟨⟩
        refine ⟨mt isSpace_of_isBlank hSpace, ?_, ?_⟩
        all_goals
          rintro rfl
          exact List.cons_ne_self _ _ hEq.symm
      · intro hHead
        rw [takeSign_of_ne fun d hd => (hHead d hd).2]

theorem strtolRight_iff_expected (base : Nat) (nptr : List Char) :
    StrtolRight base nptr ↔ strtol nptr base = some (expected base nptr) := by
  constructor
  · rintro ⟨r, hRead, hFollows⟩
    rw [hRead, (follows_iff base nptr r).mp hFollows]
  · intro h
    exact ⟨_, h, (follows_iff base nptr _).mpr rfl⟩

theorem strtolRight_of_blank {base : Nat} {nptr : List Char} (hBlank : ∀ c ∈ nptr.takeWhile isSpace, isBlank c) :
    StrtolRight base nptr ↔ ReadsPlainly base nptr := by
  have hStrtol : strtol nptr base = converted (sign nptr) base (body nptr) := by
    rw [strtol_eq, dropWhile_of_blank hBlank]
    rfl
  rw [strtolRight_iff_expected, hStrtol, expected, ReadsPlainly]
  split
  case isTrue hNil =>
    have hHex : ¬ hexNumber base (body nptr) := fun hHex => NumberAt.digitsOf_of_hexNumber hHex hNil
    have hBehind : behind base (body nptr) = body nptr := by
      have hSplit : digitsOf base (body nptr) ++ behind base (body nptr) = unmarked base (body nptr) :=
        List.takeWhile_append_dropWhile
      rw [hNil, unmarked, if_neg hHex] at hSplit
      exact hSplit
    rw [converted_eq fun hMark => (converted_of_loneMark hMark 1).1 hNil, hNil, hBehind, ← body_eq_iff hBlank]
    change some (0 * sign nptr, body nptr) = some (0, nptr) ↔ _
    rw [Int.zero_mul, Option.some_inj, Prod.mk.injEq, and_iff_right rfl]
  case isFalse hNonempty =>
    by_cases hMark : LoneMark base (body nptr)
    · constructor
      · intro hRead
        exact absurd rfl ((converted_of_loneMark hMark (sign nptr)).2 _ hRead)
      · rintro ⟨-, hNot, -⟩
        exact absurd hMark hNot
    · rw [converted_eq hMark]
      split
      case isTrue hFits =>
        have hClamp : clamp (sign nptr * number (radixOf base (body nptr)) (digitsOf base (body nptr))) =
            number (radixOf base (body nptr)) (digitsOf base (body nptr)) * sign nptr := by
          rw [clamp]
          rcases sign_eq nptr with h | h
          · rw [h]
            omega
          · rw [h]
            omega
        rw [hClamp]
        exact ⟨fun _ => ⟨hBlank, hMark, hFits⟩, fun _ => rfl⟩
      case isFalse hOver =>
        constructor
        · intro hRead
          cases hRead
        · exact fun h => absurd h.2.2 hOver

/-- `strtol` follows the C rules exactly when blanks and tabs are the only white space in front of a number, no `0x` is
without a digit and the digits are in the range; and, where there is no number, when it has nothing to skip. -/
theorem strtol_right_iff (base : Nat) (nptr : List Char) : StrtolRight base nptr ↔ ReadsPlainly base nptr := by
  by_cases hBlank : ∀ c ∈ nptr.takeWhile isSpace, isBlank c
  · exact strtolRight_of_blank hBlank
  · obtain ⟨w, t, hStop, hSpace, hSkip⟩ := dropWhile_of_other hBlank
    rw [strtolRight_iff_expected, strtol_of_other hStop hSpace, expected, ReadsPlainly]
    split
    case isTrue hNil =>
      cases nptr with
      | nil => cases hStop
      | cons c p =>
        have hFirst : isSpace c := by
          by_contra hOther
          rw [List.takeWhile_cons_of_neg hOther] at hBlank
          exact hBlank (List.forall_mem_nil _)
        rw [Option.some_inj, Prod.mk.injEq, and_iff_right rfl, ← hStop]
        constructor
        · rintro hEq _ ⟨⟩
          refine ⟨fun h => ?_, ?_, ?_⟩
          · have hLe := List.length_dropWhile_le isBlank p
            rw [List.dropWhile_cons_of_pos h] at hEq
            rw [hEq, List.length_cons] at hLe
            omega
          all_goals
            rintro rfl
            cases hFirst
        · exact fun hHead => List.dropWhile_cons_of_neg (hHead c rfl).1
    case isFalse hNonempty =>
      constructor
      · intro hRead
        have hLe := behind_length_le base nptr
        have hLess := List.length_dropWhile_le isSpace t
        have hEnd : w :: t = behind base (body nptr) := congrArg Prod.snd (Option.some.inj hRead)
        rw [hSkip, ← hEnd, List.length_cons] at hLe
        omega
      · exact fun h => absurd h.1 hBlank

theorem bare_hex_mark_not_right : ¬ StrtolRight 16 ['0', 'x'] := by
  rw [strtolRight_iff_expected]
  decide +kernel

end UnixOS.Libc
