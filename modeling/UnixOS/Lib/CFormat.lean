import Mathlib.Algebra.GroupWithZero.Nat
import Mathlib.Data.List.Basic

/-! # Formatted output in C

Variadic arguments, a cursor into a buffer with an end, and format strings as lists of items: a character, or a
conversion together with its argument. An item determines its part of the format string, its part of the
argument list and the text it stands for. Integers are those of a machine with 64-bit `long`.
-/

namespace CFormat

inductive VaArg where
  /-- `int` and `unsigned int` -/
  | int (v : BitVec 32)
  /-- `long`, `long long` and `size_t`, signed or unsigned -/
  | long (v : BitVec 64)
  | pointer (v : BitVec 64)
  /-- A string up to its terminator, or `NULL`. -/
  | string (s : Option (List Char))

def vaInt : List VaArg → Option (BitVec 32 × List VaArg)
  | .int v :: args => some (v, args)
  | _ => none

def vaLong : List VaArg → Option (BitVec 64 × List VaArg)
  | .long v :: args => some (v, args)
  | _ => none

def vaPointer : List VaArg → Option (BitVec 64 × List VaArg)
  | .pointer v :: args => some (v, args)
  | _ => none

def vaString : List VaArg → Option (Option (List Char) × List VaArg)
  | .string s :: args => some (s, args)
  | _ => none

/-! ### Cursors -/

structure Cursor where
  text : List Char
  room : Nat
deriving DecidableEq

namespace Cursor

def put (p : Cursor) (c : Char) : Cursor := if p.room = 0 then p else ⟨p.text ++ [c], p.room - 1⟩

def puts (p : Cursor) (cs : List Char) : Cursor := cs.foldl put p

variable {p : Cursor}

@[simp] theorem puts_nil : p.puts [] = p := rfl

theorem puts_cons (c : Char) (cs : List Char) : p.puts (c :: cs) = (p.put c).puts cs := rfl

theorem puts_append (cs ds : List Char) : p.puts (cs ++ ds) = (p.puts cs).puts ds := List.foldl_append

theorem puts_singleton (c : Char) : p.puts [c] = p.put c := rfl

theorem put_of_pos (h : 0 < p.room) (c : Char) : p.put c = ⟨p.text ++ [c], p.room - 1⟩ :=
  if_neg (Nat.ne_of_gt h)

theorem put_of_full (h : p.room = 0) (c : Char) : p.put c = p := if_pos h

theorem puts_of_full (h : p.room = 0) (cs : List Char) : p.puts cs = p := by
  induction cs with
  | nil => rfl
  | cons c cs ih => rw [puts_cons, put_of_full h, ih]

theorem puts_of_le {cs : List Char} (h : cs.length ≤ p.room) :
    p.puts cs = ⟨p.text ++ cs, p.room - cs.length⟩ := by
  induction cs generalizing p with
  | nil => simp
  | cons c cs ih =>
    rw [List.length_cons] at h
    have hRest : cs.length ≤ (p.put c).room := by
      rw [put_of_pos (by omega)]
      exact Nat.le_sub_of_add_le h
    rw [puts_cons, ih hRest, put_of_pos (by omega)]
    simp only [List.append_assoc, List.singleton_append, List.length_cons, Cursor.mk.injEq, true_and]
    omega

theorem length_add_room_put (c : Char) : (p.put c).text.length + (p.put c).room = p.text.length + p.room := by
  unfold put
  split
  · rfl
  · simp only [List.length_append, List.length_singleton]
    omega

theorem room_put (c : Char) : (p.put c).room = p.room - 1 := by
  unfold put
  split
  · omega
  · rfl

theorem room_puts (cs : List Char) : (p.puts cs).room = p.room - cs.length := by
  induction cs generalizing p with
  | nil => rfl
  | cons c cs ih =>
    rw [puts_cons, ih, room_put, List.length_cons]
    omega

end Cursor

/-! ### Digits -/

def digitLoop (digit : Nat → Char) (next : Nat → Nat) : Nat → Nat → List Char
  | 0, _ => []
  | fuel + 1, n => digit n :: if next n > 0 then digitLoop digit next fuel (next n) else []

theorem reverse_digitLoop {digit : Nat → Char} {next : Nat → Nat} {b : Nat} (f : Char → Char) (hb : 1 < b)
    (hDigit : ∀ n, digit n = f (n % b).digitChar) (hNext : ∀ n, next n = n / b) {fuel n : Nat}
    (h : n < b ^ (fuel + 1)) : (digitLoop digit next (fuel + 1) n).reverse = (Nat.toDigits b n).map f := by
  induction fuel generalizing n with
  | zero =>
    rw [Nat.zero_add, Nat.pow_one] at h
    have hNone : next n = 0 := (hNext n).trans (Nat.div_eq_of_lt h)
    rw [digitLoop, if_neg (by omega), Nat.toDigits_of_lt_base h, hDigit, Nat.mod_eq_of_lt h]
    rfl
  | succ fuel ih =>
    rw [digitLoop]
    by_cases hSmall : n < b
    · have hNone : next n = 0 := (hNext n).trans (Nat.div_eq_of_lt hSmall)
      rw [if_neg (by omega), Nat.toDigits_of_lt_base hSmall, hDigit, Nat.mod_eq_of_lt hSmall]
      rfl
    · have hMore : next n > 0 := by
        rw [hNext]
        exact Nat.div_pos (by omega) (by omega)
      have hLess : next n < b ^ (fuel + 1) := by
        rw [hNext, Nat.div_lt_iff_lt_mul (by omega)]
        rw [Nat.pow_succ] at h
        exact h
      have hDigits : Nat.toDigits b n = Nat.toDigits b (n / b) ++ [(n % b).digitChar] :=
        Nat.toDigits_of_base_le hb (Nat.le_of_not_lt hSmall)
      rw [if_pos hMore, List.reverse_cons, ih hLess, hNext, hDigit, hDigits, List.map_append]
      rfl

/-! ### Format strings -/

inductive LengthModifier where
  | none
  | l
  | ll
  | z

def LengthModifier.chars : LengthModifier → List Char
  | none => []
  | l => ['l']
  | ll => ['l', 'l']
  | z => ['z']

structure Modifiers where
  zero : Bool
  width : Nat
  length : LengthModifier

def widthChars (width : Nat) : List Char := if width = 0 then [] else Nat.toDigits 10 width

def Modifiers.chars (m : Modifiers) : List Char :=
  (if m.zero then ['0'] else []) ++ widthChars m.width ++ m.length.chars

inductive NumberSpecifier where
  | d
  | i
  | u
  | x
  | X
deriving DecidableEq

def NumberSpecifier.char : NumberSpecifier → Char
  | d => 'd'
  | i => 'i'
  | u => 'u'
  | x => 'x'
  | X => 'X'

inductive LongModifier where
  | l
  | ll
  | z

def LongModifier.toLength : LongModifier → LengthModifier
  | l => .l
  | ll => .ll
  | z => .z

inductive Number where
  | int (v : BitVec 32)
  | long (m : LongModifier) (v : BitVec 64)

namespace Number

def length : Number → LengthModifier
  | int _ => .none
  | long m _ => m.toLength

def arg : Number → VaArg
  | int v => .int v
  | long _ v => .long v

def toInt : Number → Int
  | int v => v.toInt
  | long _ v => v.toInt

def toNat : Number → Nat
  | int v => v.toNat
  | long _ v => v.toNat

end Number

inductive Item where
  | ordinary (c : Char) (hOrdinary : c ≠ '%' ∧ c ≠ '\x00')
  | number (zero : Bool) (width : Nat) (spec : NumberSpecifier) (n : Number)
  | char (m : Modifiers) (v : BitVec 32)
  | string (m : Modifiers) (s : Option (List Char))
  | pointer (m : Modifiers) (v : BitVec 64)
  | percent (m : Modifiers)

/-- A sign and digits, padded to a width: with spaces in front, or with zeros behind the sign. -/
def padded (zero : Bool) (width : Nat) (sign digits : List Char) : List Char :=
  let padding := width - (sign.length + digits.length)
  if zero then sign ++ List.replicate padding '0' ++ digits else List.replicate padding ' ' ++ sign ++ digits

def NumberSpecifier.sign (spec : NumberSpecifier) (n : Number) : List Char :=
  match spec with
  | d | i => if n.toInt < 0 then ['-'] else []
  | _ => []

def NumberSpecifier.digits (spec : NumberSpecifier) (n : Number) : List Char :=
  match spec with
  | d | i => Nat.toDigits 10 n.toInt.natAbs
  | u => Nat.toDigits 10 n.toNat
  | x => Nat.toDigits 16 n.toNat
  | X => (Nat.toDigits 16 n.toNat).map Char.toUpper

namespace Item

def format : Item → List Char
  | ordinary c _ => [c]
  | number zero width spec n => '%' :: (Modifiers.chars ⟨zero, width, n.length⟩ ++ [spec.char])
  | char m _ => '%' :: (m.chars ++ ['c'])
  | string m _ => '%' :: (m.chars ++ ['s'])
  | pointer m _ => '%' :: (m.chars ++ ['p'])
  | percent m => '%' :: (m.chars ++ ['%'])

def args : Item → List VaArg
  | ordinary _ _ => []
  | number _ _ _ n => [n.arg]
  | char _ v => [.int v]
  | string _ s => [.string s]
  | pointer _ v => [.pointer v]
  | percent _ => []

/-- The text of an item: for integers what the standard prescribes; a character, a string and a pointer stand
as they are, a pointer with all its digits. -/
def text : Item → List Char
  | ordinary c _ => [c]
  | number zero width spec n => padded zero width (spec.sign n) (spec.digits n)
  | char _ v => [Char.ofNat (v.toNat % 256)]
  | string _ s => s.getD ['(', 'n', 'u', 'l', 'l', ')']
  | pointer _ v =>
    ['0', 'x'] ++ List.replicate (16 - (Nat.toDigits 16 v.toNat).length) '0' ++ Nat.toDigits 16 v.toNat
  | percent _ => ['%']

end Item

def format (items : List Item) : List Char := items.flatMap Item.format

def args (items : List Item) : List VaArg := items.flatMap Item.args

def text (items : List Item) : List Char := items.flatMap Item.text

end CFormat
