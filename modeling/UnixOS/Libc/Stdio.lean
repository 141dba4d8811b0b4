import UnixOS.Core.Printk

/-! # Formatted output of the C library

`vsnprintf` and `vsprintf` of `libc/src/stdio.c`. Flags and width are read as in the kernel's formatter; the
conversions are written out anew, and so are their defects.
-/

namespace UnixOS.Libc

open CFormat UnixOS.Printk

def readIsLong : List Char → Bool × List Char
  | 'l' :: 'l' :: fmt => (true, fmt)
  | 'l' :: fmt => (true, fmt)
  | 'z' :: fmt => (true, fmt)
  | fmt => (false, fmt)

/-- The digits of `%d` in `numbuf`. The value is negative only where its negation overflowed. -/
def decimalLoop : Nat → Int → List Char
  | 0, _ => []
  | fuel + 1, val =>
    Char.ofNat (48 + val.tmod 10).toNat :: if val.tdiv 10 > 0 then decimalLoop fuel (val.tdiv 10) else []

/-- `--i` -/
def decrement (i : Int) : Int := if i = -2 ^ 31 then 2 ^ 31 - 1 else i - 1

/-- `while (i < width && p < end && zero_pad) *p++ = neg ? (--i == 0 ? '-' : '0') : '0';`
Every round takes room. -/
def zeroFill (neg : Bool) (width : Int) : Nat → Int → Cursor → Int × Cursor
  | 0, i, p => (i, p)
  | fuel + 1, i, p =>
    if i < width ∧ p.room ≠ 0 then
      if neg then
        zeroFill neg width fuel (decrement i) (p.put (if decrement i = 0 then '-' else '0'))
      else zeroFill neg width fuel i (p.put '0')
    else (i, p)

/-- `while (i > 0 && p < end) *p++ = numbuf[--i];` -/
def copyOut (numbuf : List Char) : Nat → Cursor → Option Cursor
  | 0, p => some p
  | i + 1, p =>
    if p.room = 0 then some p
    else
      match numbuf[i]? with
      | none => none
      | some c => copyOut numbuf i (p.put c)

def putSigned (zeroPad : Bool) (width : BitVec 32) (v : BitVec 64) (p : Cursor) : Option Cursor :=
  let neg : Bool := v.toInt < 0
  let val := (if neg then -v else v).toInt
  let numbuf := decimalLoop 64 val ++ if neg then ['-'] else []
  let (i, p) := if zeroPad then zeroFill neg width.toInt p.room numbuf.length p else ((numbuf.length : Int), p)
  copyOut numbuf i.toNat p

/-- `while (i < width && p < end) *p++ = zero_pad ? '0' : ' ';` and the digits in `numbuf`. The loop does
not count. -/
def putUnsigned (zeroPad : Bool) (width : BitVec 32) (numbuf : List Char) (p : Cursor) : Option Cursor :=
  let p :=
    if (numbuf.length : Int) < width.toInt then p.puts (List.replicate p.room (if zeroPad then '0' else ' ')) else p
  copyOut numbuf numbuf.length p

def decimalDigits (val : BitVec 64) : List Char :=
  digitLoop (fun v => Char.ofNat (48 + v % 10)) (· / 10) 64 val.toNat

def hexDigits (digits : List Char) (val : BitVec 64) : List Char :=
  digitLoop (fun v => digits.getD (v &&& 0xf) '\x00') (· >>> 4) 64 val.toNat

def pointerDigits : Nat → Nat → List Char
  | 0, _ => []
  | j + 1, val => digitsLower.getD (val &&& 0xf) '\x00' :: pointerDigits j (val >>> 4)

/-- The `switch` of `vsnprintf`. -/
def vsnprintfConversion (zeroPad : Bool) (width : BitVec 32) (isLong : Bool) (spec : Char)
    (args : List VaArg) (p : Cursor) : Option (List VaArg × Cursor) :=
  if spec = 'd' ∨ spec = 'i' then
    (vaSigned isLong false args).bind fun (val, args) =>
      (putSigned zeroPad width val p).map fun p => (args, p)
  else if spec = 'u' then
    (vaUnsigned isLong false args).bind fun (val, args) =>
      (putUnsigned zeroPad width (decimalDigits val) p).map fun p => (args, p)
  else if spec = 'x' ∨ spec = 'X' then
    (vaUnsigned isLong false args).bind fun (val, args) =>
      (putUnsigned zeroPad width (hexDigits (if spec = 'X' then digitsUpper else digitsLower) val) p).map
        fun p => (args, p)
  else if spec = 'p' then
    (vaPointer args).bind fun (val, args) =>
      (copyOut (pointerDigits 16 val.toNat) 16 ((p.put '0').put 'x')).map fun p => (args, p)
  else if spec = 's' then
    (vaString args).map fun (s, args) => (args, p.puts (s.getD ['(', 'n', 'u', 'l', 'l', ')']))
  else if spec = 'c' then
    -- the argument stays behind when there is no room for it, but then nothing else is read
    if p.room = 0 then some (args, p)
    else (vaInt args).map fun (v, args) => (args, p.put (Char.ofNat (v.toNat % 256)))
  else if spec = '%' then some (args, p.put '%')
  else some (args, (p.put '%').put spec)

/-- The loop of `vsnprintf`; every round takes a character of the format. -/
def vsnprintfLoop : Nat → List Char → List VaArg → Cursor → Option Cursor
  | 0, _, _, _ => none
  | _ + 1, [], _, p => some p
  | fuel + 1, c :: format, args, p =>
    if p.room = 0 then some p
    else if c ≠ '%' then vsnprintfLoop fuel format args (p.put c)
    else
      let (zeroPad, format) := skipZeros format
      let (width, format) := readWidth format 0
      let (isLong, format) := readIsLong format
      match format with
      | [] => none
      | spec :: format =>
        match vsnprintfConversion zeroPad width isLong spec args p with
        | none => none
        | some (args, p) => vsnprintfLoop fuel format args p

/-- `vsnprintf` into `size` bytes from the address `str` on: what is stored before the terminator. -/
def vsnprintf (str size : Nat) (format : List Char) (args : List VaArg) : Option (List Char) :=
  let last := if size > 0 then (str + size + (2 ^ 64 - 1)) % 2 ^ 64 else str
  (vsnprintfLoop (format.length + 1) format args ⟨[], last - str⟩).map Cursor.text

/-- `vsprintf`, and so `sprintf`. -/
def vsprintf (str : Nat) (format : List Char) (args : List VaArg) : Option (List Char) :=
  vsnprintf str (2 ^ 64 - 1) format args

end UnixOS.Libc
