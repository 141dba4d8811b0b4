import UnixOS.Lib.CFormat
import UnixOS.Lib.RingBuffer

/-! # Kernel messages

`kvsnprintf` of `kernel/core/printk.c` and the log that `printk` keeps. A format string is the list of its
characters before the terminator. Reading arguments of another type than the conversion asks for, and reading
on behind the terminator, has no result.
-/

namespace UnixOS.Printk

open CFormat

def digitsLower : List Char := ['0', '1', '2', '3', '4', '5', '6', '7', '8', '9', 'a', 'b', 'c', 'd', 'e', 'f']
def digitsUpper : List Char := ['0', '1', '2', '3', '4', '5', '6', '7', '8', '9', 'A', 'B', 'C', 'D', 'E', 'F']

def itoaLoop (digits : List Char) (base : Nat) : Nat → Nat → List Char
  | 0, _ => []
  | fuel + 1, uval =>
    if uval ≠ 0 then digits.getD (uval % base) '\x00' :: itoaLoop digits base fuel (uval / base) else []

def itoa (val : BitVec 64) (base : Nat) (isSigned uppercase : Bool) : List Char :=
  let digits := if uppercase then digitsUpper else digitsLower
  let negative : Bool := isSigned && val.toInt < 0
  let uval := if negative then -val else val
  let buf := (if uval = 0 then ['0'] else []) ++ itoaLoop digits base 64 uval.toNat
  (if negative then buf ++ ['-'] else buf).reverse

def utoa (val : BitVec 64) (base : Nat) (uppercase : Bool) : List Char := itoa val base false uppercase

/-- `while (*fmt == '0')` -/
def skipZeros : List Char → Bool × List Char
  | c :: fmt => if c = '0' then (true, (skipZeros fmt).2) else (false, c :: fmt)
  | [] => (false, [])

/-- `while (*fmt >= '0' && *fmt <= '9')` -/
def readWidth : List Char → BitVec 32 → BitVec 32 × List Char
  | c :: fmt, width =>
    if '0' ≤ c ∧ c ≤ '9' then readWidth fmt (width * 10 + BitVec.ofNat 32 (c.toNat - '0'.toNat))
    else (width, c :: fmt)
  | [], width => (width, [])

def readLength : List Char → Bool × Bool × List Char
  | 'l' :: 'l' :: fmt => (true, true, fmt)
  | 'l' :: fmt => (true, false, fmt)
  | 'z' :: fmt => (true, false, fmt)
  | fmt => (false, false, fmt)

def vaSigned (isLong isLongLong : Bool) (args : List VaArg) : Option (BitVec 64 × List VaArg) :=
  if isLongLong then vaLong args
  else if isLong then vaLong args
  else (vaInt args).map fun (v, args) => (v.signExtend 64, args)

def vaUnsigned (isLong isLongLong : Bool) (args : List VaArg) : Option (BitVec 64 × List VaArg) :=
  if isLongLong then vaLong args
  else if isLong then vaLong args
  else (vaInt args).map fun (v, args) => (v.setWidth 64, args)

def putNumber (zeroPad : Bool) (width : BitVec 32) (numbuf : List Char) (p : Cursor) : Cursor :=
  (p.puts (List.replicate (width.toInt - numbuf.length).toNat (if zeroPad then '0' else ' '))).puts numbuf

/-- The `switch` of `kvsnprintf`. -/
def kvsnprintfConversion (zeroPad : Bool) (width : BitVec 32) (isLong isLongLong : Bool) (spec : Char)
    (args : List VaArg) (p : Cursor) : Option (List VaArg × Cursor) :=
  if spec = 'd' ∨ spec = 'i' then
    (vaSigned isLong isLongLong args).map fun (val, args) =>
      (args, putNumber zeroPad width (itoa val 10 true false) p)
  else if spec = 'u' then
    (vaUnsigned isLong isLongLong args).map fun (val, args) =>
      (args, putNumber zeroPad width (utoa val 10 false) p)
  else if spec = 'x' ∨ spec = 'X' then
    (vaUnsigned isLong isLongLong args).map fun (val, args) =>
      (args, putNumber zeroPad width (utoa val 16 (spec = 'X')) p)
  else if spec = 'p' then
    (vaPointer args).map fun (val, args) =>
      let numbuf := utoa val 16 false
      (args, (((p.put '0').put 'x').puts (List.replicate (16 - numbuf.length) '0')).puts numbuf)
  else if spec = 's' then
    (vaString args).map fun (str, args) => (args, p.puts (str.getD ['(', 'n', 'u', 'l', 'l', ')']))
  else if spec = 'c' then
    (vaInt args).map fun (v, args) => (args, p.put (Char.ofNat (v.toNat % 256)))
  else if spec = '%' then some (args, p.put '%')
  else some (args, (p.put '%').put spec)

/-- The loop of `kvsnprintf`; every round takes a character of the format. -/
def kvsnprintfLoop : Nat → List Char → List VaArg → Cursor → Option Cursor
  | 0, _, _, _ => none
  | _ + 1, [], _, p => some p
  | fuel + 1, c :: fmt, args, p =>
    if p.room = 0 then some p
    else if c ≠ '%' then kvsnprintfLoop fuel fmt args (p.put c)
    else
      let (zeroPad, fmt) := skipZeros fmt
      let (width, fmt) := readWidth fmt 0
      let (isLong, isLongLong, fmt) := readLength fmt
      match fmt with
      | [] => none
      | spec :: fmt =>
        match kvsnprintfConversion zeroPad width isLong isLongLong spec args p with
        | none => none
        | some (args, p) => kvsnprintfLoop fuel fmt args p

/-- `kvsnprintf` into `size` bytes from the address `buf` on: what is stored before the terminator. -/
def kvsnprintf (buf size : Nat) (fmt : List Char) (args : List VaArg) : Option (List Char) :=
  let last := (buf + size + (2 ^ 64 - 1)) % 2 ^ 64
  (kvsnprintfLoop (fmt.length + 1) fmt args ⟨[], last - buf⟩).map Cursor.text

/-! ### The log -/

def printkBufferSize : Nat := 1024
def printkLogBufferSize : Nat := 65536

structure Log where
  printkLogBuffer : Nat → Char
  printkLogStart : Nat
  printkLogCount : Nat

def logInit : Log := ⟨fun _ => '\x00', 0, 0⟩

def Log.append (log : Log) (c : Char) : Log :=
  let pos := (log.printkLogStart + log.printkLogCount) % printkLogBufferSize
  let buffer := Function.update log.printkLogBuffer pos c
  if log.printkLogCount < printkLogBufferSize then
    { log with printkLogBuffer := buffer, printkLogCount := log.printkLogCount + 1 }
  else
    { log with printkLogBuffer := buffer, printkLogStart := (log.printkLogStart + 1) % printkLogBufferSize }

def printkLogAppend (log : Log) (buf : List Char) : Log := buf.foldl Log.append log

def skipLevel : List Char → List Char
  | '<' :: level :: '>' :: fmt => if '0' ≤ level ∧ level ≤ '7' then fmt else '<' :: level :: '>' :: fmt
  | fmt => fmt

def printk (buffer : Nat) (log : Log) (fmt : List Char) (args : List VaArg) : Option Log :=
  (kvsnprintf buffer printkBufferSize (skipLevel fmt) args).map (printkLogAppend log)

def earlyPrintk (buffer : Nat) (log : Log) (fmt : List Char) (args : List VaArg) : Option Log :=
  (kvsnprintf buffer printkBufferSize fmt args).map (printkLogAppend log)

def printkLogSize (log : Log) : Nat := log.printkLogCount

/-- The bytes that `printk_log_read` stores; it returns their number. -/
def printkLogRead (log : Log) (offset size : Nat) : List Char :=
  if size = 0 ∨ offset ≥ log.printkLogCount then []
  else
    let available := log.printkLogCount - offset
    let size := if size > available then available else size
    (List.range size).map fun i =>
      log.printkLogBuffer ((log.printkLogStart + offset + i) % printkLogBufferSize)

end UnixOS.Printk
