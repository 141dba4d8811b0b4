import UnixOS.Core.PrintkNumbers

/-! # What `kvsnprintf` reads and writes

`kvsnprintf` of `kernel/core/printk.c` once more, over memory: the format is what stands from its address on, whatever
comes behind the terminator, and every place that is read or stored to is noted. A conversion that the terminator cuts
off is taken for one with the specifier `NUL`, and the terminator is stepped over.
-/

namespace UnixOS.Printk

open CFormat StoreLog

/-- The buffer and the position in it, the number buffer, and the places of the format that have been read. -/
structure Printing where
  buf : Buffer Char
  p : Nat
  numbuf : Buffer Char
  reads : List Nat

namespace Printing

variable (s : Printing)

def read (i : Nat) : Printing := { s with reads := i :: s.reads }

def put (last : Nat) (c : Char) : Printing :=
  if s.p < last then { s with buf := s.buf.store s.p c, p := s.p + 1 } else s

/-- `for (int i = len; i < width; i++) if (p < end) *p++ = c;` -/
def pad (last : Nat) (c : Char) : Nat → Printing → Printing
  | 0, s => s
  | k + 1, s => pad last c k (s.put last c)

/-- `for (; i < len && p < end; i++) *p++ = numbuf[i];`, with `k` characters left -/
def putNumbuf (last : Nat) (s : Printing) (i : Nat) : Nat → Printing
  | 0 => s
  | k + 1 => if s.p < last then putNumbuf last (s.put last (s.numbuf.mem i)) (i + 1) k else s

/-- `while (*str && p < end) *p++ = *str++;` -/
def putString (last : Nat) : List Char → Printing → Printing
  | [], s => s
  | c :: str, s => if s.p < last then putString last str (s.put last c) else s

def putNumber (last : Nat) (fill : Char) (width : Int) (number : Buffer Char → Buffer Char × Nat) : Printing :=
  let (numbuf, len) := number s.numbuf
  putNumbuf last (pad last fill (width - len).toNat { s with numbuf := numbuf }) 0 len

/-- The `switch`. -/
def convert (last : Nat) (zeroPad : Bool) (width : BitVec 32) (isLong isLongLong : Bool) (spec : Char)
    (args : List VaArg) : Option (List VaArg × Printing) :=
  let fill := if zeroPad then '0' else ' '
  if spec = 'd' ∨ spec = 'i' then
    (vaSigned isLong isLongLong args).map fun (val, args) =>
      (args, s.putNumber last fill width.toInt fun buf => itoaInto buf val 10 true false)
  else if spec = 'u' then
    (vaUnsigned isLong isLongLong args).map fun (val, args) =>
      (args, s.putNumber last fill width.toInt fun buf => utoaInto buf val 10 false)
  else if spec = 'x' ∨ spec = 'X' then
    (vaUnsigned isLong isLongLong args).map fun (val, args) =>
      (args, s.putNumber last fill width.toInt fun buf => utoaInto buf val 16 (spec = 'X'))
  else if spec = 'p' then
    (vaPointer args).map fun (val, args) =>
      (args, ((s.put last '0').put last 'x').putNumber last '0' 16 fun buf => utoaInto buf val 16 false)
  else if spec = 's' then
    (vaString args).map fun (str, args) => (args, putString last (str.getD ['(', 'n', 'u', 'l', 'l', ')']) s)
  else if spec = 'c' then
    (vaInt args).map fun (v, args) => (args, s.put last (Char.ofNat (v.toNat % 256)))
  else if spec = '%' then some (args, s.put last '%')
  else some (args, (s.put last '%').put last spec)

end Printing

section Reading

variable (fmt : Nat → Char)

/-- `while (*fmt == '0')` -/
def readZeros : Nat → Nat → Bool → Printing → Option (Bool × Nat × Printing)
  | 0, _, _, _ => none
  | fuel + 1, i, zeroPad, s =>
    if fmt i = '0' then readZeros fuel (i + 1) true (s.read i) else some (zeroPad, i, s.read i)

/-- `while (*fmt >= '0' && *fmt <= '9')` -/
def readDigitsOfWidth : Nat → Nat → BitVec 32 → Printing → Option (BitVec 32 × Nat × Printing)
  | 0, _, _, _ => none
  | fuel + 1, i, width, s =>
    if '0' ≤ fmt i ∧ fmt i ≤ '9' then
      readDigitsOfWidth fuel (i + 1) (width * 10 + BitVec.ofNat 32 ((fmt i).toNat - '0'.toNat)) (s.read i)
    else some (width, i, s.read i)

def readModifier (i : Nat) (s : Printing) : Bool × Bool × Nat × Printing :=
  if fmt i = 'l' then
    if fmt (i + 1) = 'l' then (true, true, i + 2, (s.read i).read (i + 1))
    else (true, false, i + 1, (s.read i).read (i + 1))
  else if fmt i = 'z' then (true, false, i + 1, s.read i)
  else (false, false, i, s.read i)

/-- The loop of `kvsnprintf`, with `fmt` at `i`. -/
def printLoop (last : Nat) : Nat → Nat → List VaArg → Printing → Option Printing
  | 0, _, _, _ => none
  | fuel + 1, i, args, s =>
    let s := s.read i
    if fmt i = '\x00' ∨ ¬ s.p < last then some s
    else if fmt i ≠ '%' then printLoop last fuel (i + 1) args (s.put last (fmt i))
    else
      match readZeros fmt fuel (i + 1) false s with
      | none => none
      | some (zeroPad, i, s) =>
        match readDigitsOfWidth fmt fuel i 0 s with
        | none => none
        | some (width, i, s) =>
          let (isLong, isLongLong, i, s) := readModifier fmt i s
          match (s.read i).convert last zeroPad width isLong isLongLong (fmt i) args with
          | none => none
          | some (args, s) => printLoop last fuel (i + 1) args s

/-- `kvsnprintf`: the state after the terminator is stored, where `p` is returned. -/
def kvsnprintfInto (fuel : Nat) (buf numbuf : Buffer Char) (size : Nat) (args : List VaArg) : Option Printing :=
  (printLoop fmt (size - 1) fuel 0 args ⟨buf, 0, numbuf, []⟩).map fun s =>
    { s with buf := s.buf.store s.p '\x00' }

end Reading

/-! ### Writing -/

namespace Printing

def cursor (s : Printing) (last : Nat) : Cursor := ⟨s.buf.text s.p, last - s.p⟩

structure Inside (s : Printing) (last : Nat) : Prop where
  position : s.p ≤ last
  buf : s.buf.Within last
  numbuf : s.numbuf.Within 32

structure Puts (last : Nat) (s s' : Printing) (cs : List Char) : Prop where
  cursor : s'.cursor last = (s.cursor last).puts cs
  reads : s'.reads = s.reads
  numbuf : s'.numbuf = s.numbuf
  inside : s.Inside last → s'.Inside last

section Puts

variable {last : Nat} {s s' s'' : Printing} {cs ds : List Char}

theorem Puts.refl (s : Printing) : Puts last s s [] := ⟨rfl, rfl, rfl, id⟩

theorem Puts.trans (h : Puts last s s' cs) (h' : Puts last s' s'' ds) : Puts last s s'' (cs ++ ds) := by
  refine ⟨?_, h'.reads.trans h.reads, h'.numbuf.trans h.numbuf, fun hInside => h'.inside (h.inside hInside)⟩
  rw [h'.cursor, h.cursor, Cursor.puts_append]

theorem puts_put (last : Nat) (s : Printing) (c : Char) : Puts last s (s.put last c) [c] := by
  unfold put
  split
  case isTrue hRoom =>
    refine ⟨?_, rfl, rfl, fun h => ⟨hRoom, h.buf.store hRoom c, h.numbuf⟩⟩
    rw [Cursor.puts_singleton, Cursor.put_of_pos (Nat.sub_pos_of_lt hRoom)]
    show Cursor.mk _ _ = Cursor.mk _ _
    rw [Buffer.text_store_self, Nat.sub_add_eq]
    rfl
  case isFalse hFull =>
    refine ⟨?_, rfl, rfl, id⟩
    rw [Cursor.puts_singleton, Cursor.put_of_full]
    exact Nat.sub_eq_zero_of_le (Nat.le_of_not_lt hFull)

theorem puts_of_full (hFull : ¬ s.p < last) (cs : List Char) : Puts last s s cs := by
  refine ⟨?_, rfl, rfl, id⟩
  rw [Cursor.puts_of_full]
  exact Nat.sub_eq_zero_of_le (Nat.le_of_not_lt hFull)

theorem puts_pad (c : Char) (k : Nat) : Puts last s (pad last c k s) (List.replicate k c) := by
  induction k generalizing s with
  | zero => exact Puts.refl s
  | succ k ih => exact (puts_put last s c).trans ih

theorem puts_putString (str : List Char) : Puts last s (putString last str s) str := by
  induction str generalizing s with
  | nil => exact Puts.refl s
  | cons c str ih =>
    unfold putString
    split
    case isTrue => exact (puts_put last s c).trans ih
    case isFalse hFull => exact puts_of_full hFull _

theorem puts_putNumbuf (i k : Nat) :
    Puts last s (putNumbuf last s i k) ((List.range' i k).map s.numbuf.mem) := by
  induction k generalizing s i with
  | zero => exact Puts.refl s
  | succ k ih =>
    rw [putNumbuf, List.range'_succ, List.map_cons]
    split
    case isTrue =>
      have hOne := puts_put last s (s.numbuf.mem i)
      have hRest := @ih (s.put last (s.numbuf.mem i)) (i + 1)
      rw [hOne.numbuf] at hRest
      exact hOne.trans hRest
    case isFalse hFull => exact puts_of_full hFull _

end Puts

structure Prints (last : Nat) (s s' : Printing) (cs : List Char) : Prop where
  cursor : s'.cursor last = (s.cursor last).puts cs
  reads : s'.reads = s.reads
  inside : s.Inside last → s'.Inside last

section Prints

variable {last : Nat} {s s' s'' : Printing} {cs ds : List Char}

theorem Puts.prints (h : Puts last s s' cs) : Prints last s s' cs := ⟨h.cursor, h.reads, h.inside⟩

theorem Prints.trans (h : Prints last s s' cs) (h' : Prints last s' s'' ds) : Prints last s s'' (cs ++ ds) := by
  refine ⟨?_, h'.reads.trans h.reads, fun hInside => h'.inside (h.inside hInside)⟩
  rw [h'.cursor, h.cursor, Cursor.puts_append]

theorem prints_putNumber (s : Printing) (fill : Char) (width : Int) (val : BitVec 64) {base : Nat} (hb : 10 ≤ base) (hLe : base ≤ 16)
    (isSigned uppercase : Bool) :
    Prints last s (s.putNumber last fill width fun buf => itoaInto buf val base isSigned uppercase)
      (List.replicate (width - (itoa val base isSigned uppercase).length).toNat fill ++ itoa val base isSigned uppercase) := by
  have hText := text_itoaInto s.numbuf val base isSigned uppercase
  have hLength := length_itoaInto s.numbuf val base isSigned uppercase
  have hShort := length_itoa_le val hb hLe isSigned uppercase
  have hWithin : s.numbuf.Within 32 → (itoaInto s.numbuf val base isSigned uppercase).1.Within 32 := fun h =>
    itoaInto_within val base isSigned uppercase h (by omega)
  rw [putNumber]
  dsimp only
  rw [hLength]
  generalize itoa val base isSigned uppercase = digits at hText hShort ⊢
  have hFill : Prints last s { s with numbuf := (itoaInto s.numbuf val base isSigned uppercase).1 } [] :=
    ⟨rfl, rfl, fun h => ⟨h.position, h.buf, hWithin h.numbuf⟩⟩
  have hPad := @puts_pad last { s with numbuf := (itoaInto s.numbuf val base isSigned uppercase).1 } fill
    (width - digits.length).toNat
  have hCopy := @puts_putNumbuf last (pad last fill (width - digits.length).toNat
    { s with numbuf := (itoaInto s.numbuf val base isSigned uppercase).1 }) 0 digits.length
  rw [hPad.numbuf, ← List.range_eq_range'] at hCopy
  change Puts last _ _ ((itoaInto s.numbuf val base isSigned uppercase).1.text digits.length) at hCopy
  rw [hText] at hCopy
  exact hFill.trans (hPad.trans hCopy).prints

end Prints

end Printing

def paddedTo (zeroPad : Bool) (width : BitVec 32) (digits : List Char) : List Char :=
  List.replicate (width.toInt - digits.length).toNat (if zeroPad then '0' else ' ') ++ digits

/-- What a conversion writes, if there is room, and the arguments that are left. -/
def conversionText (zeroPad : Bool) (width : BitVec 32) (isLong isLongLong : Bool) (spec : Char) (args : List VaArg) :
    Option (List VaArg × List Char) :=
  if spec = 'd' ∨ spec = 'i' then
    (vaSigned isLong isLongLong args).map fun (val, args) => (args, paddedTo zeroPad width (itoa val 10 true false))
  else if spec = 'u' then
    (vaUnsigned isLong isLongLong args).map fun (val, args) => (args, paddedTo zeroPad width (utoa val 10 false))
  else if spec = 'x' ∨ spec = 'X' then
    (vaUnsigned isLong isLongLong args).map fun (val, args) => (args, paddedTo zeroPad width (utoa val 16 (spec = 'X')))
  else if spec = 'p' then
    (vaPointer args).map fun (val, args) =>
      (args, ['0', 'x'] ++ (List.replicate (16 - (utoa val 16 false).length) '0' ++ utoa val 16 false))
  else if spec = 's' then
    (vaString args).map fun (str, args) => (args, str.getD ['(', 'n', 'u', 'l', 'l', ')'])
  else if spec = 'c' then
    (vaInt args).map fun (v, args) => (args, [Char.ofNat (v.toNat % 256)])
  else if spec = '%' then some (args, ['%'])
  else some (args, ['%', spec])

section Conversions

variable (zeroPad : Bool) (width : BitVec 32) (isLong isLongLong : Bool) (spec : Char) (args : List VaArg)

theorem kvsnprintfConversion_eq (p : Cursor) : kvsnprintfConversion zeroPad width isLong isLongLong spec args p =
    (conversionText zeroPad width isLong isLongLong spec args).map fun (args, cs) => (args, p.puts cs) := by
  unfold kvsnprintfConversion conversionText
  repeat' split
  all_goals
    simp only [Option.map_map, Option.map_some, puts_putNumber]
    first | rfl | exact congrArg (fun f => (vaPointer args).map f) (funext fun r => congrArg (Prod.mk _) (Cursor.puts_append _ _).symm)

theorem prints_paddedTo (last : Nat) (s : Printing) (val : BitVec 64) {base : Nat} (hb : 10 ≤ base) (hLe : base ≤ 16)
    (isSigned uppercase : Bool) :
    s.Prints last (s.putNumber last (if zeroPad then '0' else ' ') width.toInt fun buf =>
      itoaInto buf val base isSigned uppercase) (paddedTo zeroPad width (itoa val base isSigned uppercase)) :=
  Printing.prints_putNumber s _ _ val hb hLe isSigned uppercase

def Converts (last : Nat) (s : Printing) (r : Option (List VaArg × Printing)) : Option (List VaArg × List Char) → Prop
  | none => r = none
  | some (args, cs) => ∃ s', r = some (args, s') ∧ s.Prints last s' cs

theorem converts_map {α : Type} (last : Nat) (s : Printing) (o : Option (α × List VaArg)) (f : α → Printing)
    (g : α → List Char) (h : ∀ a, s.Prints last (f a) (g a)) :
    Converts last s (o.map fun r => (r.2, f r.1)) (o.map fun r => (r.2, g r.1)) := by
  cases o with
  | none => rfl
  | some r => exact ⟨f r.1, rfl, h r.1⟩

theorem convert_spec (last : Nat) (s : Printing) :
    Converts last s (s.convert last zeroPad width isLong isLongLong spec args)
      (conversionText zeroPad width isLong isLongLong spec args) := by
  unfold Printing.convert conversionText
  dsimp only
  split
  · exact converts_map last s _ _ _ fun val => prints_paddedTo _ _ last s val (by decide) (by decide) true false
  split
  · exact converts_map last s _ _ _ fun val => prints_paddedTo _ _ last s val (by decide) (by decide) false false
  split
  · exact converts_map last s _ _ _ fun val => prints_paddedTo _ _ last s val (by decide) (by decide) false _
  split
  · refine converts_map last s _ (fun val => ((s.put last '0').put last 'x').putNumber last '0' 16 fun buf =>
      utoaInto buf val 16 false) (fun val => ['0', 'x'] ++ (List.replicate (16 - (utoa val 16 false).length) '0' ++
        utoa val 16 false)) fun val => ?_
    have hPrefix := ((Printing.puts_put last s '0').trans (Printing.puts_put last _ 'x')).prints
    have hDigits := @Printing.prints_putNumber last ((s.put last '0').put last 'x') '0' 16 val 16 (by decide) (by decide)
      false false
    have hWidth : ((16 : Int) - (itoa val 16 false false).length).toNat = 16 - (itoa val 16 false false).length := by
      omega
    rw [hWidth] at hDigits
    exact hPrefix.trans hDigits
  split
  · exact converts_map last s _ (fun (str : Option (List Char)) => Printing.putString last (str.getD ['(', 'n', 'u', 'l', 'l', ')']) s)
      (fun (str : Option (List Char)) => str.getD ['(', 'n', 'u', 'l', 'l', ')']) fun str => (Printing.puts_putString _).prints
  split
  · exact converts_map last s _ (fun (v : BitVec 32) => s.put last (Char.ofNat (v.toNat % 256)))
      (fun (v : BitVec 32) => [Char.ofNat (v.toNat % 256)]) fun v => (Printing.puts_put last s _).prints
  split
  · exact ⟨_, rfl, (Printing.puts_put last s _).prints⟩
  · exact ⟨_, rfl, ((Printing.puts_put last s _).trans (Printing.puts_put last _ _)).prints⟩

end Conversions

/-! ### Reading -/

def Holds (fmt : Nat → Char) (i : Nat) : List Char → Prop
  | [] => fmt i = '\x00'
  | c :: cs => (fmt i = c ∧ c ≠ '\x00') ∧ Holds fmt (i + 1) cs

structure At (fmt : Nat → Char) (n i : Nat) (cs : List Char) : Prop where
  holds : Holds fmt i cs
  length : i + cs.length = n

structure Looks (n : Nat) (s s' : Printing) : Prop where
  same : ∃ reads, s' = { s with reads := reads ++ s.reads } ∧ ∀ i ∈ reads, i ≤ n

section Reading

variable {fmt : Nat → Char} {n i : Nat} {cs : List Char} {s s' s'' : Printing}

theorem At.le (h : At fmt n i cs) : i ≤ n := by
  have hLength := h.length
  omega

theorem At.tail {c : Char} (h : At fmt n i (c :: cs)) : At fmt n (i + 1) cs := by
  refine ⟨h.holds.2, ?_⟩
  have hLength := h.length
  rw [List.length_cons] at hLength
  omega

theorem At.head {c : Char} (h : At fmt n i (c :: cs)) : fmt i = c ∧ c ≠ '\x00' := h.holds.1

theorem At.nil (h : At fmt n i []) : fmt i = '\x00' ∧ i = n := ⟨h.holds, h.length⟩

theorem Looks.refl (n : Nat) (s : Printing) : Looks n s s := ⟨⟨[], rfl, fun _ h => absurd h List.not_mem_nil⟩⟩

theorem Looks.read (h : Looks n s s') (hi : i ≤ n) : Looks n s (s'.read i) := by
  obtain ⟨reads, rfl, hReads⟩ := h.same
  exact ⟨⟨i :: reads, rfl, List.forall_mem_cons.mpr ⟨hi, hReads⟩⟩⟩

theorem readZeros_spec {fuel : Nat} (zeroPad : Bool) (h : At fmt n i cs) (hFuel : cs.length < fuel)
    (hLooks : Looks n s'' s) : ∃ i' s', readZeros fmt fuel i zeroPad s = some (zeroPad || (skipZeros cs).1, i', s') ∧
      At fmt n i' (skipZeros cs).2 ∧ Looks n s'' s' := by
  induction fuel generalizing i cs zeroPad s with
  | zero => omega
  | succ fuel ih =>
    rw [readZeros]
    cases cs with
    | nil =>
      obtain ⟨hNul, -⟩ := h.nil
      rw [if_neg (by rw [hNul]; decide)]
      exact ⟨i, _, by rw [skipZeros, Bool.or_false], h, hLooks.read h.le⟩
    | cons c cs =>
      rw [h.head.1]
      by_cases hZero : c = '0'
      · obtain ⟨i', s', hRest, hAt, hLooks'⟩ := @ih (i + 1) cs (s.read i) true h.tail
          (by rw [List.length_cons] at hFuel; omega) (hLooks.read h.le)
        rw [if_pos hZero, hRest, skipZeros, if_pos hZero]
        exact ⟨i', s', by rw [Bool.true_or, Bool.or_true], hAt, hLooks'⟩
      · rw [if_neg hZero, skipZeros, if_neg hZero]
        exact ⟨i, _, by rw [Bool.or_false], h, hLooks.read h.le⟩

theorem readDigitsOfWidth_spec {fuel : Nat} (width : BitVec 32) (h : At fmt n i cs) (hFuel : cs.length < fuel)
    (hLooks : Looks n s'' s) : ∃ i' s', readDigitsOfWidth fmt fuel i width s = some ((readWidth cs width).1, i', s') ∧
      At fmt n i' (readWidth cs width).2 ∧ Looks n s'' s' := by
  induction fuel generalizing i cs width s with
  | zero => omega
  | succ fuel ih =>
    rw [readDigitsOfWidth]
    cases cs with
    | nil =>
      obtain ⟨hNul, -⟩ := h.nil
      rw [if_neg (by rw [hNul]; decide)]
      exact ⟨i, _, rfl, h, hLooks.read h.le⟩
    | cons c cs =>
      rw [h.head.1]
      by_cases hDigit : '0' ≤ c ∧ c ≤ '9'
      · obtain ⟨i', s', hRest, hAt, hLooks'⟩ := @ih (i + 1) cs (s.read i)
          (width * 10 + BitVec.ofNat 32 (c.toNat - '0'.toNat)) h.tail (by rw [List.length_cons] at hFuel; omega) (hLooks.read h.le)
        rw [if_pos hDigit, hRest, readWidth, if_pos hDigit]
        exact ⟨i', s', rfl, hAt, hLooks'⟩
      · rw [if_neg hDigit, readWidth, if_neg hDigit]
        exact ⟨i, _, rfl, h, hLooks.read h.le⟩

theorem length_skipZeros (cs : List Char) : (skipZeros cs).2.length ≤ cs.length := by
  induction cs with
  | nil => exact Nat.le_refl 0
  | cons c cs ih =>
    rw [skipZeros]
    split
    · exact ih.trans (Nat.le_succ _)
    · exact Nat.le_refl _

theorem length_readWidth (cs : List Char) (width : BitVec 32) : (readWidth cs width).2.length ≤ cs.length := by
  induction cs generalizing width with
  | nil => exact Nat.le_refl 0
  | cons c cs ih =>
    rw [readWidth]
    split
    · exact (ih _).trans (Nat.le_succ _)
    · exact Nat.le_refl _

theorem length_readLength (cs : List Char) : (readLength cs).2.2.length ≤ cs.length := by
  unfold readLength
  split <;> simp only [List.length_cons] <;> omega

theorem readModifier_spec (h : At fmt n i cs) (hLooks : Looks n s'' s) : ∃ i' s',
    readModifier fmt i s = ((readLength cs).1, (readLength cs).2.1, i', s') ∧ At fmt n i' (readLength cs).2.2 ∧
      Looks n s'' s' := by
  have hHere := hLooks.read h.le
  unfold readModifier
  cases cs with
  | nil =>
    obtain ⟨hNul, -⟩ := h.nil
    rw [if_neg (by rw [hNul]; decide), if_neg (by rw [hNul]; decide)]
    exact ⟨i, _, rfl, h, hHere⟩
  | cons c cs =>
    rw [h.head.1]
    by_cases hL : c = 'l'
    · rw [if_pos hL, hL]
      cases cs with
      | nil =>
        obtain ⟨hNul, -⟩ := h.tail.nil
        rw [if_neg (by rw [hNul]; decide)]
        exact ⟨i + 1, _, rfl, h.tail, hHere.read h.tail.le⟩
      | cons d cs =>
        rw [h.tail.head.1]
        by_cases hSecond : d = 'l'
        · rw [if_pos hSecond, hSecond]
          exact ⟨i + 2, _, rfl, h.tail.tail, hHere.read h.tail.le⟩
        · have hLength : readLength ('l' :: d :: cs) = (true, false, d :: cs) := by
            unfold readLength
            split
            case h_1 hEq => exact absurd (List.cons.inj (List.cons.inj hEq).2).1 hSecond
            case h_2 hEq => rw [(List.cons.inj hEq).2]
            case h_3 hEq => exact absurd (List.cons.inj hEq).1 (by decide)
            case h_4 hOther _ => exact absurd rfl (hOther _)
          rw [if_neg hSecond, hLength]
          exact ⟨i + 1, _, rfl, h.tail, hHere.read h.tail.le⟩
    · rw [if_neg hL]
      by_cases hZ : c = 'z'
      · rw [if_pos hZ, hZ]
        exact ⟨i + 1, _, rfl, h.tail, hHere⟩
      · have hLength : readLength (c :: cs) = (false, false, c :: cs) := by
          unfold readLength
          split
          case h_1 hEq => exact absurd (List.cons.inj hEq).1 hL
          case h_2 hEq => exact absurd (List.cons.inj hEq).1 hL
          case h_3 hEq => exact absurd (List.cons.inj hEq).1 hZ
          case h_4 => rfl
        rw [if_neg hZ, hLength]
        exact ⟨i, _, rfl, h, hHere⟩

theorem Looks.cursor {last : Nat} (h : Looks n s s') : s'.cursor last = s.cursor last := by
  obtain ⟨reads, rfl, -⟩ := h.same
  rfl

theorem Looks.inside {last : Nat} (h : Looks n s s') (hInside : s.Inside last) : s'.Inside last := by
  obtain ⟨reads, rfl, -⟩ := h.same
  exact ⟨hInside.position, hInside.buf, hInside.numbuf⟩

theorem Looks.reads_le (h : Looks n s s') (hReads : ∀ k ∈ s.reads, k ≤ n) : ∀ k ∈ s'.reads, k ≤ n := by
  obtain ⟨reads, rfl, hNew⟩ := h.same
  exact List.forall_mem_append.mpr ⟨hNew, hReads⟩

end Reading

/-! ### Formats -/

/-- Whether the format ends behind a conversion, and the text of what comes before a conversion that is cut off; with
arguments of the types that the conversions ask for. -/
def describe : Nat → List Char → List VaArg → Option (Bool × List Char)
  | 0, _, _ => none
  | _ + 1, [], _ => some (true, [])
  | fuel + 1, c :: fmt, args =>
    if c ≠ '%' then (describe fuel fmt args).map fun d => (d.1, c :: d.2)
    else
      let (zeroPad, fmt) := skipZeros fmt
      let (width, fmt) := readWidth fmt 0
      let (isLong, isLongLong, fmt) := readLength fmt
      match fmt with
      | [] => some (false, [])
      | spec :: fmt =>
        match conversionText zeroPad width isLong isLongLong spec args with
        | none => none
        | some (args, cs) => (describe fuel fmt args).map fun d => (d.1, cs ++ d.2)

def behindModifiers (fmt : List Char) : List Char := (readLength (readWidth (skipZeros fmt).2 0).2).2.2

def conversionOf (fmt : List Char) (spec : Char) (args : List VaArg) : Option (List VaArg × List Char) :=
  conversionText (skipZeros fmt).1 (readWidth (skipZeros fmt).2 0).1 (readLength (readWidth (skipZeros fmt).2 0).2).1
    (readLength (readWidth (skipZeros fmt).2 0).2).2.1 spec args

theorem length_behindModifiers (fmt : List Char) : (behindModifiers fmt).length ≤ fmt.length :=
  (length_readLength _).trans ((length_readWidth _ _).trans (length_skipZeros fmt))

section Rounds

variable {fmt : Nat → Char} {n i last fuel : Nat} {cs : List Char} {s : Printing}

theorem printLoop_conversion (args : List VaArg) (h : At fmt n i ('%' :: cs)) (hRoom : s.p < last) (hFuel : cs.length < fuel) :
    ∃ i' s' r, At fmt n i' (behindModifiers cs) ∧ Looks n s s' ∧
      Converts last s' r (conversionOf cs (fmt i') args) ∧
      printLoop fmt last (fuel + 1) i args s =
        r.bind fun r => printLoop fmt last fuel (i' + 1) r.1 r.2 := by
  have hStart := (Looks.refl n s).read h.le
  obtain ⟨i₁, s₁, hZeros, hAt₁, hLooks₁⟩ := readZeros_spec false h.tail hFuel hStart
  have hLength₁ := length_skipZeros cs
  obtain ⟨i₂, s₂, hWidth, hAt₂, hLooks₂⟩ := readDigitsOfWidth_spec 0 hAt₁ (by omega : _ < fuel) hLooks₁
  obtain ⟨i₃, s₃, hModifier, hAt₃, hLooks₃⟩ := readModifier_spec hAt₂ hLooks₂
  refine ⟨i₃, s₃.read i₃, _, hAt₃, hLooks₃.read hAt₃.le, convert_spec _ _ _ _ _ _ last _, ?_⟩
  rw [printLoop]
  dsimp only
  rw [h.head.1, if_neg (by simp [Printing.read, hRoom]), if_neg (not_not_intro rfl), hZeros]
  dsimp only
  rw [hWidth]
  dsimp only
  rw [hModifier]
  dsimp only
  rw [Bool.false_or]
  cases (s₃.read i₃).convert last (skipZeros cs).1 (readWidth (skipZeros cs).2 0).1
    (readLength (readWidth (skipZeros cs).2 0).2).1 (readLength (readWidth (skipZeros cs).2 0).2).2.1 (fmt i₃) args with
  | none => rfl
  | some r => rfl

end Rounds

theorem describe_percent (fuel : Nat) (cs : List Char) (args : List VaArg) : describe (fuel + 1) ('%' :: cs) args =
    match behindModifiers cs with
    | [] => some (false, [])
    | spec :: fmt =>
      match conversionOf cs spec args with
      | none => none
      | some (args, text) => (describe fuel fmt args).map fun d => (d.1, text ++ d.2) := by
  rw [describe, if_neg (not_not_intro rfl)]
  rfl

theorem kvsnprintfLoop_percent (fuel : Nat) (cs : List Char) (args : List VaArg) {p : Cursor} (hRoom : p.room ≠ 0) :
    kvsnprintfLoop (fuel + 1) ('%' :: cs) args p =
      match behindModifiers cs with
      | [] => none
      | spec :: fmt =>
        match conversionOf cs spec args with
        | none => none
        | some (args, text) => kvsnprintfLoop fuel fmt args (p.puts text) := by
  rw [kvsnprintfLoop, if_neg hRoom, if_neg (not_not_intro rfl)]
  dsimp only
  show (match behindModifiers cs with | [] => none | spec :: fmt => _) = _
  cases behindModifiers cs with
  | nil => rfl
  | cons spec fmt =>
    dsimp only
    rw [kvsnprintfConversion_eq]
    unfold conversionOf
    generalize conversionText (skipZeros cs).1 _ _ _ spec args = o
    cases o with
    | none => rfl
    | some r => rfl

/-- Nothing was read behind the terminator at `n`, nor stored where it may not be. -/
structure Clean (n last : Nat) (s : Printing) : Prop where
  reads : ∀ k ∈ s.reads, k ≤ n
  inside : s.Inside last

section Runs

variable {fmt : Nat → Char} {n last : Nat}

/-- Unless a conversion that is cut off is reached with room left, the loop ends as the list model says. -/
theorem printLoop_clean {g : Nat} {cs : List Char} {args : List VaArg} {finished : Bool} {text : List Char}
    {i : Nat} {s : Printing} {fuel : Nat} (hDescribe : describe g cs args = some (finished, text)) (hAt : At fmt n i cs)
    (hCondition : finished = true ∨ last - s.p ≤ text.length) (hClean : Clean n last s) (hFuel : cs.length + 1 < fuel) :
    ∃ r, printLoop fmt last fuel i args s = some r ∧ Clean n last r ∧
      kvsnprintfLoop g cs args (s.cursor last) = some (r.cursor last) := by
  induction g generalizing cs args text i s fuel with
  | zero => cases hDescribe
  | succ g ih =>
    obtain ⟨fuel, rfl⟩ : ∃ k, fuel = k + 1 := ⟨fuel - 1, by omega⟩
    have hRead : Clean n last (s.read i) :=
      ⟨List.forall_mem_cons.mpr ⟨hAt.le, hClean.reads⟩, hClean.inside.position, hClean.inside.buf, hClean.inside.numbuf⟩
    by_cases hRoom : s.p < last
    case neg =>
      have hFull : (s.cursor last).room = 0 := Nat.sub_eq_zero_of_le (Nat.le_of_not_lt hRoom)
      refine ⟨s.read i, if_pos (Or.inr hRoom), hRead, ?_⟩
      cases cs with
      | nil => rfl
      | cons c cs =>
        rw [kvsnprintfLoop, if_pos hFull]
        rfl
    have hPlace : (s.cursor last).room ≠ 0 := Nat.sub_ne_zero_of_lt hRoom
    cases cs with
    | nil => exact ⟨s.read i, if_pos (Or.inl hAt.nil.1), hRead, rfl⟩
    | cons c cs =>
      rw [List.length_cons] at hFuel
      by_cases hPercent : c = '%'
      · subst hPercent
        obtain ⟨i', s', r, hAt', hLooks, hConverts, hLoop⟩ := printLoop_conversion args hAt hRoom
          (by omega : cs.length < fuel)
        rw [describe_percent] at hDescribe
        rw [kvsnprintfLoop_percent g cs args hPlace, hLoop]
        have hLength := length_behindModifiers cs
        cases hBehind : behindModifiers cs with
        | nil =>
          rw [hBehind] at hDescribe
          cases hDescribe
          rcases hCondition with hFinished | hShort
          · cases hFinished
          · rw [List.length_nil] at hShort
            omega
        | cons spec rest =>
          rw [hBehind] at hDescribe hAt' hLength
          rw [hAt'.head.1] at hConverts
          dsimp only at hDescribe ⊢
          cases hConversion : conversionOf cs spec args with
          | none =>
            rw [hConversion] at hDescribe
            cases hDescribe
          | some result =>
            obtain ⟨args', written⟩ := result
            rw [hConversion] at hDescribe hConverts
            dsimp only at hDescribe ⊢
            obtain ⟨s'', rfl, hPrints⟩ := hConverts
            obtain ⟨d, hRest, hText⟩ := Option.map_eq_some_iff.mp hDescribe
            obtain ⟨rfl, rfl⟩ := Prod.mk.inj hText
            have hCursor : s''.cursor last = (s.cursor last).puts written := by rw [hPrints.cursor, hLooks.cursor]
            have hPosition : last - s''.p = last - s.p - written.length :=
              (congrArg Cursor.room hCursor).trans (Cursor.room_puts written)
            rw [List.length_append] at hCondition
            rw [List.length_cons] at hLength
            have hClean' : Clean n last s'' := by
              refine ⟨?_, hPrints.inside (hLooks.inside hClean.inside)⟩
              rw [hPrints.reads]
              exact hLooks.reads_le hClean.reads
            have hShorter : d.1 = true ∨ last - s''.p ≤ d.2.length := by
              rcases hCondition with hFinished | hShort
              · exact Or.inl hFinished
              · exact Or.inr (by omega)
            rw [← hCursor]
            exact ih hRest hAt'.tail hShorter hClean' (by omega)
      · rw [describe, if_pos hPercent] at hDescribe
        obtain ⟨d, hRest, hText⟩ := Option.map_eq_some_iff.mp hDescribe
        obtain ⟨rfl, rfl⟩ := Prod.mk.inj hText
        have hPut := Printing.puts_put last (s.read i) c
        have hCursor : ((s.read i).put last c).cursor last = (s.cursor last).put c := hPut.cursor
        have hPosition : last - ((s.read i).put last c).p = last - s.p - 1 :=
          (congrArg Cursor.room hCursor).trans (Cursor.room_put c)
        have hNotEnd : ¬ (fmt i = '\x00' ∨ ¬ (s.read i).p < last) := by
          rw [hAt.head.1]
          exact not_or.mpr ⟨hAt.head.2, not_not_intro hRoom⟩
        have hClean' : Clean n last ((s.read i).put last c) := by
          refine ⟨?_, hPut.inside hRead.inside⟩
          rw [hPut.reads]
          exact hRead.reads
        rw [List.length_cons] at hCondition
        rw [printLoop, kvsnprintfLoop, if_neg hPlace, if_pos hPercent, ← hCursor]
        dsimp only
        rw [if_neg hNotEnd, hAt.head.1, if_pos hPercent]
        have hShorter : d.1 = true ∨ last - ((s.read i).put last c).p ≤ d.2.length := by
          rcases hCondition with hFinished | hShort
          · exact Or.inl hFinished
          · exact Or.inr (by omega)
        exact ih hRest hAt.tail hShorter hClean' (by omega)

end Runs

/-! ### Formats that are cut off -/

section Fuel

variable {fmt : Nat → Char}

theorem readZeros_mono {fuel more i : Nat} {zeroPad : Bool} {s : Printing} {r : Bool × Nat × Printing}
    (h : readZeros fmt fuel i zeroPad s = some r) (hLe : fuel ≤ more) : readZeros fmt more i zeroPad s = some r := by
  induction fuel generalizing more i zeroPad s with
  | zero => cases h
  | succ fuel ih =>
    obtain ⟨more, rfl⟩ : ∃ k, more = k + 1 := ⟨more - 1, by omega⟩
    rw [readZeros] at h ⊢
    split
    case isTrue hZero =>
      rw [if_pos hZero] at h
      exact ih h (by omega)
    case isFalse hOther =>
      rw [if_neg hOther] at h
      exact h

theorem readDigitsOfWidth_mono {fuel more i : Nat} {width : BitVec 32} {s : Printing} {r : BitVec 32 × Nat × Printing}
    (h : readDigitsOfWidth fmt fuel i width s = some r) (hLe : fuel ≤ more) :
    readDigitsOfWidth fmt more i width s = some r := by
  induction fuel generalizing more i width s with
  | zero => cases h
  | succ fuel ih =>
    obtain ⟨more, rfl⟩ : ∃ k, more = k + 1 := ⟨more - 1, by omega⟩
    rw [readDigitsOfWidth] at h ⊢
    split
    case isTrue hDigit =>
      rw [if_pos hDigit] at h
      exact ih h (by omega)
    case isFalse hOther =>
      rw [if_neg hOther] at h
      exact h

theorem readZeros_reads {fuel i : Nat} {zeroPad : Bool} {s : Printing} {r : Bool × Nat × Printing}
    (h : readZeros fmt fuel i zeroPad s = some r) : s.reads ⊆ r.2.2.reads := by
  induction fuel generalizing i zeroPad s with
  | zero => cases h
  | succ fuel ih =>
    rw [readZeros] at h
    split at h
    · exact fun k hk => ih h (List.mem_cons_of_mem i hk)
    · cases h
      exact fun k hk => List.mem_cons_of_mem i hk

theorem readDigitsOfWidth_reads {fuel i : Nat} {width : BitVec 32} {s : Printing} {r : BitVec 32 × Nat × Printing}
    (h : readDigitsOfWidth fmt fuel i width s = some r) : s.reads ⊆ r.2.2.reads := by
  induction fuel generalizing i width s with
  | zero => cases h
  | succ fuel ih =>
    rw [readDigitsOfWidth] at h
    split at h
    · exact fun k hk => ih h (List.mem_cons_of_mem i hk)
    · cases h
      exact fun k hk => List.mem_cons_of_mem i hk

theorem readModifier_reads (fmt : Nat → Char) (i : Nat) (s : Printing) : s.reads ⊆ (readModifier fmt i s).2.2.2.reads := by
  have hOne : s.reads ⊆ (s.read i).reads := List.subset_cons_self i s.reads
  unfold readModifier
  repeat' split
  · exact fun k hk => List.mem_cons_of_mem _ (hOne hk)
  · exact fun k hk => List.mem_cons_of_mem _ (hOne hk)
  · exact hOne
  · exact hOne

theorem convert_reads {last : Nat} {zeroPad isLong isLongLong : Bool} {width : BitVec 32} {spec : Char}
    {args : List VaArg} {s : Printing} {r : List VaArg × Printing}
    (h : s.convert last zeroPad width isLong isLongLong spec args = some r) : r.2.reads = s.reads := by
  have hSpec := convert_spec zeroPad width isLong isLongLong spec args last s
  rw [h] at hSpec
  cases hText : conversionText zeroPad width isLong isLongLong spec args with
  | none =>
    rw [hText] at hSpec
    cases hSpec
  | some t =>
    rw [hText] at hSpec
    obtain ⟨s', hEq, hPrints⟩ := hSpec
    cases hEq
    exact hPrints.reads

theorem printLoop_reads {last fuel i : Nat} {args : List VaArg} {s r : Printing}
    (h : printLoop fmt last fuel i args s = some r) : (s.read i).reads ⊆ r.reads := by
  induction fuel generalizing i args s with
  | zero => cases h
  | succ fuel ih =>
    have hGrow : ∀ {i' : Nat} {args' : List VaArg} {s' : Printing}, (s.read i).reads ⊆ s'.reads →
        printLoop fmt last fuel i' args' s' = some r → (s.read i).reads ⊆ r.reads := by
      intro i' args' s' hSubset hRest k hk
      exact ih hRest (List.mem_cons_of_mem i' (hSubset hk))
    rw [printLoop] at h
    dsimp only at h
    split at h
    · cases h
      exact fun _ hk => hk
    split at h
    · refine hGrow ?_ h
      rw [(Printing.puts_put last (s.read i) (fmt i)).reads]
      exact fun _ hk => hk
    cases hZeros : readZeros fmt fuel (i + 1) false (s.read i) with
    | none =>
      rw [hZeros] at h
      cases h
    | some zeros =>
      obtain ⟨zeroPad, i₁, s₁⟩ := zeros
      rw [hZeros] at h
      dsimp only at h
      cases hWidth : readDigitsOfWidth fmt fuel i₁ 0 s₁ with
      | none =>
        rw [hWidth] at h
        cases h
      | some widths =>
        obtain ⟨width, i₂, s₂⟩ := widths
        rw [hWidth] at h
        dsimp only at h
        split at h
        · cases h
        · next hConvert =>
          refine hGrow ?_ h
          have hReads := convert_reads hConvert
          rw [hReads]
          intro k hk
          exact List.mem_cons_of_mem _ (readModifier_reads fmt i₂ s₂
            (readDigitsOfWidth_reads hWidth (readZeros_reads hZeros hk)))

theorem printLoop_mono {last fuel more i : Nat} {args : List VaArg} {s r : Printing}
    (h : printLoop fmt last fuel i args s = some r) (hLe : fuel ≤ more) : printLoop fmt last more i args s = some r := by
  induction fuel generalizing more i args s with
  | zero => cases h
  | succ fuel ih =>
    obtain ⟨more, rfl⟩ : ∃ k, more = k + 1 := ⟨more - 1, by omega⟩
    rw [printLoop] at h ⊢
    dsimp only at h ⊢
    split
    case isTrue hEnd =>
      rw [if_pos hEnd] at h
      exact h
    case isFalse hOn =>
      rw [if_neg hOn] at h
      split
      case isTrue hOrdinary =>
        rw [if_pos hOrdinary] at h
        exact ih h (by omega)
      case isFalse hPercent =>
        rw [if_neg hPercent] at h
        cases hZeros : readZeros fmt fuel (i + 1) false (s.read i) with
        | none =>
          rw [hZeros] at h
          cases h
        | some zeros =>
          rw [hZeros] at h
          rw [readZeros_mono hZeros (by omega : fuel ≤ more)]
          dsimp only at h ⊢
          cases hWidth : readDigitsOfWidth fmt fuel zeros.2.1 0 zeros.2.2 with
          | none =>
            rw [hWidth] at h
            cases h
          | some widths =>
            rw [hWidth] at h
            rw [readDigitsOfWidth_mono hWidth (by omega : fuel ≤ more)]
            dsimp only at h ⊢
            split
            case h_1 hNone =>
              rw [hNone] at h
              cases h
            case h_2 hSome =>
              rw [hSome] at h
              exact ih h (by omega)

end Fuel

theorem printLoop_stray {fmt : Nat → Char} {n last g : Nat} {cs : List Char} {args : List VaArg} {text : List Char}
    {i : Nat} {s r : Printing} {fuel : Nat} (hDescribe : describe g cs args = some (false, text)) (hAt : At fmt n i cs)
    (hRoom : text.length < last - s.p) (hFuel : cs.length + 1 < fuel) (hLoop : printLoop fmt last fuel i args s = some r) :
    n + 1 ∈ r.reads := by
  induction g generalizing cs args text i s fuel with
  | zero => cases hDescribe
  | succ g ih =>
    obtain ⟨fuel, rfl⟩ : ∃ k, fuel = k + 1 := ⟨fuel - 1, by omega⟩
    have hPlace : s.p < last := by omega
    cases cs with
    | nil => cases hDescribe
    | cons c cs =>
      rw [List.length_cons] at hFuel
      by_cases hPercent : c = '%'
      · subst hPercent
        obtain ⟨i', s', converted, hAt', hLooks, hConverts, hRound⟩ := printLoop_conversion args hAt hPlace
          (by omega : cs.length < fuel)
        rw [describe_percent] at hDescribe
        rw [hRound] at hLoop
        have hLength := length_behindModifiers cs
        cases hBehind : behindModifiers cs with
        | nil =>
          rw [hBehind] at hAt'
          obtain ⟨hNul, rfl⟩ := hAt'.nil
          rw [hNul] at hConverts
          obtain ⟨s'', rfl, -⟩ := hConverts
          exact printLoop_reads hLoop List.mem_cons_self
        | cons spec rest =>
          rw [hBehind] at hDescribe hAt' hLength
          rw [hAt'.head.1] at hConverts
          dsimp only at hDescribe
          cases hConversion : conversionOf cs spec args with
          | none =>
            rw [hConversion] at hDescribe
            cases hDescribe
          | some result =>
            obtain ⟨args', written⟩ := result
            rw [hConversion] at hDescribe hConverts
            dsimp only at hDescribe
            obtain ⟨s'', rfl, hPrints⟩ := hConverts
            obtain ⟨d, hRest, hText⟩ := Option.map_eq_some_iff.mp hDescribe
            obtain ⟨hCut, rfl⟩ := Prod.mk.inj hText
            have hCursor : s''.cursor last = (s.cursor last).puts written := by rw [hPrints.cursor, hLooks.cursor]
            have hPosition : last - s''.p = last - s.p - written.length :=
              (congrArg Cursor.room hCursor).trans (Cursor.room_puts written)
            rw [List.length_append] at hRoom
            rw [List.length_cons] at hLength
            have hRest' : describe g rest args' = some (false, d.2) := by rw [hRest, ← hCut]
            have hRoom' : d.2.length < last - s''.p := by omega
            have hFuel' : rest.length + 1 < fuel := by omega
            exact ih hRest' hAt'.tail hRoom' hFuel' hLoop
      · rw [describe, if_pos hPercent] at hDescribe
        obtain ⟨d, hRest, hText⟩ := Option.map_eq_some_iff.mp hDescribe
        obtain ⟨hCut, rfl⟩ := Prod.mk.inj hText
        have hPut := Printing.puts_put last (s.read i) c
        have hCursor : ((s.read i).put last c).cursor last = (s.cursor last).put c := hPut.cursor
        have hPosition : last - ((s.read i).put last c).p = last - s.p - 1 :=
          (congrArg Cursor.room hCursor).trans (Cursor.room_put c)
        have hNotEnd : ¬ (fmt i = '\x00' ∨ ¬ (s.read i).p < last) := by
          rw [hAt.head.1]
          exact not_or.mpr ⟨hAt.head.2, not_not_intro hPlace⟩
        rw [printLoop] at hLoop
        dsimp only at hLoop
        rw [if_neg hNotEnd, hAt.head.1, if_pos hPercent] at hLoop
        rw [List.length_cons] at hRoom
        have hRest' : describe g cs args = some (false, d.2) := by rw [hRest, ← hCut]
        exact ih hRest' hAt.tail (by omega) (by omega) hLoop

/-! ### The call -/

/-- `kvsnprintf` returns; it has read the format up to the terminator at `n`, and stored to the `size` bytes of the
buffer and the 32 of the number buffer only; and behind the bytes that it returns the number of stands a terminator. -/
def InBounds (fmt : Nat → Char) (n : Nat) (buf numbuf : Nat → Char) (size : Nat) (args : List VaArg) : Prop :=
  ∃ fuel s, kvsnprintfInto fmt fuel ⟨buf, []⟩ ⟨numbuf, []⟩ size args = some s ∧ (∀ i ∈ s.reads, i ≤ n) ∧
    s.buf.Within size ∧ s.numbuf.Within 32 ∧ s.p < size ∧ s.buf.mem s.p = '\x00'

section Call

variable {fmt : Nat → Char} {cs : List Char} (hFormat : Holds fmt 0 cs) {size : Nat} (buf numbuf : Nat → Char)
  {args : List VaArg} {finished : Bool} {text : List Char}
  (hArgs : describe (cs.length + 1) cs args = some (finished, text))
include hFormat hArgs

theorem inBounds_of_finished (hSize : 1 ≤ size) (hCondition : finished = true ∨ size - 1 ≤ text.length) :
    InBounds fmt cs.length buf numbuf size args := by
  have hNone : ∀ m : Nat → Char, ∀ k, (Buffer.mk m []).Within k := fun _ _ _ h => absurd h List.not_mem_nil
  have hStart : Clean cs.length (size - 1) ⟨⟨buf, []⟩, 0, ⟨numbuf, []⟩, []⟩ :=
    ⟨fun _ h => absurd h List.not_mem_nil, Nat.zero_le _, hNone _ _, hNone _ _⟩
  obtain ⟨r, hLoop, hClean, -⟩ := printLoop_clean hArgs ⟨hFormat, Nat.zero_add _⟩ hCondition hStart
    (Nat.lt_succ_self (cs.length + 1))
  have hPosition := hClean.inside.position
  refine ⟨_, _, congrArg (Option.map _) hLoop, hClean.reads, ?_, hClean.inside.numbuf, ?_, Buffer.store_self _⟩
  · exact Buffer.Within.store (hClean.inside.buf.mono (by omega)) (by omega) _
  · show r.p < size
    omega

theorem not_inBounds_of_cut (hCut : finished = false) (hRoom : text.length < size - 1) :
    ¬ InBounds fmt cs.length buf numbuf size args := by
  rintro ⟨fuel, s, hRun, hReads, -⟩
  obtain ⟨r, hLoop, rfl⟩ := Option.map_eq_some_iff.mp hRun
  rw [hCut] at hArgs
  have hStray := printLoop_stray hArgs ⟨hFormat, Nat.zero_add _⟩ hRoom (by omega : cs.length + 1 < cs.length + 2 + fuel)
    (printLoop_mono hLoop (by omega))
  have hLe := hReads _ hStray
  omega

/-- `kvsnprintf` stays in bounds exactly if its format does not end in a conversion that is cut off, or the text of what
comes before that fills the buffer. -/
theorem kvsnprintf_inBounds_iff (hSize : 1 ≤ size) :
    InBounds fmt cs.length buf numbuf size args ↔ finished = true ∨ size - 1 ≤ text.length := by
  constructor
  · intro hBounds
    by_contra hNot
    obtain ⟨hCut, hRoom⟩ := not_or.mp hNot
    exact not_inBounds_of_cut hFormat buf numbuf hArgs (Bool.eq_false_iff.mpr hCut) (Nat.lt_of_not_le hRoom) hBounds
  · exact inBounds_of_finished hFormat buf numbuf hArgs hSize

end Call

def widthFormat (i : Nat) : Char := ['%', '5', 'd'].getD i '\x00'

theorem kvsnprintf_inBounds_iff_width : InBounds widthFormat 3 (fun _ => ' ') (fun _ => ' ') 16 [.int (-7)] ↔
    true = true ∨ 16 - 1 ≤ [' ', ' ', ' ', '-', '7'].length := by
  have hFormat : Holds widthFormat 0 ['%', '5', 'd'] := ⟨⟨rfl, by decide⟩, ⟨rfl, by decide⟩, ⟨rfl, by decide⟩, rfl⟩
  exact kvsnprintf_inBounds_iff hFormat _ _ (by rfl) (by decide)

/-- A lone `%`, in memory that is zero behind it: the place behind the terminator is read. -/
def loneFormat (i : Nat) : Char := ['%'].getD i '\x00'

theorem lone_percent_not_inBounds : ¬ InBounds loneFormat 1 (fun _ => ' ') (fun _ => ' ') 16 [] := by
  have hFormat : Holds loneFormat 0 ['%'] := ⟨⟨rfl, by decide⟩, rfl⟩
  exact not_inBounds_of_cut hFormat _ _ rfl rfl (by decide)

end UnixOS.Printk
