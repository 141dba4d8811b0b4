import Mathlib.Algebra.GroupWithZero.Nat
import Mathlib.Data.List.Basic
import Mathlib.Data.List.TakeDrop

/-! # Reading from a stream

`fgetc`, `fgets`, `ungetc` and `fread` of `libc/src/stdio.c`. There is no buffer: each of them asks the kernel, and one
character can be pushed back. Only `fgetc` asks for that character.
-/

namespace UnixOS.Libc

def EOF : Int := -1

/-- A `FILE`, with what the kernel has left behind its descriptor and the number of reads so far. -/
structure File where
  rest : List UInt8
  reads : Nat
  eof : Bool
  error : Bool
  ungetcChar : Int
  hasUngetc : Bool

/-- `read`. The kernel may fail, and it may hand over less than it was asked for, but never nothing before the end of
the file. -/
def read (offer : Nat → Option Nat) (count : Nat) (stream : File) : Option (List UInt8) × File :=
  match offer stream.reads with
  | none => (none, { stream with reads := stream.reads + 1 })
  | some n =>
    (some (stream.rest.take (min (max 1 n) count)),
      { stream with rest := stream.rest.drop (min (max 1 n) count), reads := stream.reads + 1 })

def fgetc (offer : Nat → Option Nat) (stream : File) : Int × File :=
  if stream.hasUngetc then (stream.ungetcChar, { stream with hasUngetc := false })
  else
    match read offer 1 stream with
    | (none, stream) => (EOF, { stream with error := true })
    | (some [], stream) => (EOF, { stream with eof := true })
    | (some (c :: _), stream) => (c.toNat, stream)

/-- The loop of `fgets`, for the rounds that `size` leaves: what is stored, if the result is not `NULL`. -/
def fgetsLoop (offer : Nat → Option Nat) : Nat → List UInt8 → File → Option (List UInt8) × File
  | 0, s, stream => (some s, stream)
  | n + 1, s, stream =>
    match fgetc offer stream with
    | (c, stream) =>
      if c = EOF then if s.length = 0 then (none, stream) else (some s, stream)
      else
        let s := s ++ [UInt8.ofNat c.toNat]
        if c = 10 then (some s, stream) else fgetsLoop offer n s stream

def fgets (offer : Nat → Option Nat) (size : Int) (stream : File) : Option (List UInt8) × File :=
  if size ≤ 0 then (none, stream) else fgetsLoop offer (size - 1).toNat [] stream

def ungetc (c : Int) (stream : File) : Int × File :=
  if c = EOF then (EOF, stream)
  else (c, { stream with ungetcChar := c, hasUngetc := true, eof := false })

/-- `fread`: its result, and what is stored at `ptr`. -/
def fread (offer : Nat → Option Nat) (size nmemb : Nat) (stream : File) : Nat × List UInt8 × File :=
  if size = 0 ∨ nmemb = 0 then (0, [], stream)
  else
    match read offer (size * nmemb % 2 ^ 64) stream with
    | (none, stream) => (0, [], { stream with error := true })
    | (some [], stream) => (0, [], { stream with eof := true })
    | (some (c :: cs), stream) => ((c :: cs).length / size, c :: cs, stream)

/-! ### Programs that read -/

inductive Call where
  | fgetc
  | fgets (size : Int)
  | fread (size nmemb : Nat)
  | ungetc (c : Int)
deriving DecidableEq

structure Reader where
  stream : File
  taken : List UInt8

/-- `fopen` of a file with this content. -/
def opened (content : List UInt8) : Reader := ⟨⟨content, 0, false, false, 0, false⟩, []⟩

def Reader.step (offer : Nat → Option Nat) (r : Reader) : Call → Reader
  | .fgetc =>
    let (c, stream) := Libc.fgetc offer r.stream
    ⟨stream, if c = EOF then r.taken else r.taken ++ [UInt8.ofNat c.toNat]⟩
  | .fgets size =>
    let (s, stream) := Libc.fgets offer size r.stream
    ⟨stream, r.taken ++ s.getD []⟩
  | .fread size nmemb =>
    let (_, bytes, stream) := Libc.fread offer size nmemb r.stream
    ⟨stream, r.taken ++ bytes⟩
  | .ungetc c =>
    let (c, stream) := Libc.ungetc c r.stream
    ⟨stream, if c = EOF then r.taken else r.taken.dropLast⟩

def Along (offer : Nat → Option Nat) (P : Reader → Call → Prop) : List Call → Reader → Prop
  | [], _ => True
  | call :: calls, r => P r call ∧ Along offer P calls (r.step offer call)

/-- The product of the sizes fits in `size_t`; only the byte just read is pushed back, and only one. -/
def Allowed (r : Reader) : Call → Prop
  | .fread size nmemb => size * nmemb < 2 ^ 64
  | .ungetc c => r.stream.hasUngetc = false ∧ r.taken.getLast?.map (fun b => (b.toNat : Int)) = some c
  | _ => True

def File.pushed (stream : File) : List UInt8 :=
  if stream.hasUngetc then [UInt8.ofNat stream.ungetcChar.toNat] else []

def File.remaining (stream : File) : List UInt8 := stream.pushed ++ stream.rest

def InOrder (content : List UInt8) (r : Reader) : Prop := r.taken ++ r.stream.remaining = content

instance decidableInOrder (content : List UInt8) (r : Reader) : Decidable (InOrder content r) :=
  inferInstanceAs (Decidable (r.taken ++ r.stream.remaining = content))

/-- Unless it comes to the end of the file, the result of `fread` counts every byte that it took. -/
def Counts (offer : Nat → Option Nat) (r : Reader) : Call → Prop
  | .fread size nmemb =>
    let (result, bytes, stream) := Libc.fread offer size nmemb r.stream
    stream.rest = [] ∨ result * size = bytes.length
  | _ => True

def handedOver (offer : Nat → Option Nat) (size nmemb : Nat) (stream : File) : List UInt8 :=
  (read offer (size * nmemb % 2 ^ 64) stream).1.getD []

/-- No byte is pushed back when `fread` is called, or else the kernel hands over only bytes that are equal to it; and what
the kernel hands over are whole items, or the rest of the file. -/
def Suits (offer : Nat → Option Nat) (r : Reader) : Call → Prop
  | .fread size nmemb => size = 0 ∨ nmemb = 0 ∨
    (∀ c ∈ r.stream.pushed, ∀ b ∈ handedOver offer size nmemb r.stream, b = c) ∧
      (size ∣ (handedOver offer size nmemb r.stream).length ∨
        r.stream.rest.length ≤ (handedOver offer size nmemb r.stream).length)
  | _ => True

/-! ### What a call takes -/

def File.Sane (stream : File) : Prop := stream.hasUngetc = true → ∃ b : UInt8, stream.ungetcChar = b.toNat

theorem toNat_ne_EOF (b : UInt8) : (b.toNat : Int) ≠ EOF := by
  rw [EOF]
  omega

theorem ofNat_toNat_toNat (b : UInt8) : UInt8.ofNat (b.toNat : Int).toNat = b := by
  rw [Int.toNat_natCast, UInt8.ofNat_toNat]

theorem File.remaining_of_not {stream : File} (h : stream.hasUngetc = false) : stream.remaining = stream.rest := by
  rw [File.remaining, File.pushed, if_neg (Bool.eq_false_iff.mp h), List.nil_append]

theorem File.sane_of_not {stream : File} (h : stream.hasUngetc = false) : stream.Sane :=
  fun hHas => absurd hHas (Bool.eq_false_iff.mp h)

section Calls

variable (offer : Nat → Option Nat) {stream : File}

theorem fgetc_kernel (h : stream.hasUngetc = false) : (fgetc offer stream).2.hasUngetc = false ∧
    ((fgetc offer stream).1 = EOF ∧ (fgetc offer stream).2.rest = stream.rest ∨
      ∃ b : UInt8, (fgetc offer stream).1 = b.toNat ∧ stream.rest = b :: (fgetc offer stream).2.rest) := by
  have hOne : ∀ n, min (max 1 n) 1 = 1 := by omega
  rw [fgetc, if_neg (Bool.eq_false_iff.mp h), read]
  cases offer stream.reads with
  | none => exact ⟨h, Or.inl ⟨rfl, rfl⟩⟩
  | some n =>
    dsimp only
    rw [hOne]
    cases hRest : stream.rest with
    | nil => exact ⟨h, Or.inl ⟨rfl, rfl⟩⟩
    | cons b rest => exact ⟨h, Or.inr ⟨b, rfl, rfl⟩⟩

theorem fgetc_spec (h : stream.Sane) :
    (fgetc offer stream).2.Sane ∧
      ((fgetc offer stream).1 = EOF ∧ (fgetc offer stream).2.remaining = stream.remaining ∨
        ∃ b : UInt8, (fgetc offer stream).1 = b.toNat ∧ stream.remaining = b :: (fgetc offer stream).2.remaining) := by
  cases hHas : stream.hasUngetc with
  | true =>
    obtain ⟨b, hb⟩ := h hHas
    have hTakes : fgetc offer stream = (stream.ungetcChar, { stream with hasUngetc := false }) := if_pos hHas
    rw [hTakes]
    refine ⟨File.sane_of_not rfl, Or.inr ⟨b, hb, ?_⟩⟩
    rw [File.remaining, File.pushed, if_pos hHas, hb, ofNat_toNat_toNat]
    rfl
  | false =>
    obtain ⟨hNot, hTakes⟩ := fgetc_kernel offer hHas
    rw [File.remaining_of_not hNot, File.remaining_of_not hHas]
    exact ⟨File.sane_of_not hNot, hTakes⟩

theorem fgetsLoop_spec (h : stream.Sane) (n : Nat) (s : List UInt8) :
    (fgetsLoop offer n s stream).2.Sane ∧
      (fgetsLoop offer n s stream).1.getD [] ++ (fgetsLoop offer n s stream).2.remaining = s ++ stream.remaining := by
  induction n generalizing s stream with
  | zero => exact ⟨h, rfl⟩
  | succ n ih =>
    obtain ⟨hSane, hTakes⟩ := fgetc_spec offer h
    rw [fgetsLoop]
    dsimp only
    rcases hTakes with ⟨hEnd, hSame⟩ | ⟨b, hByte, hRemaining⟩
    · rw [if_pos hEnd]
      split
      case isTrue hNone =>
        rw [List.eq_nil_of_length_eq_zero hNone]
        exact ⟨hSane, hSame⟩
      case isFalse => exact ⟨hSane, congrArg (s ++ ·) hSame⟩
    · have hOn : s ++ stream.remaining = (s ++ [b]) ++ (fgetc offer stream).2.remaining := by
        rw [hRemaining, List.append_assoc]
        rfl
      rw [hByte, if_neg (toNat_ne_EOF b), ofNat_toNat_toNat, hOn]
      split
      · exact ⟨hSane, rfl⟩
      · exact ih hSane _

theorem fgets_spec (h : stream.Sane) (size : Int) :
    (fgets offer size stream).2.Sane ∧
      (fgets offer size stream).1.getD [] ++ (fgets offer size stream).2.remaining = stream.remaining := by
  rw [fgets]
  split
  · exact ⟨h, rfl⟩
  · exact fgetsLoop_spec offer h _ []

theorem fread_spec {size nmemb : Nat} (hSize : ¬ (size = 0 ∨ nmemb = 0)) :
    (fread offer size nmemb stream).1 = (handedOver offer size nmemb stream).length / size ∧
      (fread offer size nmemb stream).2.1 = handedOver offer size nmemb stream ∧
      stream.rest = handedOver offer size nmemb stream ++ (fread offer size nmemb stream).2.2.rest ∧
      (fread offer size nmemb stream).2.2.pushed = stream.pushed ∧
      ((fread offer size nmemb stream).2.2.Sane ↔ stream.Sane) := by
  rw [fread, if_neg hSize, handedOver, read]
  cases offer stream.reads with
  | none => exact ⟨(Nat.zero_div size).symm, rfl, rfl, rfl, Iff.rfl⟩
  | some n =>
    dsimp only
    have hSplit := List.take_append_drop (min (max 1 n) (size * nmemb % 2 ^ 64)) stream.rest
    cases hBytes : stream.rest.take (min (max 1 n) (size * nmemb % 2 ^ 64)) with
    | nil =>
      rw [hBytes] at hSplit
      exact ⟨(Nat.zero_div size).symm, rfl, hSplit.symm, rfl, Iff.rfl⟩
    | cons c cs =>
      rw [hBytes] at hSplit
      exact ⟨rfl, rfl, hSplit.symm, rfl, Iff.rfl⟩

end Calls

/-! ### One call -/

theorem append_comm_singleton {bytes : List UInt8} {c : UInt8} : bytes ++ [c] = [c] ++ bytes ↔ ∀ b ∈ bytes, b = c := by
  induction bytes with
  | nil => simp
  | cons b bytes ih =>
    rw [List.forall_mem_cons, ← ih]
    constructor
    · intro hEq
      obtain ⟨rfl, hTail⟩ := List.cons.inj hEq
      exact ⟨rfl, hTail⟩
    · rintro ⟨rfl, hTail⟩
      exact congrArg (List.cons b) hTail

theorem append_comm_pushed (bytes : List UInt8) (stream : File) :
    bytes ++ stream.pushed = stream.pushed ++ bytes ↔ ∀ c ∈ stream.pushed, ∀ b ∈ bytes, b = c := by
  rw [File.pushed]
  split
  · rw [append_comm_singleton, List.forall_mem_singleton]
  · simp

section Steps

variable {offer : Nat → Option Nat} {content : List UInt8} {r : Reader} (hOrder : InOrder content r)
include hOrder

theorem fread_right_iff (size nmemb : Nat) :
    InOrder content (r.step offer (.fread size nmemb)) ∧ Counts offer r (.fread size nmemb) ↔
      Suits offer r (.fread size nmemb) := by
  by_cases hSize : size = 0 ∨ nmemb = 0
  · have hNone : fread offer size nmemb r.stream = (0, [], r.stream) := if_pos hSize
    have hHere : InOrder content (r.step offer (.fread size nmemb)) := by
      simp only [InOrder, Reader.step, hNone, List.append_nil]
      exact hOrder
    have hCounts : Counts offer r (.fread size nmemb) := by
      simp [Counts, hNone]
    exact iff_of_true ⟨hHere, hCounts⟩ (hSize.elim Or.inl fun hZero => Or.inr (Or.inl hZero))
  · obtain ⟨hResult, hBytes, hRest, hPushed, -⟩ := @fread_spec offer r.stream _ _ hSize
    have hLength := congrArg List.length hRest
    rw [List.length_append] at hLength
    have hIn : InOrder content (r.step offer (.fread size nmemb)) ↔
        ∀ c ∈ r.stream.pushed, ∀ b ∈ handedOver offer size nmemb r.stream, b = c := by
      rw [← append_comm_pushed, ← hOrder]
      simp only [InOrder, Reader.step, File.remaining, hBytes, hPushed]
      rw [hRest]
      simp only [List.append_assoc, List.append_cancel_left_eq]
      rw [← List.append_assoc, ← List.append_assoc, List.append_cancel_right_eq]
    have hCount : Counts offer r (.fread size nmemb) ↔ size ∣ (handedOver offer size nmemb r.stream).length ∨
        r.stream.rest.length ≤ (handedOver offer size nmemb r.stream).length := by
      simp only [Counts, hResult, hBytes]
      rw [or_comm, ← Nat.dvd_iff_div_mul_eq, ← List.length_eq_zero_iff]
      refine or_congr_right ?_
      change (fread offer size nmemb r.stream).2.2.rest.length = 0 ↔ _
      omega
    rw [hIn, hCount]
    simp only [Suits]
    constructor
    · intro h
      exact Or.inr (Or.inr h)
    · rintro (hZero | hZero | h)
      · exact absurd (Or.inl hZero) hSize
      · exact absurd (Or.inr hZero) hSize
      · exact h

theorem InOrder.step (hSane : r.stream.Sane) {call : Call} (hAllowed : Allowed r call)
    (hOther : ∀ size nmemb, call ≠ .fread size nmemb) : InOrder content (r.step offer call) := by
  cases call with
  | fgetc =>
    obtain ⟨-, ⟨hEnd, hSame⟩ | ⟨b, hByte, hRemaining⟩⟩ := fgetc_spec offer hSane
    · simp only [InOrder, Reader.step, hEnd, if_true, hSame]
      exact hOrder
    · simp only [InOrder, Reader.step, hByte, if_neg (toNat_ne_EOF b), ofNat_toNat_toNat]
      rw [List.append_assoc, ← hOrder, hRemaining]
      rfl
  | fgets size =>
    obtain ⟨-, hTakes⟩ := fgets_spec offer hSane size
    simp only [InOrder, Reader.step]
    rw [List.append_assoc, hTakes]
    exact hOrder
  | fread size nmemb => exact absurd rfl (hOther size nmemb)
  | ungetc c =>
    obtain ⟨hNone, hLast⟩ := hAllowed
    obtain ⟨b, hb, rfl⟩ := Option.map_eq_some_iff.mp hLast
    obtain ⟨taken, hTaken⟩ := List.getLast?_eq_some_iff.mp hb
    have hUngetc : ungetc (b.toNat : Int) r.stream = ((b.toNat : Int),
        { r.stream with ungetcChar := (b.toNat : Int), hasUngetc := true, eof := false }) := if_neg (toNat_ne_EOF b)
    have hRemaining := File.remaining_of_not hNone
    simp only [InOrder, Reader.step, hUngetc, if_neg (toNat_ne_EOF b), File.remaining, File.pushed, if_true,
      ofNat_toNat_toNat]
    rw [hTaken, List.dropLast_concat, ← hOrder, hTaken, hRemaining, List.append_assoc]

theorem right_iff_suits (hSane : r.stream.Sane) {call : Call} (hAllowed : Allowed r call) :
    InOrder content (r.step offer call) ∧ Counts offer r call ↔ Suits offer r call := by
  cases call with
  | fread size nmemb => exact fread_right_iff hOrder size nmemb
  | fgetc => exact iff_of_true ⟨hOrder.step hSane hAllowed (fun _ _ h => by cases h), trivial⟩ trivial
  | fgets size => exact iff_of_true ⟨hOrder.step hSane hAllowed (fun _ _ h => by cases h), trivial⟩ trivial
  | ungetc c => exact iff_of_true ⟨hOrder.step hSane hAllowed (fun _ _ h => by cases h), trivial⟩ trivial

end Steps

theorem sane_step (offer : Nat → Option Nat) {r : Reader} (hSane : r.stream.Sane) {call : Call}
    (hAllowed : Allowed r call) : (r.step offer call).stream.Sane := by
  cases call with
  | fgetc => exact (fgetc_spec offer hSane).1
  | fgets size => exact (fgets_spec offer hSane size).1
  | fread size nmemb =>
    simp only [Reader.step]
    by_cases hSize : size = 0 ∨ nmemb = 0
    · have hNone : fread offer size nmemb r.stream = (0, [], r.stream) := if_pos hSize
      rw [hNone]
      exact hSane
    · exact (fread_spec offer hSize).2.2.2.2.mpr hSane
  | ungetc c =>
    obtain ⟨-, hLast⟩ := hAllowed
    obtain ⟨b, -, rfl⟩ := Option.map_eq_some_iff.mp hLast
    have hUngetc : ungetc (b.toNat : Int) r.stream = ((b.toNat : Int),
        { r.stream with ungetcChar := (b.toNat : Int), hasUngetc := true, eof := false }) := if_neg (toNat_ne_EOF b)
    simp only [Reader.step, hUngetc]
    exact fun _ => ⟨b, rfl⟩

/-! ### A run -/

theorem along_right_iff (offer : Nat → Option Nat) {content : List UInt8} (calls : List Call) {r : Reader}
    (hOrder : InOrder content r) (hSane : r.stream.Sane) (hAllowed : Along offer Allowed calls r) :
    Along offer (fun r call => InOrder content (r.step offer call) ∧ Counts offer r call) calls r ↔
      Along offer (Suits offer) calls r := by
  induction calls generalizing r with
  | nil => exact Iff.rfl
  | cons call calls ih =>
    obtain ⟨hHere, hRest⟩ := hAllowed
    have hStep := @right_iff_suits offer _ _ hOrder hSane _ hHere
    constructor
    · rintro ⟨hRight, hLater⟩
      exact ⟨hStep.mp hRight, (ih hRight.1 (sane_step offer hSane hHere) hRest).mp hLater⟩
    · rintro ⟨hSuits, hLater⟩
      have hRight := hStep.mpr hSuits
      exact ⟨hRight, (ih hRight.1 (sane_step offer hSane hHere) hRest).mpr hLater⟩

/-- After every call of a run the bytes delivered are the file's bytes in order, and every result of `fread` counts what
it took, exactly if each `fread` of the run suits. -/
theorem reading_right_iff (offer : Nat → Option Nat) (content : List UInt8) (calls : List Call)
    (hAllowed : Along offer Allowed calls (opened content)) :
    Along offer (fun r call => InOrder content (r.step offer call) ∧ Counts offer r call) calls (opened content) ↔
      Along offer (Suits offer) calls (opened content) :=
  along_right_iff offer calls rfl (File.sane_of_not rfl) hAllowed

theorem reading_right_iff_ab :
    Along some (fun r call => InOrder [97, 98] (r.step some call) ∧ Counts some r call)
        [.fgetc, .ungetc 97, .fgetc, .fread 1 1] (opened [97, 98]) ↔
      Along some (Suits some) [.fgetc, .ungetc 97, .fgetc, .fread 1 1] (opened [97, 98]) :=
  reading_right_iff some [97, 98] [.fgetc, .ungetc 97, .fgetc, .fread 1 1]
    ⟨trivial, ⟨rfl, rfl⟩, trivial, (by decide : 1 * 1 < 2 ^ 64), trivial⟩

theorem reading_not_right : ¬ ∀ (offer : Nat → Option Nat) (content : List UInt8) (calls : List Call),
    Along offer Allowed calls (opened content) →
      Along offer (fun r call => InOrder content (r.step offer call) ∧ Counts offer r call) calls (opened content) := by
  intro hAll
  obtain ⟨-, -, ⟨hOrder, -⟩, -⟩ := hAll some [97, 98] [.fgetc, .ungetc 97, .fread 1 1]
    ⟨trivial, ⟨rfl, rfl⟩, (by decide : 1 * 1 < 2 ^ 64), trivial⟩
  exact absurd hOrder (by decide)

end UnixOS.Libc
