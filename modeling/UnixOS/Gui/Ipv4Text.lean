import UnixOS.Lib.Numerals
import UnixOS.Lib.StoreLog

/-! # Addresses as text

`parse_ipv4_string` and `format_ipv4_string` of `kernel/gui/terminal.c`. The parser counts dots and keeps the octet that
it is in; it does not ask whether an octet has a digit.
-/

namespace UnixOS.Terminal

open Numerals StoreLog

/-- The loop over what follows the spaces: `ip`, `octet` and `parts` behind it, if it does not return -1. -/
def parseIpv4Loop : List Char → BitVec 32 → Nat → Nat → Option (BitVec 32 × Nat × Nat)
  | [], ip, octet, parts => some (ip, octet, parts)
  | c :: src, ip, octet, parts =>
    if '0' ≤ c ∧ c ≤ '9' then
      let octet := octet * 10 + (c.toNat - '0'.toNat)
      if octet > 255 then none else parseIpv4Loop src ip octet parts
    else if c = '.' then
      if parts ≥ 3 then none
      else parseIpv4Loop src (ip <<< 8 ||| BitVec.ofNat 32 octet) 0 (parts + 1)
    else if c = ' ' ∨ c = '\n' ∨ c = '\r' then some (ip, octet, parts)
    else none

def parseIpv4String (src : List Char) : Option (BitVec 32) :=
  if src = [] then none
  else
    match parseIpv4Loop (src.dropWhile (· = ' ')) 0 0 0 with
    | none => none
    | some (ip, octet, parts) => if parts ≠ 3 then none else some (ip <<< 8 ||| BitVec.ofNat 32 octet)

def octetChars (octet : Nat) : List Char :=
  (if octet ≥ 100 then [Char.ofNat ('0'.toNat + octet / 100 % 10)] else []) ++
    (if octet ≥ 10 then [Char.ofNat ('0'.toNat + octet / 10 % 10)] else []) ++ [Char.ofNat ('0'.toNat + octet % 10)]

/-- The loop that copies `tmp`. -/
def copyTmp (max : Int) : List Char → Buffer Char × Nat → Buffer Char × Nat
  | [], s => s
  | c :: tmp, (buf, idx) => if (idx : Int) < max - 1 then copyTmp max tmp (buf.store idx c, idx + 1) else (buf, idx)

def formatPart (ip : BitVec 32) (max : Int) (s : Buffer Char × Nat) (part : Nat) : Buffer Char × Nat :=
  let octet := (ip >>> (24 - 8 * part)) &&& 0xFF
  let (buf, idx) := copyTmp max (octetChars octet.toNat) s
  if part < 3 ∧ (idx : Int) < max - 1 then (buf.store idx '.', idx + 1) else (buf, idx)

def formatIpv4String (ip : BitVec 32) (buf : Buffer Char) (max : Int) : Buffer Char :=
  if max ≤ 0 then buf
  else
    let (buf, idx) := [0, 1, 2, 3].foldl (formatPart ip max) (buf.store 0 '\x00', 0)
    buf.store idx '\x00'

/-- The string in the first `size` places of a buffer. -/
def cString (buf : Buffer Char) (size : Nat) : List Char := (buf.text size).takeWhile (· ≠ '\x00')

/-! ### The grammar -/

abbrev IsDigit (c : Char) : Prop := '0' ≤ c ∧ c ≤ '9'

abbrev digitOf (c : Char) : Nat := c.toNat - '0'.toNat

abbrev EndsAddress (c : Char) : Prop := c = ' ' ∨ c = '\n' ∨ c = '\r'

def decimal (field : List Char) : Nat := value 10 digitOf field 0

def address (octets : List (List Char)) : BitVec 32 := BitVec.ofNat 32 (value 256 decimal octets 0)

/-- Four fields of digits, each at most 255, with dots between them: after spaces, and followed by the end of the string
or by what ends an address. A field may be empty. -/
structure Dotted (src : List Char) (fields : List (List Char)) : Prop where
  layout : ∃ spaces rest, src = spaces ++ (['.'].intercalate fields ++ rest) ∧ (∀ c ∈ spaces, c = ' ') ∧
    ∀ c ∈ rest.head?, EndsAddress c
  four : fields.length = 4
  digits : ∀ field ∈ fields, ∀ c ∈ field, IsDigit c
  small : ∀ field ∈ fields, decimal field ≤ 255

def AddressText (src : List Char) (ip : BitVec 32) : Prop :=
  ∃ octets, Dotted src octets ∧ [] ∉ octets ∧ ip = address octets

def ParsesRight (src : List Char) : Prop := ∀ ip, parseIpv4String src = some ip ↔ AddressText src ip

def HasEmptyOctet (src : List Char) : Prop := ∃ fields, Dotted src fields ∧ [] ∈ fields

/-! ### What the loop accepts -/

def push (ip : BitVec 32) (octet : Nat) : BitVec 32 := ip <<< 8 ||| BitVec.ofNat 32 octet

structure Field (f : List Char) : Prop where
  noDot : '.' ∉ f
  noEnd : ∀ c ∈ f, ¬ EndsAddress c

theorem Field.tail {c : Char} {f : List Char} (h : Field (c :: f)) : Field f :=
  ⟨fun hMem => h.noDot (List.mem_cons_of_mem c hMem), fun d hd => h.noEnd d (List.mem_cons_of_mem c hd)⟩

theorem field_of_digits {f : List Char} (h : ∀ c ∈ f, IsDigit c) : Field f := by
  constructor
  · intro hDot
    exact absurd (h '.' hDot) (by decide)
  · rintro c hc (rfl | rfl | rfl)
    all_goals exact absurd (h _ hc) (by decide)

section Loop

variable {ip : BitVec 32} {octet parts : Nat}

theorem parseIpv4Loop_digit {c : Char} (hDigit : IsDigit c) (src : List Char) :
    parseIpv4Loop (c :: src) ip octet parts =
      if octet * 10 + digitOf c > 255 then none else parseIpv4Loop src ip (octet * 10 + digitOf c) parts := by
  rw [parseIpv4Loop, if_pos hDigit]

theorem parseIpv4Loop_dot (src : List Char) : parseIpv4Loop ('.' :: src) ip octet parts =
    if parts ≥ 3 then none else parseIpv4Loop src (push ip octet) 0 (parts + 1) := by
  rw [parseIpv4Loop, if_neg (by decide), if_pos rfl]
  rfl

theorem parseIpv4Loop_end {rest : List Char} (h : ∀ c ∈ rest.head?, EndsAddress c) :
    parseIpv4Loop rest ip octet parts = some (ip, octet, parts) := by
  cases rest with
  | nil => rfl
  | cons c rest =>
    obtain rfl | rfl | rfl := h c rfl
    all_goals rfl

theorem parseIpv4Loop_field {f : List Char} (hField : Field f) (hOctet : octet ≤ 255) (rest : List Char)
    (r : BitVec 32 × Nat × Nat) : parseIpv4Loop (f ++ rest) ip octet parts = some r ↔
      ((∀ c ∈ f, IsDigit c) ∧ value 10 digitOf f octet ≤ 255) ∧
        parseIpv4Loop rest ip (value 10 digitOf f octet) parts = some r := by
  induction f generalizing octet with
  | nil =>
    constructor
    · intro h
      exact ⟨⟨List.forall_mem_nil _, hOctet⟩, h⟩
    · exact And.right
  | cons c f ih =>
    by_cases hDigit : IsDigit c
    · rw [List.cons_append, parseIpv4Loop_digit hDigit, value_cons]
      split
      case isTrue hBig =>
        have hLe := le_value digitOf (by decide : 0 < 10) f (octet * 10 + digitOf c)
        constructor
        · intro h
          cases h
        · rintro ⟨⟨-, hSmall⟩, -⟩
          omega
      case isFalse hSmall =>
        rw [ih hField.tail (by omega), List.forall_mem_cons]
        constructor
        · rintro ⟨⟨hDigits, hValue⟩, hRun⟩
          exact ⟨⟨⟨hDigit, hDigits⟩, hValue⟩, hRun⟩
        · rintro ⟨⟨⟨-, hDigits⟩, hValue⟩, hRun⟩
          exact ⟨⟨hDigits, hValue⟩, hRun⟩
    · have hNone : parseIpv4Loop (c :: (f ++ rest)) ip octet parts = none := by
        have hDot : c ≠ '.' := fun hEq => hField.noDot (hEq ▸ List.mem_cons_self)
        rw [parseIpv4Loop, if_neg hDigit, if_neg hDot, if_neg (hField.noEnd c List.mem_cons_self)]
      rw [List.cons_append, hNone]
      constructor
      · intro h
        cases h
      · rintro ⟨⟨hDigits, -⟩, -⟩
        exact absurd (hDigits c List.mem_cons_self) hDigit

end Loop

theorem intercalate_cons (f g : List Char) (fs : List (List Char)) :
    ['.'].intercalate (f :: g :: fs) = f ++ '.' :: ['.'].intercalate (g :: fs) := by
  simp [List.intercalate]

/-- The loop ends in the third part with the address `out` behind the last octet. -/
def Yields (src : List Char) (ip : BitVec 32) (octet parts : Nat) (out : BitVec 32) : Prop :=
  ∃ ip' octet', parseIpv4Loop src ip octet parts = some (ip', octet', 3) ∧ push ip' octet' = out

theorem yields_fields {f : List Char} {fs : List (List Char)} (hFields : ∀ g ∈ f :: fs, Field g) {rest : List Char}
    (hRest : ∀ c ∈ rest.head?, EndsAddress c) {ip out : BitVec 32} {octet parts : Nat} (hOctet : octet ≤ 255) :
    Yields (['.'].intercalate (f :: fs) ++ rest) ip octet parts out ↔
      ((∀ g ∈ f :: fs, ∀ c ∈ g, IsDigit c) ∧ value 10 digitOf f octet ≤ 255 ∧ ∀ g ∈ fs, decimal g ≤ 255) ∧
        parts + fs.length = 3 ∧ (fs.map decimal).foldl push (push ip (value 10 digitOf f octet)) = out := by
  induction fs generalizing f ip octet parts with
  | nil =>
    have hField := hFields f List.mem_cons_self
    simp only [Yields, List.intercalate_singleton, parseIpv4Loop_field hField hOctet, parseIpv4Loop_end hRest]
    constructor
    · rintro ⟨ip', octet', ⟨⟨hDigits, hSmall⟩, hEnd⟩, hOut⟩
      cases hEnd
      exact ⟨⟨List.forall_mem_singleton.mpr hDigits, hSmall, List.forall_mem_nil _⟩, rfl, hOut⟩
    · rintro ⟨⟨hDigits, hSmall, -⟩, hParts, hOut⟩
      cases hParts
      exact ⟨_, _, ⟨⟨hDigits f List.mem_cons_self, hSmall⟩, rfl⟩, hOut⟩
  | cons g fs ih =>
    have hField := hFields f List.mem_cons_self
    have hRun : Yields (['.'].intercalate (f :: g :: fs) ++ rest) ip octet parts out ↔
        ((∀ c ∈ f, IsDigit c) ∧ value 10 digitOf f octet ≤ 255) ∧ ¬ parts ≥ 3 ∧
          Yields (['.'].intercalate (g :: fs) ++ rest) (push ip (value 10 digitOf f octet)) 0 (parts + 1) out := by
      simp only [Yields, intercalate_cons, List.append_assoc, List.cons_append, parseIpv4Loop_field hField hOctet,
        parseIpv4Loop_dot]
      by_cases hParts : parts ≥ 3
      · simp [hParts]
      · simp only [hParts, if_false, not_false_eq_true, true_and, exists_and_left, and_assoc]
    rw [hRun, ih (fun h hMem => hFields h (List.mem_cons_of_mem f hMem)) (Nat.zero_le 255)]
    simp only [List.forall_mem_cons, List.length_cons, List.map_cons, List.foldl_cons]
    constructor
    · rintro ⟨⟨hDigits, hSmall⟩, hParts, ⟨hRestDigits, hNext, hRestSmall⟩, hLength, hOut⟩
      exact ⟨⟨⟨hDigits, hRestDigits⟩, hSmall, hNext, hRestSmall⟩, by omega, hOut⟩
    · rintro ⟨⟨⟨hDigits, hRestDigits⟩, hSmall, hNext, hRestSmall⟩, hLength, hOut⟩
      exact ⟨⟨hDigits, hSmall⟩, by omega, ⟨hRestDigits, hNext, hRestSmall⟩, by omega, hOut⟩

/-! ### Fields and texts -/

theorem exists_fields {text : List Char} (h : ∀ c ∈ text, ¬ EndsAddress c) :
    ∃ f fs, text = ['.'].intercalate (f :: fs) ∧ ∀ g ∈ f :: fs, Field g := by
  induction text with
  | nil =>
    exact ⟨[], [], rfl, List.forall_mem_singleton.mpr (field_of_digits (List.forall_mem_nil _))⟩
  | cons c text ih =>
    obtain ⟨hHead, hTail⟩ := List.forall_mem_cons.mp h
    obtain ⟨f, fs, rfl, hFields⟩ := ih hTail
    obtain ⟨hField, hRest⟩ := List.forall_mem_cons.mp hFields
    by_cases hDot : c = '.'
    · subst hDot
      refine ⟨[], f :: fs, (intercalate_cons [] f fs).symm, List.forall_mem_cons.mpr ⟨?_, hFields⟩⟩
      exact field_of_digits (List.forall_mem_nil _)
    · refine ⟨c :: f, fs, ?_, List.forall_mem_cons.mpr ⟨⟨?_, ?_⟩, hRest⟩⟩
      · cases fs with
        | nil => simp only [List.intercalate_singleton]
        | cons g fs => rw [intercalate_cons, intercalate_cons, List.cons_append]
      · intro hMem
        rcases List.mem_cons.mp hMem with hHere | hBehind
        · exact hDot hHere.symm
        · exact hField.noDot hBehind
      · exact List.forall_mem_cons.mpr ⟨hHead, hField.noEnd⟩

def addressPart (src : List Char) : List Char := (src.dropWhile (· = ' ')).takeWhile (¬ EndsAddress ·)

theorem noEnd_addressPart (src : List Char) : ∀ c ∈ addressPart src, ¬ EndsAddress c := by
  intro c hc
  have hAll := List.all_takeWhile (p := fun c => decide (¬ EndsAddress c)) (l := src.dropWhile (· = ' '))
  exact of_decide_eq_true (List.all_eq_true.mp hAll c hc)

theorem takeWhile_of_ends {text rest : List Char} (hText : ∀ c ∈ text, ¬ EndsAddress c)
    (hRest : ∀ c ∈ rest.head?, EndsAddress c) : (text ++ rest).takeWhile (¬ EndsAddress ·) = text := by
  rw [List.takeWhile_append_of_pos fun c hc => decide_eq_true (hText c hc)]
  cases rest with
  | nil => rw [List.takeWhile_nil, List.append_nil]
  | cons c rest =>
    have hEnd : decide (¬ EndsAddress c) = false := decide_eq_false (not_not_intro (hRest c rfl))
    rw [List.takeWhile_cons, hEnd, if_neg Bool.false_ne_true, List.append_nil]

theorem noEnd_intercalate {fields : List (List Char)} (h : ∀ f ∈ fields, Field f) :
    ∀ c ∈ ['.'].intercalate fields, ¬ EndsAddress c := by
  induction fields with
  | nil => exact List.forall_mem_nil _
  | cons f fs ih =>
    obtain ⟨hField, hRest⟩ := List.forall_mem_cons.mp h
    cases fs with
    | nil =>
      rw [List.intercalate_singleton]
      exact hField.noEnd
    | cons g fs =>
      intro c hc
      rw [intercalate_cons, List.mem_append, List.mem_cons] at hc
      rcases hc with hHere | rfl | hBehind
      · exact hField.noEnd c hHere
      · decide
      · exact ih hRest c hBehind

section Dotted

variable {src : List Char} {fields : List (List Char)} (h : Dotted src fields)
include h

theorem Dotted.field : ∀ f ∈ fields, Field f := fun f hf => field_of_digits (h.digits f hf)

theorem Dotted.ne_nil : fields ≠ [] := by
  rintro rfl
  cases h.four

theorem Dotted.dropWhile : ∃ rest, src.dropWhile (· = ' ') = ['.'].intercalate fields ++ rest ∧
    ∀ c ∈ rest.head?, EndsAddress c := by
  obtain ⟨spaces, rest, rfl, hSpaces, hRest⟩ := h.layout
  refine ⟨rest, ?_, hRest⟩
  rw [List.dropWhile_append_of_pos fun c hc => decide_eq_true (hSpaces c hc)]
  have hNoEnd := noEnd_intercalate h.field
  have hFour := h.four
  obtain ⟨f, g, fs, rfl⟩ : ∃ f g fs, fields = f :: g :: fs := by
    rcases fields with _ | ⟨f, _ | ⟨g, fs⟩⟩
    · cases hFour
    · cases hFour
    · exact ⟨f, g, fs, rfl⟩
  rw [intercalate_cons] at hNoEnd ⊢
  obtain ⟨c, text, hText⟩ : ∃ c text, f ++ '.' :: ['.'].intercalate (g :: fs) = c :: text := by
    cases f with
    | nil => exact ⟨_, _, rfl⟩
    | cons c f => exact ⟨_, _, rfl⟩
  rw [hText] at hNoEnd ⊢
  have hSpace : decide (c = ' ') = false := decide_eq_false fun hEq => hNoEnd c List.mem_cons_self (Or.inl hEq)
  rw [List.cons_append, List.dropWhile_cons, hSpace, if_neg Bool.false_ne_true]

theorem Dotted.addressPart_eq : addressPart src = ['.'].intercalate fields := by
  obtain ⟨rest, hDrop, hRest⟩ := h.dropWhile
  rw [addressPart, hDrop, takeWhile_of_ends (noEnd_intercalate h.field) hRest]

theorem Dotted.unique {fields' : List (List Char)} (h' : Dotted src fields') : fields = fields' := by
  have hSplit := List.splitOn_intercalate '.' (fun f hf => (h.field f hf).noDot) h.ne_nil
  have hSplit' := List.splitOn_intercalate '.' (fun f hf => (h'.field f hf).noDot) h'.ne_nil
  rw [← hSplit, ← h.addressPart_eq, h'.addressPart_eq, hSplit']

end Dotted

/-! ### The value -/

theorem push_eq (ip : BitVec 32) {octet : Nat} (h : octet ≤ 255) :
    push ip octet = BitVec.ofNat 32 (ip.toNat * 256 + octet) := by
  apply BitVec.eq_of_toNat_eq
  have hOr : ip <<< 8 ||| BitVec.ofNat 32 octet = ip <<< 8 + BitVec.ofNat 32 octet := by
    refine (BitVec.add_eq_or_of_and_eq_zero _ _ ?_).symm
    apply BitVec.eq_of_getLsbD_eq
    intro i hi
    rw [BitVec.getLsbD_and, BitVec.getLsbD_shiftLeft, BitVec.getLsbD_ofNat]
    by_cases hLow : i < 8
    · simp [hLow]
    · have hPow : octet < 2 ^ i := lt_of_lt_of_le (by omega : octet < 2 ^ 8) (Nat.pow_le_pow_right (by decide) (by omega))
      simp [Nat.testBit_lt_two_pow hPow]
  rw [push, hOr, BitVec.toNat_add, BitVec.toNat_shiftLeft, BitVec.toNat_ofNat, BitVec.toNat_ofNat, Nat.shiftLeft_eq]
  omega

theorem foldl_push {octets : List Nat} (h : ∀ octet ∈ octets, octet ≤ 255) (n : Nat) :
    octets.foldl push (BitVec.ofNat 32 n) = BitVec.ofNat 32 (value 256 id octets n) := by
  induction octets generalizing n with
  | nil => rfl
  | cons octet octets ih =>
    obtain ⟨hSmall, hRest⟩ := List.forall_mem_cons.mp h
    have hMod : BitVec.ofNat 32 (n % 2 ^ 32 * 256 + octet) = BitVec.ofNat 32 (n * 256 + octet) := by
      apply BitVec.eq_of_toNat_eq
      rw [BitVec.toNat_ofNat, BitVec.toNat_ofNat]
      omega
    rw [List.foldl_cons, push_eq _ hSmall, BitVec.toNat_ofNat, hMod, ih hRest]
    rfl

theorem foldl_push_fields {f : List Char} {fs : List (List Char)} (h : ∀ g ∈ f :: fs, decimal g ≤ 255) :
    (fs.map decimal).foldl push (push 0 (decimal f)) = address (f :: fs) := by
  have hFold := foldl_push (List.forall_mem_map.mpr h) 0
  rw [List.map_cons, List.foldl_cons] at hFold
  exact hFold.trans (congrArg (BitVec.ofNat 32) List.foldl_map)

/-! ### The parser -/

theorem parseIpv4String_eq_some {src : List Char} {ip : BitVec 32} :
    parseIpv4String src = some ip ↔ Yields (src.dropWhile (· = ' ')) 0 0 0 ip := by
  unfold parseIpv4String Yields
  split
  case isTrue hNil =>
    subst hNil
    simp [parseIpv4Loop]
  case isFalse =>
    cases parseIpv4Loop (src.dropWhile (· = ' ')) 0 0 0 with
    | none => simp
    | some r =>
      obtain ⟨ip', octet', parts⟩ := r
      by_cases hParts : parts = 3
      · subst hParts
        simp [push]
      · simp [hParts]

theorem parseIpv4String_iff {src : List Char} {ip : BitVec 32} :
    parseIpv4String src = some ip ↔ ∃ fields, Dotted src fields ∧ ip = address fields := by
  rw [parseIpv4String_eq_some]
  constructor
  · intro hYields
    obtain ⟨f, fs, hText, hFields⟩ := exists_fields (noEnd_addressPart src)
    have hRest : ∀ c ∈ ((src.dropWhile (· = ' ')).dropWhile (¬ EndsAddress ·)).head?, EndsAddress c := by
      intro c hc
      have hHead := List.head?_dropWhile_not (fun c => decide (¬ EndsAddress c)) (src.dropWhile (· = ' '))
      rw [hc] at hHead
      exact not_not.mp (of_decide_eq_false hHead)
    have hSplit : src.dropWhile (· = ' ') =
        ['.'].intercalate (f :: fs) ++ (src.dropWhile (· = ' ')).dropWhile (¬ EndsAddress ·) := by
      rw [← hText, addressPart, List.takeWhile_append_dropWhile]
    rw [hSplit, yields_fields hFields hRest (Nat.zero_le 255)] at hYields
    obtain ⟨⟨hDigits, hFirst, hSmall⟩, hParts, hOut⟩ := hYields
    have hAll : ∀ g ∈ f :: fs, decimal g ≤ 255 := List.forall_mem_cons.mpr ⟨hFirst, hSmall⟩
    refine ⟨f :: fs, ⟨⟨src.takeWhile (· = ' '), _, ?_, ?_, hRest⟩, ?_, hDigits, hAll⟩, ?_⟩
    · rw [← hSplit, List.takeWhile_append_dropWhile]
    · intro c hc
      exact of_decide_eq_true (List.all_eq_true.mp List.all_takeWhile c hc)
    · rw [List.length_cons]
      omega
    · rw [← hOut]
      exact foldl_push_fields hAll
  · rintro ⟨fields, hDotted, rfl⟩
    obtain ⟨rest, hDrop, hRest⟩ := hDotted.dropWhile
    have hFour := hDotted.four
    cases fields with
    | nil => cases hFour
    | cons f fs =>
      rw [hDrop, yields_fields hDotted.field hRest (Nat.zero_le 255)]
      obtain ⟨hFirst, hSmall⟩ := List.forall_mem_cons.mp hDotted.small
      rw [List.length_cons] at hFour
      exact ⟨⟨hDotted.digits, hFirst, hSmall⟩, by omega, foldl_push_fields hDotted.small⟩

theorem parsesRight_iff (src : List Char) : ParsesRight src ↔ ¬ HasEmptyOctet src := by
  constructor
  · rintro hRight ⟨fields, hDotted, hEmpty⟩
    obtain ⟨octets, hOctets, hFull, -⟩ := (hRight (address fields)).mp (parseIpv4String_iff.mpr ⟨fields, hDotted, rfl⟩)
    rw [hDotted.unique hOctets] at hEmpty
    exact hFull hEmpty
  · intro hNone ip
    rw [parseIpv4String_iff]
    constructor
    · rintro ⟨fields, hDotted, hAddress⟩
      exact ⟨fields, hDotted, fun hEmpty => hNone ⟨fields, hDotted, hEmpty⟩, hAddress⟩
    · rintro ⟨octets, hDotted, -, hAddress⟩
      exact ⟨octets, hDotted, hAddress⟩

/-! ### Writing and reading back -/

theorem ofNat_digit_isDigit : ∀ k < 10, IsDigit (Char.ofNat ('0'.toNat + k)) ∧ digitOf (Char.ofNat ('0'.toNat + k)) = k := by
  decide

theorem isDigit_octetChars (octet : Nat) : ∀ c ∈ octetChars octet, IsDigit c := by
  intro c hc
  have hDigit : ∀ n, IsDigit (Char.ofNat ('0'.toNat + n % 10)) := fun n =>
    (ofNat_digit_isDigit (n % 10) (Nat.mod_lt n (by decide))).1
  rw [octetChars, List.mem_append, List.mem_append] at hc
  rcases hc with (hc | hc) | hc
  · split at hc
    · rw [List.mem_singleton.mp hc]
      exact hDigit _
    · cases hc
  · split at hc
    · rw [List.mem_singleton.mp hc]
      exact hDigit _
    · cases hc
  · rw [List.mem_singleton.mp hc]
    exact hDigit _

theorem decimal_octetChars {octet : Nat} (h : octet ≤ 255) : decimal (octetChars octet) = octet := by
  have hDigit : ∀ n, digitOf (Char.ofNat ('0'.toNat + n % 10)) = n % 10 := fun n =>
    (ofNat_digit_isDigit (n % 10) (Nat.mod_lt n (by decide))).2
  rw [decimal, octetChars]
  split
  · rw [if_pos (by omega)]
    simp only [List.cons_append, List.nil_append, value_cons, value_nil, hDigit]
    omega
  split
  · simp only [List.nil_append, List.cons_append, value_cons, value_nil, hDigit]
    omega
  · simp only [List.nil_append, value_cons, value_nil, hDigit]
    omega

theorem length_octetChars_le (octet : Nat) : (octetChars octet).length ≤ 3 := by
  unfold octetChars
  split <;> split <;> simp

theorem octetChars_ne_nil (octet : Nat) : octetChars octet ≠ [] := List.append_ne_nil_of_right_ne_nil _ (List.cons_ne_nil _ _)

structure Wrote (text : List Char) (s : Buffer Char × Nat) : Prop where
  shows : s.1.text s.2 = text
  place : s.2 = text.length

theorem Wrote.store {text : List Char} {s : Buffer Char × Nat} (h : Wrote text s) (c : Char) :
    Wrote (text ++ [c]) (s.1.store s.2 c, s.2 + 1) := by
  constructor
  · rw [Buffer.text_store_self, h.shows]
  · rw [h.place, List.length_append, List.length_singleton]

section Format

variable {ip : BitVec 32} {max : Int} {text : List Char} {s : Buffer Char × Nat}

theorem wrote_copyTmp {tmp : List Char} (h : Wrote text s) (hRoom : ((text ++ tmp).length : Int) < max) :
    Wrote (text ++ tmp) (copyTmp max tmp s) := by
  induction tmp generalizing text s with
  | nil =>
    rw [List.append_nil]
    exact h
  | cons c tmp ih =>
    have hPlace := h.place
    have hNext := h.store c
    rw [List.append_cons] at hRoom ⊢
    have hHere : (s.2 : Int) < max - 1 := by
      simp only [List.length_append, List.length_singleton] at hRoom
      omega
    rw [copyTmp, if_pos hHere]
    exact ih hNext hRoom

theorem wrote_formatPart {part octet : Nat} (h : Wrote text s) (hMax : 16 ≤ max) (hPart : part < 3)
    (hOctet : ((ip >>> (24 - 8 * part)) &&& 0xFF).toNat = octet) (hRoom : (text ++ octetChars octet).length < 15) :
    Wrote (text ++ octetChars octet ++ ['.']) (formatPart ip max s part) := by
  have hCopied := @wrote_copyTmp max text s _ h (by omega : ((text ++ octetChars octet).length : Int) < max)
  have hHere : part < 3 ∧ ((copyTmp max (octetChars octet) s).2 : Int) < max - 1 := by
    rw [hCopied.place]
    exact ⟨hPart, by omega⟩
  rw [formatPart]
  dsimp only
  rw [hOctet, if_pos hHere]
  exact hCopied.store '.'

theorem wrote_formatLast {octet : Nat} (h : Wrote text s) (hMax : 16 ≤ max)
    (hOctet : ((ip >>> 0) &&& 0xFF).toNat = octet) (hRoom : (text ++ octetChars octet).length ≤ 15) :
    Wrote (text ++ octetChars octet) (formatPart ip max s 3) := by
  rw [formatPart]
  dsimp only
  rw [show 24 - 8 * 3 = 0 from rfl, hOctet, if_neg (fun hLess => absurd hLess.1 (by decide))]
  exact wrote_copyTmp h (by omega)

end Format

def octetsOf (ip : BitVec 32) : List Nat :=
  [ip.toNat / 2 ^ 24 % 256, ip.toNat / 2 ^ 16 % 256, ip.toNat / 2 ^ 8 % 256, ip.toNat % 256]

theorem toNat_octet (ip : BitVec 32) (shift : Nat) : ((ip >>> shift) &&& 0xFF).toNat = ip.toNat / 2 ^ shift % 256 := by
  rw [BitVec.toNat_and, BitVec.toNat_ushiftRight, Nat.shiftRight_eq_div_pow]
  exact Nat.and_two_pow_sub_one_eq_mod _ 8

def addressText (ip : BitVec 32) : List Char := ['.'].intercalate ((octetsOf ip).map octetChars)

theorem addressText_eq (ip : BitVec 32) : addressText ip =
    [] ++ octetChars (ip.toNat / 2 ^ 24 % 256) ++ ['.'] ++ octetChars (ip.toNat / 2 ^ 16 % 256) ++ ['.'] ++
      octetChars (ip.toNat / 2 ^ 8 % 256) ++ ['.'] ++ octetChars (ip.toNat % 256) := by
  rw [addressText, octetsOf, List.map_cons, List.map_cons, List.map_cons, List.map_cons, List.map_nil, intercalate_cons,
    intercalate_cons, intercalate_cons, List.intercalate_singleton]
  simp only [List.nil_append, List.append_assoc, List.cons_append]

theorem length_addressText_le (ip : BitVec 32) : (addressText ip).length ≤ 15 := by
  have hFirst := length_octetChars_le (ip.toNat / 2 ^ 24 % 256)
  have hSecond := length_octetChars_le (ip.toNat / 2 ^ 16 % 256)
  have hThird := length_octetChars_le (ip.toNat / 2 ^ 8 % 256)
  have hFourth := length_octetChars_le (ip.toNat % 256)
  rw [addressText_eq]
  simp only [List.length_append, List.length_nil, List.length_singleton]
  omega

theorem formatIpv4String_spec (ip : BitVec 32) (buf : Buffer Char) {max : Int} (h : 16 ≤ max) :
    (formatIpv4String ip buf max).text (addressText ip).length = addressText ip ∧
      (formatIpv4String ip buf max).mem (addressText ip).length = '\x00' := by
  have hLength := length_addressText_le ip
  have hLast := List.length_pos_of_ne_nil (octetChars_ne_nil (ip.toNat % 256))
  rw [addressText_eq] at hLength ⊢
  rw [List.length_append] at hLength
  have hStart : Wrote [] (buf.store 0 '\x00', 0) := ⟨rfl, rfl⟩
  have hFirst := wrote_formatPart hStart h (by decide : 0 < 3) (toNat_octet ip 24)
    (by simp only [List.length_append] at hLength ⊢; omega)
  have hSecond := wrote_formatPart hFirst h (by decide : 1 < 3) (toNat_octet ip 16)
    (by simp only [List.length_append] at hLength ⊢; omega)
  have hThird := wrote_formatPart hSecond h (by decide : 2 < 3) (toNat_octet ip 8)
    (by simp only [List.length_append, List.length_singleton] at hLength ⊢; omega)
  have hOctet := toNat_octet ip 0
  rw [Nat.pow_zero, Nat.div_one] at hOctet
  have hFourth := wrote_formatLast hThird h hOctet (by rw [List.length_append]; exact hLength)
  rw [formatIpv4String, if_neg (by omega)]
  simp only [List.foldl_cons, List.foldl_nil]
  rw [← hFourth.place]
  exact ⟨(Buffer.text_store (Nat.le_refl _) _).trans hFourth.shows, Buffer.store_self _⟩

/-! ### The round trip -/

theorem octetsOf_le (ip : BitVec 32) : ∀ octet ∈ octetsOf ip, octet ≤ 255 := by
  intro octet hMem
  have hSmall : ∀ n, n % 256 ≤ 255 := fun n => Nat.le_of_lt_succ (Nat.mod_lt n (by decide))
  simp only [octetsOf, List.mem_cons, List.not_mem_nil, or_false] at hMem
  rcases hMem with rfl | rfl | rfl | rfl
  all_goals exact hSmall _

theorem dotted_addressText (ip : BitVec 32) : Dotted (addressText ip) ((octetsOf ip).map octetChars) := by
  refine ⟨⟨[], [], ?_, List.forall_mem_nil _, ?_⟩, rfl, ?_, ?_⟩
  · rw [List.append_nil, List.nil_append, addressText]
  · intro c hc
    cases hc
  · exact List.forall_mem_map.mpr fun octet _ => isDigit_octetChars octet
  · refine List.forall_mem_map.mpr fun octet hMem => ?_
    rw [decimal_octetChars (octetsOf_le ip octet hMem)]
    exact octetsOf_le ip octet hMem

theorem address_octetsOf (ip : BitVec 32) : address ((octetsOf ip).map octetChars) = ip := by
  have hDecimal : ∀ octet ∈ octetsOf ip, decimal (octetChars octet) = octet := fun octet hMem =>
    decimal_octetChars (octetsOf_le ip octet hMem)
  have hLt := ip.isLt
  apply BitVec.eq_of_toNat_eq
  simp only [octetsOf, List.forall_mem_cons] at hDecimal
  obtain ⟨hFirst, hSecond, hThird, hFourth, -⟩ := hDecimal
  simp only [address, octetsOf, List.map_cons, List.map_nil, value_cons, value_nil, hFirst, hSecond, hThird, hFourth,
    BitVec.toNat_ofNat]
  omega

theorem nul_not_mem_addressText (ip : BitVec 32) : ∀ c ∈ addressText ip, c ≠ '\x00' := by
  have hDigits : ∀ octet, ∀ c ∈ octetChars octet, c ≠ '\x00' := by
    rintro octet c hc rfl
    exact absurd (isDigit_octetChars octet _ hc) (by decide)
  intro c hc
  simp only [addressText_eq, List.mem_append, List.mem_singleton, List.not_mem_nil, false_or] at hc
  rcases hc with (((((hc | rfl) | hc) | rfl) | hc) | rfl) | hc
  all_goals first | exact hDigits _ c hc | decide

theorem cString_eq {buf : Buffer Char} {cs : List Char} {size : Nat} (hText : buf.text cs.length = cs)
    (hEnd : buf.mem cs.length = '\x00') (hNul : ∀ c ∈ cs, c ≠ '\x00') (hSize : cs.length < size) :
    cString buf size = cs := by
  obtain ⟨more, rfl⟩ : ∃ more, size = cs.length + (more + 1) := ⟨size - cs.length - 1, by omega⟩
  have hSplit : buf.text (cs.length + (more + 1)) =
      cs ++ '\x00' :: (List.range more).map fun k => buf.mem (cs.length + (k + 1)) := by
    rw [Buffer.text, List.range_add, List.map_append, List.range_succ_eq_map]
    simp only [List.map_cons, List.map_map, Nat.add_zero, hEnd]
    exact congrArg (· ++ _) hText
  rw [cString, hSplit, List.takeWhile_append_of_pos fun c hc => decide_eq_true (hNul c hc), List.takeWhile_cons,
    if_neg (by decide), List.append_nil]

theorem cString_formatIpv4String (ip : BitVec 32) (buf : Buffer Char) {max : Nat} (h : 16 ≤ max) :
    cString (formatIpv4String ip buf max) max = addressText ip := by
  obtain ⟨hText, hEnd⟩ := formatIpv4String_spec ip buf (by omega : (16 : Int) ≤ max)
  exact cString_eq hText hEnd (nul_not_mem_addressText ip) ((length_addressText_le ip).trans_lt (by omega))

/-- The parser accepts the grammar exactly if no octet is left empty; an address that was written into 16 bytes or more
is read back. -/
theorem ipv4_text_right_iff (src : List Char) (ip : BitVec 32) (buf : Buffer Char) (more : Nat) :
    (ParsesRight src ↔ ¬ HasEmptyOctet src) ∧
      parseIpv4String (cString (formatIpv4String ip buf ((16 + more : Nat) : Int)) (16 + more)) = some ip := by
  refine ⟨parsesRight_iff src, ?_⟩
  rw [cString_formatIpv4String ip buf (by omega)]
  exact parseIpv4String_iff.mpr ⟨_, dotted_addressText ip, (address_octetsOf ip).symm⟩

theorem three_dots_not_right : ¬ ParsesRight ['.', '.', '.'] := by
  intro hRight
  obtain ⟨octets, hOctets, hFull, -⟩ := (hRight 0).mp (by decide)
  have hDotted : Dotted ['.', '.', '.'] [[], [], [], []] :=
    ⟨⟨[], [], rfl, List.forall_mem_nil _, fun c hc => by cases hc⟩, rfl, by simp, by decide⟩
  rw [← hDotted.unique hOctets] at hFull
  exact hFull List.mem_cons_self

end UnixOS.Terminal
