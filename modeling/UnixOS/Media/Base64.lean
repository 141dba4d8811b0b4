import Mathlib.Algebra.GroupWithZero.Nat
import Mathlib.Tactic.IntervalCases
import UnixOS.Media.Zip

/-! # Base64 text

`media_decode_base64` of `kernel/media/media.c`. The accumulator keeps old bits above the ones that count,
and the shifts push them out at the top: what a round depends on is the accumulator below `acc_bits`.
-/

namespace UnixOS.Media

open Fs

def eFBig : Int := 27

def mediaBase64Value (ch : UInt8) : Int :=
  if 0x41 ≤ ch ∧ ch ≤ 0x5A then ch.toNat - 0x41
  else if 0x61 ≤ ch ∧ ch ≤ 0x7A then ch.toNat - 0x61 + 26
  else if 0x30 ≤ ch ∧ ch ≤ 0x39 then ch.toNat - 0x30 + 52
  else if ch = 0x2B then 62
  else if ch = 0x2F then 63
  else -1

def padding : UInt8 := 0x3D

/-- `'\r'`, `'\n'`, `'\t'` and `' '` -/
def isSpace (ch : UInt8) : Bool := ch = 0x0D ∨ ch = 0x0A ∨ ch = 0x09 ∨ ch = 0x20

structure Base64State where
  acc : UInt32
  accBits : Nat
  sawPadding : Bool
  dst : List UInt8

/-- The loop that writes out whole bytes; it has at most `acc_bits` rounds. `none` is `-EFBIG`. -/
def drainBytes (cap : Nat) : Nat → Base64State → Option Base64State
  | 0, st => some st
  | fuel + 1, st =>
    if 8 ≤ st.accBits then
      if cap ≤ st.dst.length then none
      else drainBytes cap fuel { st with
        accBits := st.accBits - 8, dst := st.dst ++ [((st.acc >>> UInt32.ofNat (st.accBits - 8)) &&& 0xFF).toUInt8] }
    else some st

/-- What is returned, and what the buffer holds then. -/
def base64Loop (cap : Nat) : List UInt8 → Base64State → Int × List UInt8
  | [], st => (0, st.dst)
  | ch :: rest, st =>
    let st := if ch = padding then { st with sawPadding := true } else st
    if isSpace ch then base64Loop cap rest st
    else if ch = padding then (0, st.dst)
    else
      let val := mediaBase64Value ch
      if val < 0 ∨ st.sawPadding then (-eInval, st.dst)
      else
        let st := { st with acc := (st.acc <<< 6) ||| UInt32.ofNat val.toNat, accBits := st.accBits + 6 }
        match drainBytes cap st.accBits st with
        | none => (-eFBig, st.dst)
        | some st => base64Loop cap rest st

def base64Cap (srcLen : Nat) : Nat := srcLen / 4 * 3 + 3

/-- `granted` says whether `kmalloc` has memory. -/
def mediaDecodeBase64 (granted : Bool) (src : List UInt8) : Int × List UInt8 :=
  if granted then base64Loop (base64Cap src.length) src ⟨0, 0, false, []⟩ else (-eNoMem, [])

/-! ### The encoding -/

def base64Alphabet : List UInt8 :=
  (List.range 26).map (fun v => UInt8.ofNat (0x41 + v)) ++ (List.range 26).map (fun v => UInt8.ofNat (0x61 + v)) ++
    (List.range 10).map (fun v => UInt8.ofNat (0x30 + v)) ++ [0x2B, 0x2F]

def base64Char (v : Nat) : UInt8 := base64Alphabet.getD v 0

def sextets : List UInt8 → List Nat
  | a :: b :: c :: rest =>
    a.toNat / 4 :: (a.toNat % 4 * 16 + b.toNat / 16) :: (b.toNat % 16 * 4 + c.toNat / 64) :: c.toNat % 64 :: sextets rest
  | [a, b] => [a.toNat / 4, a.toNat % 4 * 16 + b.toNat / 16, b.toNat % 16 * 4]
  | [a] => [a.toNat / 4, a.toNat % 4 * 16]
  | [] => []

/-- RFC 4648, with or without the padding at the end. -/
def base64Encode (padded : Bool) (bytes : List UInt8) : List UInt8 :=
  (sextets bytes).map base64Char ++ List.replicate (if padded then (3 - bytes.length % 3) % 3 else 0) padding

def regroup (k r : Nat) : List Nat → List UInt8
  | [] => []
  | v :: rest =>
    if k < 2 then regroup (k + 6) (r * 64 + v) rest
    else UInt8.ofNat ((r * 64 + v) / 2 ^ (k - 2)) :: regroup (k - 2) ((r * 64 + v) % 2 ^ (k - 2)) rest

theorem sextets_lt (bytes : List UInt8) : ∀ v ∈ sextets bytes, v < 64 := by
  induction bytes using sextets.induct with
  | case1 a b c rest ih =>
    have := a.toNat_lt
    have := b.toNat_lt
    have := c.toNat_lt
    simp only [sextets, List.forall_mem_cons]
    exact ⟨by omega, by omega, by omega, by omega, ih⟩
  | case2 a b =>
    have := a.toNat_lt
    have := b.toNat_lt
    simp only [sextets, List.forall_mem_cons]
    exact ⟨by omega, by omega, by omega, nofun⟩
  | case3 a =>
    have := a.toNat_lt
    simp only [sextets, List.forall_mem_cons]
    exact ⟨by omega, by omega, nofun⟩
  | case4 => exact nofun

section Regroup

variable {r v : Nat} {rest : List Nat}

theorem regroup_zero : regroup 0 r (v :: rest) = regroup 6 (r * 64 + v) rest :=
  rfl

theorem regroup_six : regroup 6 r (v :: rest) = UInt8.ofNat ((r * 64 + v) / 16) :: regroup 4 ((r * 64 + v) % 16) rest :=
  rfl

theorem regroup_four : regroup 4 r (v :: rest) = UInt8.ofNat ((r * 64 + v) / 4) :: regroup 2 ((r * 64 + v) % 4) rest :=
  rfl

theorem regroup_two : regroup 2 r (v :: rest) = UInt8.ofNat ((r * 64 + v) / 1) :: regroup 0 ((r * 64 + v) % 1) rest :=
  rfl

end Regroup

theorem ofNat_eq_of_toNat {n : Nat} {a : UInt8} (h : n = a.toNat) : UInt8.ofNat n = a := by
  rw [h, UInt8.ofNat_toNat]

theorem regroup_sextets (bytes : List UInt8) : regroup 0 0 (sextets bytes) = bytes := by
  induction bytes using sextets.induct with
  | case1 a b c rest ih =>
    have := a.toNat_lt
    have := b.toNat_lt
    have := c.toNat_lt
    rw [sextets, regroup_zero, regroup_six, regroup_four, regroup_two, Nat.mod_one, ih]
    congr 1
    · exact ofNat_eq_of_toNat (by omega)
    congr 1
    · exact ofNat_eq_of_toNat (by omega)
    congr 1
    exact ofNat_eq_of_toNat (by omega)
  | case2 a b =>
    have := a.toNat_lt
    have := b.toNat_lt
    rw [sextets, regroup_zero, regroup_six, regroup_four, regroup]
    congr 1
    · exact ofNat_eq_of_toNat (by omega)
    congr 1
    exact ofNat_eq_of_toNat (by omega)
  | case3 a =>
    have := a.toNat_lt
    rw [sextets, regroup_zero, regroup_six, regroup]
    congr 1
    exact ofNat_eq_of_toNat (by omega)
  | case4 => rfl

/-! ### Characters -/

section Characters

variable {ch : UInt8} {v : Nat}

theorem mediaBase64Value_char (hv : v < 64) : mediaBase64Value (base64Char v) = v := by
  have hAll : ∀ v < 64, mediaBase64Value (base64Char v) = v := by decide
  exact hAll v hv

theorem mediaBase64Value_special (h : isSpace ch = true ∨ ch = padding) : mediaBase64Value ch = -1 := by
  simp only [isSpace, decide_eq_true_eq] at h
  rcases h with (rfl | rfl | rfl | rfl) | rfl <;> rfl

theorem not_special_of_value (h : 0 ≤ mediaBase64Value ch) : isSpace ch = false ∧ ch ≠ padding := by
  constructor
  · by_contra hSpace
    rw [mediaBase64Value_special (.inl (Bool.not_eq_false _ ▸ hSpace))] at h
    exact absurd h (by decide)
  · rintro rfl
    exact absurd h (by decide)

end Characters

/-! ### Rounds of the loop -/

namespace Base64State

/-- The number that the bits below `acc_bits` make. -/
def pending (st : Base64State) : Nat := st.acc.toNat % 2 ^ st.accBits

def push (st : Base64State) (v : Nat) : Base64State :=
  let acc := (st.acc <<< 6) ||| UInt32.ofNat v
  if st.accBits < 2 then { st with acc := acc, accBits := st.accBits + 6 }
  else { st with
    acc := acc, accBits := st.accBits - 2, dst := st.dst ++ [((acc >>> UInt32.ofNat (st.accBits - 2)) &&& 0xFF).toUInt8] }

/-- Between two rounds, with `more` characters to come, the bits so far and the bits to come are fewer than the buffer has. -/
structure Ready (cap more : Nat) (st : Base64State) : Prop where
  accBits : st.accBits < 8
  noPadding : st.sawPadding = false
  room : 8 * st.dst.length + st.accBits + 6 * more < 8 * cap

variable {cap more : Nat} {st : Base64State} {v : Nat}

theorem Ready.push (h : st.Ready cap (more + 1)) (v : Nat) : (st.push v).Ready cap more := by
  obtain ⟨hBits, hPadding, hRoom⟩ := h
  unfold Base64State.push
  split
  case isTrue hFew => exact ⟨by dsimp only; omega, hPadding, by dsimp only; omega⟩
  case isFalse hByte =>
    exact ⟨by dsimp only; omega, hPadding, by rw [List.length_append, List.length_singleton]; dsimp only; omega⟩

theorem Ready.mono {less : Nat} (h : st.Ready cap more) (hLe : less ≤ more) : st.Ready cap less :=
  ⟨h.accBits, h.noPadding, by have := h.room; omega⟩

theorem Ready.length_lt (h : st.Ready cap more) : st.dst.length < cap := by
  have := h.room
  omega

theorem toNat_shift_or (acc : UInt32) (hv : v < 64) :
    ((acc <<< 6) ||| UInt32.ofNat v).toNat = (acc.toNat * 64 + v) % 2 ^ 32 := by
  have hShift : acc.toNat * 64 % 2 ^ 32 = (acc.toNat % 2 ^ 26) <<< 6 := by
    rw [Nat.shiftLeft_eq]
    omega
  have hOr := Nat.shiftLeft_add_eq_or_of_lt (show v < 2 ^ 6 from hv) (acc.toNat % 2 ^ 26)
  rw [UInt32.toNat_or, UInt32.toNat_shiftLeft, UInt32.toNat_ofNat_of_lt' (by simp [UInt32.size]; omega)]
  show acc.toNat <<< 6 % 2 ^ 32 ||| v = _
  rw [Nat.shiftLeft_eq acc.toNat, hShift, ← hOr, ← hShift]
  omega

theorem mod_add_six (a k v : Nat) (hv : v < 64) : (a * 64 + v) % 2 ^ (k + 6) = a % 2 ^ k * 64 + v := by
  rw [Nat.pow_add, Nat.mul_comm (2 ^ k), Nat.mod_mul, show a * 64 + v = v + 2 ^ 6 * a by omega, Nat.add_mul_mod_self_left,
    Nat.add_mul_div_left _ _ (by decide), Nat.mod_eq_of_lt (by omega : v < 2 ^ 6), Nat.div_eq_of_lt (by omega : v < 2 ^ 6),
    Nat.zero_add]
  omega

theorem push_pending (h : st.accBits < 8) (hv : v < 64) :
    (st.push v).pending = (st.pending * 64 + v) % 2 ^ (st.push v).accBits := by
  have hAcc : (st.push v).acc.toNat = (st.acc.toNat * 64 + v) % 2 ^ 32 := by
    rw [← toNat_shift_or st.acc hv, push]
    split <;> rfl
  have hLe : (st.push v).accBits ≤ st.accBits + 6 := by
    unfold push
    split
    · exact le_rfl
    · dsimp only
      omega
  rw [pending, pending, hAcc, Nat.mod_mod_of_dvd _ (Nat.pow_dvd_pow 2 (by omega)), ← mod_add_six _ _ _ hv,
    Nat.mod_mod_of_dvd _ (Nat.pow_dvd_pow 2 hLe)]

theorem push_byte (h : st.accBits < 8) (hByte : ¬ st.accBits < 2) (hv : v < 64) :
    ((((st.acc <<< 6) ||| UInt32.ofNat v) >>> UInt32.ofNat (st.accBits - 2)) &&& 0xFF).toUInt8 =
      UInt8.ofNat ((st.pending * 64 + v) / 2 ^ (st.accBits - 2)) := by
  have hShift : (UInt32.ofNat (st.accBits - 2)).toNat % 32 = st.accBits - 2 := by
    rw [UInt32.toNat_ofNat_of_lt' (by simp [UInt32.size]; omega)]
    omega
  have hMod : (st.acc.toNat * 64 + v) % 2 ^ 32 / 2 ^ (st.accBits - 2) % 2 ^ 8 =
      (st.pending * 64 + v) / 2 ^ (st.accBits - 2) % 2 ^ 8 := by
    rw [← Nat.mod_mul_right_div_self, ← Nat.mod_mul_right_div_self, ← Nat.pow_add, pending, ← mod_add_six _ _ _ hv,
      Nat.mod_mod_of_dvd _ (Nat.pow_dvd_pow 2 (by omega)), Nat.mod_mod_of_dvd _ (Nat.pow_dvd_pow 2 (by omega))]
  refine UInt8.toNat_inj.mp ?_
  rw [UInt32.toNat_toUInt8, UInt32.toNat_and, UInt32.toNat_shiftRight, toNat_shift_or _ hv, hShift, Nat.shiftRight_eq_div_pow,
    UInt8.toNat_ofNat']
  show (_ &&& (2 ^ 8 - 1)) % 2 ^ 8 = _
  rw [Nat.and_two_pow_sub_one_eq_mod, Nat.mod_mod, hMod]

theorem push_regroup (h : st.accBits < 8) (hv : v < 64) (rest : List Nat) :
    st.dst ++ regroup st.accBits st.pending (v :: rest) =
      (st.push v).dst ++ regroup (st.push v).accBits (st.push v).pending rest := by
  rw [push_pending h hv, regroup]
  unfold push
  split
  case isTrue hFew =>
    have hLt : st.pending < 2 ^ st.accBits := Nat.mod_lt _ (Nat.two_pow_pos _)
    dsimp only
    rw [Nat.mod_eq_of_lt]
    rw [Nat.pow_add]
    omega
  case isFalse hByte =>
    dsimp only
    rw [push_byte h hByte hv, List.append_assoc]
    rfl

end Base64State

section Loop

variable {cap : Nat} {ch : UInt8} {rest text : List UInt8} {st : Base64State}

theorem drainBytes_few (h : st.accBits < 8) (fuel : Nat) : drainBytes cap fuel st = some st := by
  cases fuel with
  | zero => rfl
  | succ fuel => rw [drainBytes, if_neg (by omega)]

theorem drainBytes_one (h : 8 ≤ st.accBits) (hFew : st.accBits < 16) (hRoom : st.dst.length < cap) :
    drainBytes cap st.accBits st = some { st with
      accBits := st.accBits - 8, dst := st.dst ++ [((st.acc >>> UInt32.ofNat (st.accBits - 8)) &&& 0xFF).toUInt8] } := by
  obtain ⟨fuel, hFuel⟩ : ∃ fuel, st.accBits = fuel + 1 := ⟨st.accBits - 1, by omega⟩
  rw [hFuel, drainBytes, if_pos (by omega), if_neg (by omega), drainBytes_few (by dsimp only; omega), hFuel]

theorem drainBytes_push {more v : Nat} (h : st.Ready cap (more + 1)) :
    drainBytes cap (st.accBits + 6) { st with
      acc := (st.acc <<< 6) ||| UInt32.ofNat v, accBits := st.accBits + 6 } = some (st.push v) := by
  have hBits := h.accBits
  have hRoom := h.room
  unfold Base64State.push
  split
  case isTrue hFew => exact drainBytes_few (by dsimp only; omega) _
  case isFalse hByte =>
    have hDrain := @drainBytes_one cap { st with acc := (st.acc <<< 6) ||| UInt32.ofNat v, accBits := st.accBits + 6 }
      (by dsimp only; omega) (by dsimp only; omega) (by dsimp only; omega)
    rwa [show st.accBits + 6 - 8 = st.accBits - 2 by omega] at hDrain

theorem base64Loop_space (h : isSpace ch = true) : base64Loop cap (ch :: rest) st = base64Loop cap rest st := by
  have hSymbol : ch ≠ padding := by
    rintro rfl
    exact absurd h (by decide)
  rw [base64Loop, if_pos h, if_neg hSymbol]

theorem base64Loop_padding : base64Loop cap (padding :: rest) st = (0, st.dst) := by
  rw [base64Loop, if_neg (by decide), if_pos rfl]
  rfl

theorem base64Loop_other (hSpace : ¬ isSpace ch = true) (hSymbol : ch ≠ padding) (h : mediaBase64Value ch < 0) :
    base64Loop cap (ch :: rest) st = (-eInval, st.dst) := by
  rw [base64Loop, if_neg hSpace, if_neg hSymbol, if_neg hSymbol]
  exact if_pos (.inl h)

theorem base64Loop_symbol (h : 0 ≤ mediaBase64Value ch) (hReady : st.Ready cap (rest.length + 1)) :
    base64Loop cap (ch :: rest) st = base64Loop cap rest (st.push (mediaBase64Value ch).toNat) := by
  obtain ⟨hSpace, hSymbol⟩ := not_special_of_value h
  have hValid : ¬ (mediaBase64Value ch < 0 ∨ st.sawPadding = true) := by
    rw [hReady.noPadding]
    simpa using h
  rw [base64Loop, if_neg (by rw [hSpace]; exact Bool.false_ne_true), if_neg hSymbol, if_neg hSymbol]
  dsimp only
  rw [if_neg hValid, drainBytes_push hReady]

theorem ok_ne_eFBig : (0 : Int) ≠ -eFBig := by decide

theorem eInval_ne_eFBig : -eInval ≠ -eFBig := by decide

theorem eNoMem_ne_eFBig : -eNoMem ≠ -eFBig := by decide

theorem base64Loop_fits (hReady : st.Ready cap text.length) :
    (base64Loop cap text st).1 ≠ -eFBig ∧ (base64Loop cap text st).2.length < cap := by
  induction text generalizing st with
  | nil => exact ⟨ok_ne_eFBig, hReady.length_lt⟩
  | cons ch rest ih =>
    by_cases hSpace : isSpace ch = true
    · rw [base64Loop_space hSpace]
      exact ih (hReady.mono (Nat.le_succ _))
    · by_cases hSymbol : ch = padding
      · rw [hSymbol, base64Loop_padding]
        exact ⟨ok_ne_eFBig, hReady.length_lt⟩
      · rcases lt_or_ge (mediaBase64Value ch) 0 with hOther | hValue
        · rw [base64Loop_other hSpace hSymbol hOther]
          exact ⟨eInval_ne_eFBig, hReady.length_lt⟩
        · rw [base64Loop_symbol hValue hReady]
          exact ih (hReady.push _)

theorem base64Loop_filter (hReady : st.Ready cap text.length) :
    base64Loop cap text st = base64Loop cap (text.filter fun ch => !isSpace ch) st := by
  induction text generalizing st with
  | nil => rfl
  | cons ch rest ih =>
    have hFewer : (rest.filter fun ch => !isSpace ch).length ≤ rest.length := List.length_filter_le _ _
    by_cases hSpace : isSpace ch = true
    · rw [base64Loop_space hSpace, List.filter_cons_of_neg (by simp [hSpace])]
      exact ih (hReady.mono (Nat.le_succ _))
    · rw [List.filter_cons_of_pos (by simp [hSpace])]
      by_cases hSymbol : ch = padding
      · rw [hSymbol, base64Loop_padding, base64Loop_padding]
      · rcases lt_or_ge (mediaBase64Value ch) 0 with hOther | hValue
        · rw [base64Loop_other hSpace hSymbol hOther, base64Loop_other hSpace hSymbol hOther]
        · rw [base64Loop_symbol hValue hReady, base64Loop_symbol hValue (hReady.mono (Nat.succ_le_succ hFewer))]
          exact ih (hReady.push _)

theorem base64Loop_symbols {values : List Nat} (hValues : ∀ v ∈ values, v < 64) (n : Nat)
    (hReady : st.Ready cap (values.length + n)) :
    base64Loop cap (values.map base64Char ++ List.replicate n padding) st =
      (0, st.dst ++ regroup st.accBits st.pending values) := by
  induction values generalizing st with
  | nil =>
    rw [List.map_nil, List.nil_append, regroup, List.append_nil]
    cases n with
    | zero => rfl
    | succ n => exact base64Loop_padding
  | cons v values ih =>
    obtain ⟨hv, hValues⟩ := List.forall_mem_cons.mp hValues
    have hChar := mediaBase64Value_char hv
    rw [List.length_cons, Nat.succ_add] at hReady
    have hMore : (values.map base64Char ++ List.replicate n padding).length = values.length + n := by simp
    rw [List.map_cons, List.cons_append, base64Loop_symbol (by omega) (hMore.symm ▸ hReady), hChar, Int.toNat_natCast,
      ih hValues (hReady.push v), Base64State.push_regroup hReady.accBits hv]

end Loop

theorem ready_base64Cap (n : Nat) : Base64State.Ready (base64Cap n) n ⟨0, 0, false, []⟩ :=
  ⟨by decide, rfl, by rw [base64Cap]; simp; omega⟩

/-- Decoding gives back the bytes that were encoded, wherever white space stands, and the buffer is never filled. -/
theorem mediaDecodeBase64_encode :
    (∀ (padded : Bool) (bytes text : List UInt8), text.filter (fun ch => !isSpace ch) = base64Encode padded bytes →
      mediaDecodeBase64 true text = (0, bytes)) ∧
    ∀ (granted : Bool) (text : List UInt8),
      (mediaDecodeBase64 granted text).1 ≠ -eFBig ∧ (mediaDecodeBase64 granted text).2.length < base64Cap text.length := by
  constructor
  · intro padded bytes text hText
    have hReady := ready_base64Cap text.length
    have hFewer : (sextets bytes).length + (if padded then (3 - bytes.length % 3) % 3 else 0) ≤ text.length := by
      calc _ = (base64Encode padded bytes).length := by simp [base64Encode]
        _ ≤ text.length := hText ▸ List.length_filter_le _ _
    rw [mediaDecodeBase64, if_pos rfl, base64Loop_filter hReady, hText, base64Encode,
      base64Loop_symbols (sextets_lt bytes) _ (hReady.mono hFewer)]
    exact congrArg (Prod.mk 0) (regroup_sextets bytes)
  · intro granted text
    cases granted with
    | true => exact base64Loop_fits (ready_base64Cap text.length)
    | false => exact ⟨eNoMem_ne_eFBig, Nat.succ_pos _⟩

theorem mediaDecodeBase64_encode_letter :
    mediaDecodeBase64 true [0x54, 0x20, 0x51, 0x3D, 0x0A, 0x3D] = (0, [0x4D]) :=
  mediaDecodeBase64_encode.1 true [0x4D] [0x54, 0x20, 0x51, 0x3D, 0x0A, 0x3D] (by decide)

end UnixOS.Media
