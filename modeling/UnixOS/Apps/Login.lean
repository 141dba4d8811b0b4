import Mathlib.Data.List.DropRight
import UnixOS.Libc.StdioFormat
import UnixOS.Libc.StdioRead

/-! # Account lookup

`find_unix_line` of `userspace/login/login.c`. The account files are read with `fgets` into a buffer of 256 bytes, and
each piece that comes back is taken for a line.
-/

namespace UnixOS.Login

open Libc

/-- The loop of `unix_line_matches_user`, and the test behind it. -/
def matchesLoop : List UInt8 → List UInt8 → Bool
  | line, [] => line.head? = some 58
  | [], _ :: _ => false
  | c :: line, u :: username => if c = u then matchesLoop line username else false

def unixLineMatchesUser (line username : List UInt8) : Bool :=
  if username = [] then false else matchesLoop line username

def IsNewline (c : UInt8) : Bool := c = 10 ∨ c = 13

def trimNewline (buf : List UInt8) : List UInt8 := buf.rdropWhile IsNewline

def copyLine (outLen : Nat) (line : List UInt8) : List UInt8 := line.take (outLen - 1)

structure Found where
  pos : Nat
  out : List UInt8
deriving DecidableEq

/-- The loop of `find_unix_line`. Every round takes a byte of the file. -/
def findLoop (offer : Nat → Option Nat) (username : List UInt8) (outLen : Nat) :
    Nat → Nat → File → Option (Option Found)
  | 0, _, _ => none
  | fuel + 1, pos, fp =>
    match fgets offer 256 fp with
    | (none, _) => some none
    | (some s, fp) =>
      let line := s.takeWhile (· ≠ 0)
      if unixLineMatchesUser line username then some (some ⟨pos, trimNewline (copyLine outLen line)⟩)
      else findLoop offer username outLen fuel (pos + s.length) fp

/-- `find_unix_line` of a file that can be opened. -/
def findUnixLine (offer : Nat → Option Nat) (content username : List UInt8) (outLen : Nat) : Option (Option Found) :=
  if outLen = 0 then some none
  else findLoop offer username outLen (content.length + 1) 0 (opened content).stream

/-! ### What a lookup is for -/

def linesOf (content : List UInt8) : List (List UInt8) := content.splitOn 10

abbrev IsRecordOf (username line : List UInt8) : Prop := username ++ [58] <+: line

/-- Carriage returns at the end belong to the newline. -/
def withoutNewline (line : List UInt8) : List UInt8 := line.rdropWhile (· = 13)

def firstRecord (username : List UInt8) (outLen : Nat) : Nat → List (List UInt8) → Option Found
  | _, [] => none
  | pos, line :: lines =>
    if IsRecordOf username line then some ⟨pos, (withoutNewline line).take (outLen - 1)⟩
    else firstRecord username outLen (pos + line.length + 1) lines

def LooksUpRight (offer : Nat → Option Nat) (content username : List UInt8) (outLen : Nat) : Prop :=
  findUnixLine offer content username outLen = some (firstRecord username outLen 0 (linesOf content))

def pieceOf (line : List UInt8) (k : Nat) : List UInt8 := (line.drop (255 * k)).take 255

/-- The line fits in the buffers, or the output cuts it, and not behind a carriage return. -/
def FitsBuffers (outLen : Nat) (line : List UInt8) : Prop :=
  (withoutNewline line).length ≤ min 255 (outLen - 1) ∨
    outLen ≤ 256 ∧ ((withoutNewline line).take (outLen - 1)).getLast? ≠ some 13

/-- Up to the first record of the user no line goes on, behind its first piece, with a piece that looks like one; and
that record, if there is one, fits in the buffers. -/
def ReadsWhole (username : List UInt8) (outLen : Nat) : List (List UInt8) → Prop
  | [] => True
  | line :: lines =>
    if IsRecordOf username line then username.length ≤ 254 ∧ FitsBuffers outLen line
    else (∀ k, 0 < k → ¬ IsRecordOf username (pieceOf line k)) ∧ ReadsWhole username outLen lines

/-! ### Matching -/

theorem matchesLoop_iff (line username : List UInt8) : matchesLoop line username = true ↔ IsRecordOf username line := by
  induction username generalizing line with
  | nil =>
    cases line with
    | nil => simp [matchesLoop]
    | cons c line =>
      rw [matchesLoop, IsRecordOf, List.nil_append, List.cons_prefix_cons]
      simp [eq_comm]
  | cons u username ih =>
    cases line with
    | nil => simp [matchesLoop]
    | cons c line =>
      rw [matchesLoop, IsRecordOf, List.cons_append, List.cons_prefix_cons]
      by_cases hSame : c = u
      · rw [if_pos hSame, ih]
        exact (and_iff_right hSame.symm).symm
      · rw [if_neg hSame]
        simp [Ne.symm hSame]

section Records

variable {username line : List UInt8}

theorem unixLineMatchesUser_iff (hUser : username ≠ []) (line : List UInt8) :
    unixLineMatchesUser line username = true ↔ IsRecordOf username line := by
  rw [unixLineMatchesUser, if_neg hUser, matchesLoop_iff]

theorem IsRecordOf.length_le (h : IsRecordOf username line) : username.length + 1 ≤ line.length := by
  have hLength := List.IsPrefix.length_le h
  rwa [List.length_append, List.length_singleton] at hLength

theorem IsRecordOf.take (h : IsRecordOf username line) {n : Nat} (hShort : username.length < n) :
    IsRecordOf username (line.take n) := by
  rw [IsRecordOf, List.prefix_take_iff]
  exact ⟨h, by rw [List.length_append, List.length_singleton]; omega⟩

theorem isRecordOf_append_iff {e : List UInt8} (he : e = [] ∨ e = [10]) :
    IsRecordOf username (line ++ e) ↔ IsRecordOf username line := by
  constructor
  · intro h
    rcases he with rfl | rfl
    · rwa [List.append_nil] at h
    · rcases List.prefix_concat_iff.mp h with hAll | hLine
      · have hLast := congrArg List.getLast? hAll
        rw [List.getLast?_concat, List.getLast?_concat] at hLast
        exact absurd hLast (by decide)
      · exact hLine
  · intro h
    exact h.trans (List.prefix_append line e)

end Records

/-! ### Copying -/

theorem text_puts (p : CFormat.Cursor) (cs : List Char) : (p.puts cs).text = p.text ++ cs.take p.room := by
  induction cs generalizing p with
  | nil => rw [List.take_nil, List.append_nil, CFormat.Cursor.puts_nil]
  | cons c cs ih =>
    rw [CFormat.Cursor.puts_cons, ih, CFormat.Cursor.room_put]
    cases hRoom : p.room with
    | zero => rw [CFormat.Cursor.put_of_full hRoom, Nat.zero_sub, List.take_zero, List.take_zero]
    | succ room =>
      rw [CFormat.Cursor.put_of_pos (by omega), Nat.add_sub_cancel, List.take_succ_cons, List.append_assoc]
      rfl

theorem vsnprintf_line {str outLen : Nat} (hOut : 0 < outLen) (hEnd : str + outLen ≤ 2 ^ 64) (line : List UInt8) :
    vsnprintf str outLen ['%', 's'] [.string (some (line.map fun c => Char.ofNat c.toNat))] =
      some ((copyLine outLen line).map fun c => Char.ofNat c.toNat) := by
  rw [vsnprintf, if_pos hOut, Printk.room_eq hOut hEnd, copyLine, List.map_take]
  generalize line.map (fun c => Char.ofNat c.toNat) = cs
  cases hRoom : outLen - 1 with
  | zero =>
    rw [List.take_zero]
    rfl
  | succ room =>
    have hText := text_puts ⟨[], room + 1⟩ cs
    rw [List.nil_append] at hText
    rw [← hText]
    rfl

/-! ### What `fgets` returns -/

def piece : Nat → List UInt8 → List UInt8
  | 0, _ => []
  | _ + 1, [] => []
  | n + 1, c :: cs => if c = 10 then [c] else c :: piece n cs

theorem piece_isPrefix (n : Nat) (cs : List UInt8) : piece n cs <+: cs := by
  induction n generalizing cs with
  | zero => exact List.nil_prefix
  | succ n ih =>
    cases cs with
    | nil => exact List.nil_prefix
    | cons c cs =>
      rw [piece]
      split
      · exact ⟨cs, rfl⟩
      · exact (List.prefix_cons_inj c).mpr (ih cs)

theorem piece_append {n : Nat} {line tail : List UInt8} (hLine : 10 ∉ line) (hTail : tail = [] ∨ ∃ rest, tail = 10 :: rest) :
    piece n (line ++ tail) = (line ++ tail.take 1).take n := by
  induction n generalizing line with
  | zero => rfl
  | succ n ih =>
    cases line with
    | nil =>
      rcases hTail with rfl | ⟨rest, rfl⟩
      · rfl
      · rw [List.nil_append, piece, if_pos rfl]
        exact (List.take_of_length_le (Nat.le_add_left 1 n)).symm
    | cons c line =>
      have hHead : c ≠ 10 := fun hEq => hLine (hEq ▸ List.mem_cons_self)
      rw [List.cons_append, piece, if_neg hHead, ih fun hMem => hLine (List.mem_cons_of_mem c hMem)]
      rfl

section Reads

variable (g : Nat → Nat)

structure At (rest : List UInt8) (fp : File) : Prop where
  unread : fp.hasUngetc = false
  rest : fp.rest = rest

theorem fgetc_at_nil {fp : File} (h : At [] fp) : (fgetc (fun k => some (g k)) fp).1 = EOF := by
  rcases (fgetc_kernel (fun k => some (g k)) h.unread).2 with ⟨hEnd, -⟩ | ⟨b, -, hRest⟩
  · exact hEnd
  · rw [h.rest] at hRest
    cases hRest

theorem fgetc_at_cons {b : UInt8} {rest : List UInt8} {fp : File} (h : At (b :: rest) fp) :
    (fgetc (fun k => some (g k)) fp).1 = b.toNat ∧ At rest (fgetc (fun k => some (g k)) fp).2 := by
  have hOne : min (max 1 (g fp.reads)) 1 = 1 := by omega
  have hTakes : fgetc (fun k => some (g k)) fp = ((b.toNat : Int), { fp with rest := rest, reads := fp.reads + 1 }) := by
    rw [fgetc, if_neg (Bool.eq_false_iff.mp h.unread), Libc.read]
    dsimp only
    rw [hOne, h.rest]
    rfl
  rw [hTakes]
  exact ⟨rfl, h.unread, rfl⟩

theorem fgetsLoop_at {n : Nat} {s rest : List UInt8} {fp : File} (h : At rest fp) (hSome : s ≠ [] ∨ rest ≠ []) :
    (fgetsLoop (fun k => some (g k)) n s fp).1 = some (s ++ piece n rest) ∧
      At (rest.drop (piece n rest).length) (fgetsLoop (fun k => some (g k)) n s fp).2 := by
  induction n generalizing s rest fp with
  | zero =>
    rw [piece, List.append_nil]
    exact ⟨rfl, h⟩
  | succ n ih =>
    rw [fgetsLoop]
    dsimp only
    cases rest with
    | nil =>
      have hStored : ¬ s.length = 0 := fun hNil => hSome.elim (fun hs => hs (List.length_eq_zero_iff.mp hNil)) fun hr => hr rfl
      rw [if_pos (fgetc_at_nil g h), if_neg hStored, piece, List.append_nil]
      refine ⟨rfl, ?_⟩
      rcases fgetc_kernel (fun k => some (g k)) h.unread with ⟨hUnread, ⟨-, hRest⟩ | ⟨b, -, hRest⟩⟩
      · exact ⟨hUnread, hRest.trans h.rest⟩
      · rw [h.rest] at hRest
        cases hRest
    | cons b rest =>
      obtain ⟨hByte, hNext⟩ := fgetc_at_cons g h
      have hNewline : (b.toNat : Int) = 10 ↔ b = 10 := by
        rw [← UInt8.toNat_inj]
        exact Int.ofNat_inj
      rw [hByte, if_neg (toNat_ne_EOF b), ofNat_toNat_toNat, piece]
      by_cases hEnd : b = 10
      · rw [if_pos (hNewline.mpr hEnd), if_pos hEnd]
        exact ⟨rfl, hNext⟩
      · rw [if_neg (mt hNewline.mp hEnd), if_neg hEnd]
        obtain ⟨hStored, hLater⟩ := ih (s := s ++ [b]) hNext (Or.inl (by simp))
        refine ⟨?_, hLater⟩
        rw [hStored, List.append_assoc]
        rfl

theorem fgets_256 (offer : Nat → Option Nat) (fp : File) : fgets offer 256 fp = fgetsLoop offer 255 [] fp := by
  rw [fgets, if_neg (by decide), show ((256 : Int) - 1).toNat = 255 from rfl]

theorem fgets_at {rest : List UInt8} {fp : File} (h : At rest fp) (hSome : rest ≠ []) :
    (fgets (fun k => some (g k)) 256 fp).1 = some (piece 255 rest) ∧
      At (rest.drop (piece 255 rest).length) (fgets (fun k => some (g k)) 256 fp).2 := by
  rw [fgets_256]
  exact fgetsLoop_at g h (Or.inr hSome)

theorem fgets_at_end {fp : File} (h : At [] fp) : (fgets (fun k => some (g k)) 256 fp).1 = none := by
  rw [fgets_256, fgetsLoop]
  dsimp only
  rw [if_pos (fgetc_at_nil g h), if_pos List.length_nil]

end Reads

/-! ### A line -/

section Lines

variable (g : Nat → Nat) {username : List UInt8} (outLen : Nat) {fuel pos : Nat}

theorem findLoop_end {fp : File} (h : At [] fp) (hFuel : 0 < fuel) :
    findLoop (fun k => some (g k)) username outLen fuel pos fp = some none := by
  obtain ⟨fuel, rfl⟩ : ∃ k, fuel = k + 1 := ⟨fuel - 1, by omega⟩
  rw [findLoop]
  have hNone := fgets_at_end g h
  split
  case h_1 => rfl
  case h_2 hSome =>
    rw [hSome] at hNone
    cases hNone

theorem pos_le_of_findLoop {fp : File} {f : Found}
    (h : findLoop (fun k => some (g k)) username outLen fuel pos fp = some (some f)) : pos ≤ f.pos := by
  induction fuel generalizing pos fp with
  | zero => cases h
  | succ fuel ih =>
    rw [findLoop] at h
    split at h
    case h_1 => cases h
    case h_2 =>
      dsimp only at h
      split at h
      · cases h
        exact Nat.le_refl pos
      · exact (Nat.le_add_right ..).trans (ih h)

variable (hUser : username ≠ [])
include hUser

theorem findLoop_piece {rest : List UInt8} {fp : File} (h : At rest fp) (hSome : rest ≠ [])
    (hNul : 0 ∉ rest) : ∃ fp', At (rest.drop (piece 255 rest).length) fp' ∧
      findLoop (fun k => some (g k)) username outLen (fuel + 1) pos fp =
        if IsRecordOf username (piece 255 rest) then
          some (some ⟨pos, trimNewline (copyLine outLen (piece 255 rest))⟩)
        else findLoop (fun k => some (g k)) username outLen fuel (pos + (piece 255 rest).length) fp' := by
  obtain ⟨hPiece, hNext⟩ := fgets_at g h hSome
  refine ⟨_, hNext, ?_⟩
  have hText : (piece 255 rest).takeWhile (· ≠ 0) = piece 255 rest := by
    rw [List.takeWhile_eq_self_iff]
    intro c hc
    exact decide_eq_true fun hZero => hNul (hZero ▸ (piece_isPrefix 255 rest).subset hc)
  rw [findLoop]
  split
  case h_1 hNone =>
    rw [hNone] at hPiece
    cases hPiece
  case h_2 hEq =>
    rw [hEq] at hPiece
    obtain rfl := Option.some.inj hPiece
    rw [hEq, hText]
    simp only [unixLineMatchesUser_iff hUser]

theorem findLoop_line {line tail : List UInt8} (hLine : 10 ∉ line) (hTail : tail = [] ∨ ∃ rest, tail = 10 :: rest)
    (hNul : 0 ∉ line ++ tail) {fp : File} (h : At (line ++ tail) fp) (hFuel : (line ++ tail).length < fuel) :
    (∃ k out, IsRecordOf username (pieceOf line k) ∧ (∀ j < k, ¬ IsRecordOf username (pieceOf line j)) ∧
      (k = 0 → out = trimNewline (copyLine outLen ((line ++ tail.take 1).take 255))) ∧
      findLoop (fun k => some (g k)) username outLen fuel pos fp = some (some ⟨pos + 255 * k, out⟩)) ∨
    (∀ k, ¬ IsRecordOf username (pieceOf line k)) ∧ ∃ fuel' fp', At (tail.drop 1) fp' ∧ (tail.drop 1).length < fuel' ∧
      findLoop (fun k => some (g k)) username outLen fuel pos fp =
        findLoop (fun k => some (g k)) username outLen fuel' (pos + line.length + 1) fp' := by
  have hNone : ¬ IsRecordOf username [] := fun hRecord => absurd hRecord.length_le (Nat.not_succ_le_zero _)
  induction hLength : line.length using Nat.strong_induction_on generalizing line fuel pos fp with
  | _ n ih =>
    subst hLength
    by_cases hEmpty : line ++ tail = []
    · obtain ⟨rfl, rfl⟩ := List.append_eq_nil_iff.mp hEmpty
      refine Or.inr ⟨fun k => by rwa [pieceOf, List.drop_nil, List.take_nil], fuel, fp, h, hFuel, ?_⟩
      rw [findLoop_end g outLen h hFuel, findLoop_end g outLen h hFuel]
    obtain ⟨fuel, rfl⟩ : ∃ k, fuel = k + 1 := ⟨fuel - 1, by omega⟩
    obtain ⟨fp', hNext, hRound⟩ := @findLoop_piece g username outLen fuel pos hUser _ _ h hEmpty hNul
    rw [piece_append hLine hTail] at hNext hRound
    have hFirst : pieceOf line 0 = line.take 255 := rfl
    rw [List.length_append] at hFuel
    by_cases hShort : line.length < 255
    · -- the rest of the line, with its newline
      have hTake : (line ++ tail.take 1).take 255 = line ++ tail.take 1 := by
        apply List.take_of_length_le
        rw [List.length_append, List.length_take]
        omega
      have hRecord : IsRecordOf username (line ++ tail.take 1) ↔ IsRecordOf username line := by
        apply isRecordOf_append_iff
        rcases hTail with rfl | ⟨rest, rfl⟩
        · exact Or.inl rfl
        · exact Or.inr rfl
      rw [List.take_of_length_le (Nat.le_of_lt hShort)] at hFirst
      rw [hTake] at hNext hRound ⊢
      by_cases hMatch : IsRecordOf username line
      · refine Or.inl ⟨0, _, by rwa [hFirst], fun j hj => absurd hj (Nat.not_lt_zero j), fun _ => rfl, ?_⟩
        rw [hRound, if_pos (hRecord.mpr hMatch)]
        rfl
      · rw [if_neg (mt hRecord.mp hMatch)] at hRound
        refine Or.inr ⟨fun k => ?_, fuel, fp', ?_⟩
        · cases k with
          | zero => rwa [hFirst]
          | succ k => rwa [pieceOf, List.drop_of_length_le (by omega), List.take_nil]
        rcases hTail with rfl | ⟨rest, rfl⟩
        · rw [List.take_nil, List.append_nil, List.drop_length] at hNext
          have hSome : 0 < line.length := List.length_pos_of_ne_nil (by rwa [List.append_nil] at hEmpty)
          refine ⟨hNext, by rw [List.drop_nil, List.length_nil]; omega, ?_⟩
          rw [hRound, findLoop_end g outLen hNext (by omega), findLoop_end g outLen hNext (by omega)]
        · have hDrop : (line ++ 10 :: rest).drop (line ++ List.take 1 (10 :: rest)).length = rest := by
            rw [List.length_append, List.drop_length_add_append]
            rfl
          rw [hDrop] at hNext
          rw [List.length_cons] at hFuel
          refine ⟨hNext, by rw [List.drop_one, List.tail_cons]; omega, ?_⟩
          rw [hRound, List.length_append]
          rfl
    · have hTake : (line ++ tail.take 1).take 255 = line.take 255 := List.take_append_of_le_length (by omega)
      have hLong : (line.take 255).length = 255 := List.length_take_of_le (by omega)
      have hRest : (line ++ tail).drop 255 = line.drop 255 ++ tail := List.drop_append_of_le_length (by omega)
      have hShift : ∀ k, pieceOf (line.drop 255) k = pieceOf line (k + 1) := by
        intro k
        rw [pieceOf, pieceOf, List.drop_drop, Nat.mul_succ, Nat.add_comm 255]
      rw [hTake, hLong, hRest] at hNext
      rw [hTake, hLong] at hRound
      by_cases hMatch : IsRecordOf username (line.take 255)
      · refine Or.inl ⟨0, _, hMatch, fun j hj => absurd hj (Nat.not_lt_zero j), fun _ => rfl, ?_⟩
        rw [hRound, if_pos hMatch, hTake]
        rfl
      rw [if_neg hMatch] at hRound
      have hLess : (line.drop 255).length < line.length := by
        rw [List.length_drop]
        omega
      have hLater := @ih _ hLess fuel (pos + 255) (line.drop 255) (fun hMem => hLine (List.mem_of_mem_drop hMem))
        (by rw [← hRest]; exact fun hMem => hNul (List.mem_of_mem_drop hMem)) fp' hNext
        (by rw [List.length_append]; omega) rfl
      rw [hRound]
      rcases hLater with ⟨k, out, hRecord, hBefore, -, hFound⟩ | ⟨hNever, fuel', fp'', hAt, hEnough, hOn⟩
      · refine Or.inl ⟨k + 1, out, by rwa [← hShift], fun j hj => ?_, fun hZero => absurd hZero (Nat.succ_ne_zero k), ?_⟩
        · cases j with
          | zero => exact hMatch
          | succ j =>
            rw [← hShift]
            exact hBefore j (by omega)
        · rw [hFound, Nat.mul_succ, Nat.add_right_comm, Nat.add_assoc]
      · refine Or.inr ⟨fun k => ?_, fuel', fp'', hAt, hEnough, ?_⟩
        · cases k with
          | zero => exact hMatch
          | succ k =>
            rw [← hShift]
            exact hNever k
        · rw [hOn, List.length_drop, show pos + 255 + (line.length - 255) = pos + line.length by omega]

end Lines

/-! ### What is handed over -/

theorem rdropWhile_append {p : UInt8 → Bool} {as bs : List UInt8} (h : ∀ b ∈ bs, p b = true) :
    (as ++ bs).rdropWhile p = as.rdropWhile p := by
  rw [List.rdropWhile, List.reverse_append, List.dropWhile_append_of_pos fun b hb => h b (List.mem_reverse.mp hb)]
  rfl

theorem exists_carriageReturns (line : List UInt8) : ∃ j, line = withoutNewline line ++ List.replicate j 13 := by
  refine ⟨(line.rtakeWhile (· = 13)).length, ?_⟩
  have hAll : line.rtakeWhile (· = 13) = List.replicate (line.rtakeWhile (· = 13)).length 13 := by
    rw [List.eq_replicate_iff]
    refine ⟨rfl, fun c hc => ?_⟩
    have hReturn := List.mem_rtakeWhile_imp hc
    exact of_decide_eq_true hReturn
  rw [← hAll]
  exact (@List.rdropWhile_append_rtakeWhile _ _ line).symm

theorem trimNewline_eq_self_iff {text : List UInt8} (h : 10 ∉ text) : trimNewline text = text ↔ text.getLast? ≠ some 13 := by
  rw [trimNewline, List.rdropWhile_eq_self_iff]
  constructor
  · intro hLast hEnd
    obtain ⟨front, rfl⟩ := List.getLast?_eq_some_iff.mp hEnd
    exact hLast (List.concat_ne_nil 13 front) (by rw [List.getLast_concat]; rfl)
  · intro hLast hSome hNewline
    rcases of_decide_eq_true hNewline with hLine | hReturn
    · exact h (hLine ▸ List.getLast_mem hSome)
    · exact hLast (by rw [List.getLast?_eq_some_getLast hSome, hReturn])

theorem trimmed_iff {line e : List UInt8} (hLine : 10 ∉ line) (he : e = [] ∨ e = [10]) {outLen : Nat} (hOut : 0 < outLen) :
    trimNewline (copyLine outLen ((line ++ e).take 255)) = (withoutNewline line).take (outLen - 1) ↔
      FitsBuffers outLen line := by
  obtain ⟨j, hReturns⟩ := exists_carriageReturns line
  have hText : 10 ∉ withoutNewline line := fun hMem => hLine (hReturns ▸ List.mem_append_left _ hMem)
  have hEnd : (withoutNewline line).getLast? ≠ some 13 := by
    intro hLast
    obtain ⟨front, hFront⟩ := List.getLast?_eq_some_iff.mp hLast
    have hSome : line.rdropWhile (· = 13) ≠ [] := by
      intro hNil
      rw [withoutNewline, hNil] at hFront
      exact List.concat_ne_nil 13 front hFront.symm
    refine List.rdropWhile_last_not _ line hSome (decide_eq_true ?_)
    rw [List.getLast_eq_iff_getLast?_eq_some]
    exact hLast
  rw [copyLine, List.take_take, FitsBuffers]
  generalize withoutNewline line = text at *
  subst hReturns
  have hMin : min (outLen - 1) 255 = min 255 (outLen - 1) := Nat.min_comm ..
  rw [hMin]
  by_cases hFits : text.length ≤ min 255 (outLen - 1)
  · have hTail : ∀ c ∈ (List.replicate j 13 ++ e).take (min 255 (outLen - 1) - text.length), IsNewline c = true := by
      intro c hc
      rcases List.mem_append.mp (List.mem_of_mem_take hc) with hReturn | hNewline
      · rw [(List.mem_replicate.mp hReturn).2]
        rfl
      · rcases he with rfl | rfl
        · cases hNewline
        · rw [List.mem_singleton.mp hNewline]
          rfl
    rw [List.append_assoc, List.take_append, List.take_of_length_le hFits, trimNewline, rdropWhile_append hTail,
      List.take_of_length_le (by omega)]
    exact iff_of_true ((trimNewline_eq_self_iff hText).mpr hEnd) (Or.inl hFits)
  · have hCut : (text ++ List.replicate j 13 ++ e).take (min 255 (outLen - 1)) = text.take (min 255 (outLen - 1)) := by
      rw [List.append_assoc, List.take_append_of_le_length (by omega)]
    rw [hCut]
    constructor
    · intro hSame
      have hCutText := List.rdropWhile_prefix IsNewline (text.take (min 255 (outLen - 1)))
      have hLe := hCutText.length_le
      rw [show (text.take (min 255 (outLen - 1))).rdropWhile IsNewline = _ from hSame, List.length_take, List.length_take] at hLe
      have hShort : outLen ≤ 256 := by omega
      rw [show min 255 (outLen - 1) = outLen - 1 by omega] at hSame
      exact Or.inr ⟨hShort, (trimNewline_eq_self_iff fun hMem => hText (List.mem_of_mem_take hMem)).mp hSame⟩
    · rintro (hLe | ⟨hShort, hLast⟩)
      · exact absurd hLe hFits
      · rw [show min 255 (outLen - 1) = outLen - 1 by omega]
        exact (trimNewline_eq_self_iff fun hMem => hText (List.mem_of_mem_take hMem)).mpr hLast

/-! ### A file -/

theorem pos_le_of_firstRecord {username : List UInt8} {outLen pos : Nat} {lines : List (List UInt8)} {f : Found}
    (h : firstRecord username outLen pos lines = some f) : pos ≤ f.pos := by
  induction lines generalizing pos with
  | nil => cases h
  | cons line lines ih =>
    rw [firstRecord] at h
    split at h
    · cases h
      exact Nat.le_refl pos
    · have hLater := ih h
      omega

section Files

variable (g : Nat → Nat) {username : List UInt8} (hUser : username ≠ []) {outLen fuel pos : Nat} (hOut : 0 < outLen)
include hUser hOut

theorem line_right_iff {line tail : List UInt8} (hLine : 10 ∉ line) (hTail : tail = [] ∨ ∃ rest, tail = 10 :: rest)
    (hNul : 0 ∉ line ++ tail) {fp : File} (h : At (line ++ tail) fp) (hFuel : (line ++ tail).length < fuel)
    {lines : List (List UInt8)} (hLines : ∀ fuel' fp', At (tail.drop 1) fp' → (tail.drop 1).length < fuel' →
      (findLoop (fun k => some (g k)) username outLen fuel' (pos + line.length + 1) fp' =
        some (firstRecord username outLen (pos + line.length + 1) lines) ↔ ReadsWhole username outLen lines)) :
    findLoop (fun k => some (g k)) username outLen fuel pos fp =
        some (firstRecord username outLen pos (line :: lines)) ↔ ReadsWhole username outLen (line :: lines) := by
  have hNewline : tail.take 1 = [] ∨ tail.take 1 = [10] := by
    rcases hTail with rfl | ⟨rest, rfl⟩
    · exact Or.inl rfl
    · exact Or.inr rfl
  have hPiece : ∀ k, IsRecordOf username (pieceOf line k) → username.length ≤ 254 := by
    intro k hRecord
    have hLength := hRecord.length_le
    rw [pieceOf, List.length_take] at hLength
    omega
  have hFirst : username.length ≤ 254 → (IsRecordOf username (pieceOf line 0) ↔ IsRecordOf username line) := fun hShort =>
    ⟨fun hRecord => hRecord.trans ( List.take_prefix 255 line), fun hRecord => hRecord.take (by omega)⟩
  rw [firstRecord, ReadsWhole]
  rcases findLoop_line g outLen hUser hLine hTail hNul h hFuel with
    ⟨k, out, hRecord, hBefore, hOutput, hFound⟩ | ⟨hNever, fuel', fp', hNext, hEnough, hOn⟩
  · have hShort := hPiece k hRecord
    rw [hFound]
    by_cases hWhole : IsRecordOf username line
    · have hZero : k = 0 := Nat.eq_zero_of_not_pos fun hPos => hBefore 0 hPos ((hFirst hShort).mpr hWhole)
      subst hZero
      rw [if_pos hWhole, if_pos hWhole, hOutput rfl, ← trimmed_iff hLine hNewline hOut]
      simp [hShort]
    · have hPos : 0 < k := by
        refine Nat.pos_of_ne_zero ?_
        rintro rfl
        exact hWhole ((hFirst hShort).mp hRecord)
      have hInside : 255 * k < line.length := by
        by_contra hBehind
        rw [pieceOf, List.drop_of_length_le (by omega), List.take_nil] at hRecord
        exact absurd hRecord.length_le (Nat.not_succ_le_zero _)
      rw [if_neg hWhole, if_neg hWhole]
      refine iff_of_false (fun hSame => ?_) fun hReads => hReads.1 k hPos hRecord
      have hLater := pos_le_of_firstRecord (Option.some.inj hSame).symm
      dsimp only at hLater
      omega
  · rw [hOn]
    by_cases hWhole : IsRecordOf username line
    · rw [if_pos hWhole, if_pos hWhole]
      refine iff_of_false (fun hSame => ?_) fun hReads => hNever 0 ((hFirst hReads.1).mpr hWhole)
      have hLater := pos_le_of_findLoop g outLen hSame
      dsimp only at hLater
      omega
    · rw [if_neg hWhole, if_neg hWhole, hLines fuel' fp' hNext hEnough]
      exact (and_iff_right fun k _ => hNever k).symm

theorem findLoop_right_iff {content : List UInt8} (hNul : 0 ∉ content) {fp : File} (h : At content fp)
    (hFuel : content.length < fuel) :
    findLoop (fun k => some (g k)) username outLen fuel pos fp =
        some (firstRecord username outLen pos (linesOf content)) ↔ ReadsWhole username outLen (linesOf content) := by
  induction hLength : content.length using Nat.strong_induction_on generalizing content fuel pos fp with
  | _ n ih =>
    subst hLength
    by_cases hMem : 10 ∈ content
    · obtain ⟨line, rest, rfl, hLine⟩ := List.eq_append_cons_of_mem hMem
      rw [linesOf, List.splitOn_append_cons_self_of_not_mem hLine]
      refine line_right_iff g hUser hOut hLine (Or.inr ⟨rest, rfl⟩) hNul h hFuel fun fuel' fp' hNext hEnough => ?_
      refine ih rest.length ?_ (fun hZero => hNul ?_) hNext hEnough rfl
      · rw [List.length_append, List.length_cons]
        omega
      · exact List.mem_append_right _ (List.mem_cons_of_mem _ hZero)
    · rw [linesOf, List.splitOn_eq_singleton hMem]
      rw [← List.append_nil content] at hNul h hFuel
      refine line_right_iff g hUser hOut hMem (Or.inl rfl) hNul h hFuel fun fuel' fp' hNext hEnough => ?_
      exact iff_of_true (findLoop_end g outLen hNext (Nat.zero_lt_of_lt hEnough)) trivial

end Files

theorem looksUpRight_iff (g : Nat → Nat) {content username : List UInt8} {outLen : Nat} (hUser : username ≠ [])
    (hNul : 0 ∉ content) (hOut : 0 < outLen) :
    LooksUpRight (fun k => some (g k)) content username outLen ↔ ReadsWhole username outLen (linesOf content) := by
  rw [LooksUpRight, findUnixLine, if_neg (Nat.pos_iff_ne_zero.mp hOut)]
  exact findLoop_right_iff g hUser hOut hNul ⟨rfl, rfl⟩ (Nat.lt_succ_self _)

/-- The lookup finds the first whole line of the user exactly if no piece of an earlier line looks like one, and the
line fits in the buffers. -/
theorem account_lookup_right_iff (g : Nat → Nat) {content username : List UInt8} {outLen : Nat} (hUser : username ≠ [])
    (hNul : 0 ∉ content) (hOut : 0 < outLen) :
    LooksUpRight (fun k => some (g k)) content username outLen ↔ ReadsWhole username outLen (linesOf content) :=
  looksUpRight_iff g hUser hNul hOut

theorem account_lookup_right_iff_second :
    LooksUpRight (fun _ => some 1) [97, 58, 120, 10, 98, 58, 121, 13, 10] [98] 256 ↔
      ReadsWhole [98] 256 (linesOf [97, 58, 120, 10, 98, 58, 121, 13, 10]) :=
  account_lookup_right_iff (fun _ => 1) (by decide) (by decide) (by decide)

/-- A line of 255 characters and `r:` behind them: the end of the line is taken for the record of `r`. -/
theorem forged_record_found : ¬ LooksUpRight (fun _ => some 1) (List.replicate 255 120 ++ [114, 58]) [114] 256 := by
  rw [looksUpRight_iff (fun _ => 1) (by decide) (by decide +kernel) (by decide), linesOf,
    List.splitOn_eq_singleton (by decide +kernel), ReadsWhole, if_neg (by decide +kernel)]
  intro hReads
  exact hReads.1 1 (by decide) (by decide +kernel)

end UnixOS.Login
