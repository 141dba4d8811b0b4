import Mathlib.Tactic.SplitIfs
import UnixOS.Gui.Terminal

/-! # The terminal stays inside its grid

Every byte first brings the cursor into the grid, so that whatever an escape sequence or a tabulator leaves
behind is never used as it is.
-/

namespace UnixOS.Gui

structure Terminal.Grid (t : Terminal) : Prop where
  cols_pos : 0 < t.cols
  rows_pos : 0 < t.rows
  cells_lt : t.cols * t.rows < 2 ^ 31

structure Terminal.Placed (t : Terminal) : Prop where
  x_nonneg : 0 ≤ t.cursorX
  x_lt : t.cursorX < t.cols
  y_nonneg : 0 ≤ t.cursorY
  y_lt : t.cursorY < t.rows

/-- An access that a byte may lead to, from a terminal whose cursor is on a cell: cells inside the grid; a
character only at the cursor; an erased line only where the cursor is. -/
def Access.Safe (t : Terminal) : Access → Prop
  | .readCell idx => 0 ≤ idx ∧ idx < t.cols * t.rows
  | .writeCell cause idx => (0 ≤ idx ∧ idx < t.cols * t.rows) ∧
    match cause with
    | .print => idx = t.cursorY * t.cols + t.cursorX
    | .eraseLine => t.cursorY * t.cols + t.cursorX ≤ idx ∧ idx < (t.cursorY + 1) * t.cols
    | _ => True
  | .writeEscapeBuf idx => idx < 32
  | .writeParams idx => idx < 8

theorem wrap32_eq {x : Int} (h : 0 ≤ x) (hLt : x < 2 ^ 31) : wrap32 x = x := by
  rw [wrap32, Int.bmod_def, Int.emod_eq_of_lt h (by omega)]
  omega

section Index

variable {t : Terminal} (hGrid : t.Grid) {row col : Int} (hRow : 0 ≤ row) (hRowLt : row < t.rows) (hCol : 0 ≤ col)
  (hColLt : col < t.cols)

include hGrid hRow hRowLt hCol hColLt

theorem index_bounds : 0 ≤ row * t.cols + col ∧ row * t.cols + col < t.cols * t.rows := by
  have hNonneg : 0 ≤ row * t.cols := Int.mul_nonneg hRow (Int.le_of_lt hGrid.cols_pos)
  have hNext : (row + 1) * t.cols ≤ t.rows * t.cols :=
    Int.mul_le_mul_of_nonneg_right (by omega) (Int.le_of_lt hGrid.cols_pos)
  rw [Int.add_mul, Int.one_mul] at hNext
  rw [Int.mul_comm t.cols]
  omega

theorem cellIndex_eq : cellIndex t row col = row * t.cols + col := by
  have hBounds := index_bounds hGrid hRow hRowLt hCol hColLt
  have hCells := hGrid.cells_lt
  have hNonneg : 0 ≤ row * t.cols := Int.mul_nonneg hRow (Int.le_of_lt hGrid.cols_pos)
  rw [cellIndex, wrap32_eq hNonneg (by omega), wrap32_eq (by omega) (by omega)]

theorem cellIndex_bounds : 0 ≤ cellIndex t row col ∧ cellIndex t row col < t.cols * t.rows := by
  rw [cellIndex_eq hGrid hRow hRowLt hCol hColLt]
  exact index_bounds hGrid hRow hRowLt hCol hColLt

end Index

/-! ### What a piece of code does to a screen -/

/-- From `s` to `s'` the grid and the state of the escape sequence stay, and all new accesses are safe for the
terminal `t` that the byte began with. -/
structure Keeps (t : Terminal) (s s' : Screen) : Prop where
  cols : s'.term.cols = s.term.cols
  rows : s'.term.rows = s.term.rows
  inEscape : s'.term.inEscape = s.term.inEscape
  escapeLen : s'.term.escapeLen = s.term.escapeLen
  log : ∀ a ∈ s'.log, a ∈ s.log ∨ a.Safe t

structure Draws (t : Terminal) (s s' : Screen) : Prop extends Keeps t s s' where
  cursorX : s'.term.cursorX = s.term.cursorX
  cursorY : s'.term.cursorY = s.term.cursorY

section Draw

variable {t : Terminal} {s s' s'' : Screen} {cause : Cause} {idx : Int}

theorem Keeps.trans (h : Keeps t s s') (h' : Keeps t s' s'') : Keeps t s s'' where
  cols := h'.cols.trans h.cols
  rows := h'.rows.trans h.rows
  inEscape := h'.inEscape.trans h.inEscape
  escapeLen := h'.escapeLen.trans h.escapeLen
  log := by
    intro a hMem
    rcases h'.log a hMem with hOld | hSafe
    · exact h.log a hOld
    · exact Or.inr hSafe

theorem Draws.refl (t : Terminal) (s : Screen) : Draws t s s :=
  ⟨⟨rfl, rfl, rfl, rfl, fun _ => Or.inl⟩, rfl, rfl⟩

theorem Draws.trans (h : Draws t s s') (h' : Draws t s' s'') : Draws t s s'' :=
  ⟨h.toKeeps.trans h'.toKeeps, h'.cursorX.trans h.cursorX, h'.cursorY.trans h.cursorY⟩

theorem log_cons {a : Access} (h : a.Safe t) {log : List Access} : ∀ b ∈ a :: log, b ∈ log ∨ b.Safe t := by
  intro b hMem
  rcases List.mem_cons.mp hMem with rfl | hOld
  · exact Or.inr h
  · exact Or.inl hOld

theorem draws_setCell (h : (Access.writeCell cause idx).Safe t) (c : Char) (fg bg : Int) :
    Draws t s (s.setCell cause idx c fg bg) :=
  ⟨⟨rfl, rfl, rfl, rfl, log_cons h⟩, rfl, rfl⟩

theorem draws_setChar (h : (Access.writeCell cause idx).Safe t) (c : Char) : Draws t s (s.setChar cause idx c) :=
  ⟨⟨rfl, rfl, rfl, rfl, log_cons h⟩, rfl, rfl⟩

theorem draws_copyCell {src dst : Int} (hSrc : (Access.readCell src).Safe t)
    (hDst : (Access.writeCell .scroll dst).Safe t) : Draws t s (s.copyCell src dst) := by
  have hRead : Draws t s { s with log := .readCell src :: s.log } :=
    ⟨⟨rfl, rfl, rfl, rfl, log_cons hSrc⟩, rfl, rfl⟩
  exact hRead.trans (draws_setCell hDst _ _ _)

theorem draws_foldl {α : Type} {f : Screen → α → Screen} {l : List α}
    (h : ∀ s', Draws t s s' → ∀ a ∈ l, Draws t s' (f s' a)) : Draws t s (l.foldl f s) := by
  induction l generalizing s with
  | nil => exact Draws.refl t s
  | cons a l ih =>
    have hHead := h s (Draws.refl t s) a List.mem_cons_self
    apply hHead.trans
    apply ih
    intro s' hDraws b hMem
    exact h s' (hHead.trans hDraws) b (List.mem_cons_of_mem a hMem)

theorem safe_cell (hGrid : t.Grid) (hCols : s.term.cols = t.cols) (row col : Int) (hRow : 0 ≤ row)
    (hRowLt : row < t.rows) (hCol : 0 ≤ col) (hColLt : col < t.cols) :
    cellIndex s.term row col = row * t.cols + col ∧ 0 ≤ cellIndex s.term row col ∧
      cellIndex s.term row col < t.cols * t.rows := by
  have hSame : cellIndex s.term row col = cellIndex t row col := by rw [cellIndex, cellIndex, hCols]
  rw [hSame]
  exact ⟨cellIndex_eq hGrid hRow hRowLt hCol hColLt, cellIndex_bounds hGrid hRow hRowLt hCol hColLt⟩

theorem draws_termClearLine (hGrid : t.Grid) (hCols : s.term.cols = t.cols) (hRows : s.term.rows = t.rows)
    (hCause : ∀ idx, 0 ≤ idx ∧ idx < t.cols * t.rows → (Access.writeCell cause idx).Safe t) (row : Int) :
    Draws t s (termClearLine s cause row) := by
  rw [termClearLine]
  split
  case isTrue => exact Draws.refl t s
  case isFalse hInside =>
    apply draws_foldl
    intro s' hDraws col hMem
    rw [List.mem_range, hCols] at hMem
    apply draws_setCell
    apply hCause
    exact (safe_cell hGrid (hDraws.cols.trans hCols) row col (by omega) (by omega) (by omega) (by omega)).2

theorem draws_termScrollUp (hGrid : t.Grid) (hCols : s.term.cols = t.cols) (hRows : s.term.rows = t.rows) :
    Draws t s (termScrollUp s) := by
  rw [termScrollUp]
  split
  case isTrue => exact Draws.refl t s
  case isFalse =>
    have hMove : Draws t s ((List.range (s.term.rows - 1).toNat).foldl
        (fun s (row : Nat) => (List.range s.term.cols.toNat).foldl
          (fun s (col : Nat) => s.copyCell (cellIndex s.term (row + 1) col) (cellIndex s.term row col)) s) s) := by
      apply draws_foldl
      intro s₁ hOuter row hRow
      rw [List.mem_range, hRows] at hRow
      apply draws_foldl
      intro s₂ hInner col hCol
      rw [List.mem_range, hOuter.cols, hCols] at hCol
      have hHere : s₂.term.cols = t.cols := hInner.cols.trans (hOuter.cols.trans hCols)
      have hSrc := safe_cell hGrid hHere (row + 1) col (by omega) (by omega) (by omega)
        (by omega)
      have hDst := safe_cell hGrid hHere row col (by omega) (by omega) (by omega)
        (by omega)
      exact draws_copyCell hSrc.2 ⟨hDst.2, trivial⟩
    apply hMove.trans
    exact draws_termClearLine hGrid (hMove.cols.trans hCols) (hMove.rows.trans hRows) (fun _ h => ⟨h, trivial⟩) _

theorem keeps_setTerm {f : Terminal → Terminal} (hCols : (f s.term).cols = s.term.cols)
    (hRows : (f s.term).rows = s.term.rows) (hEscape : (f s.term).inEscape = s.term.inEscape)
    (hLen : (f s.term).escapeLen = s.term.escapeLen) : Keeps t s (s.setTerm f) :=
  ⟨hCols, hRows, hEscape, hLen, fun _ => Or.inl⟩

theorem keeps_ite {P : Prop} [Decidable P] (hPos : P → Keeps t s s') (hNeg : Keeps t s s'') :
    Keeps t s (if P then s' else s'') := by
  by_cases hP : P
  · rw [if_pos hP]
    exact hPos hP
  · rw [if_neg hP]
    exact hNeg

theorem keeps_termNewline (hGrid : t.Grid) (hCols : s.term.cols = t.cols) (hRows : s.term.rows = t.rows) :
    Keeps t s (termNewline s) := by
  rw [termNewline]
  split
  case isTrue => exact (Draws.refl t s).toKeeps
  case isFalse =>
    have hDown : Keeps t s (s.setTerm fun t => (t.setCursorX 0).setCursorY (wrap32 (t.cursorY + 1))) :=
      keeps_setTerm rfl rfl rfl rfl
    simp only
    split
    case isTrue =>
      apply hDown.trans
      apply (draws_termScrollUp hGrid (hDown.cols.trans hCols) (hDown.rows.trans hRows)).toKeeps.trans
      exact keeps_setTerm rfl rfl rfl rfl
    case isFalse => exact hDown

theorem selectRendition_keeps (term : Terminal) (ps : List Int) :
    (ps.foldl selectRendition term).cols = term.cols ∧ (ps.foldl selectRendition term).rows = term.rows ∧
      (ps.foldl selectRendition term).inEscape = term.inEscape ∧
      (ps.foldl selectRendition term).escapeLen = term.escapeLen := by
  induction ps generalizing term with
  | nil => exact ⟨rfl, rfl, rfl, rfl⟩
  | cons p ps ih =>
    obtain ⟨hCols, hRows, hEscape, hLen⟩ := ih (selectRendition term p)
    rw [List.foldl_cons, hCols, hRows, hEscape, hLen]
    unfold selectRendition
    split_ifs <;> exact ⟨rfl, rfl, rfl, rfl⟩

theorem draws_eraseScreen (hGrid : t.Grid) (hCols : s.term.cols = t.cols) (hRows : s.term.rows = t.rows) :
    Draws t s ((List.range s.term.rows.toNat).foldl
      (fun s (row : Nat) => termClearLine s .eraseScreen row) s) := by
  apply draws_foldl
  intro s' hDraws row _
  exact draws_termClearLine hGrid (hDraws.cols.trans hCols) (hDraws.rows.trans hRows) (fun _ h => ⟨h, trivial⟩) row

theorem draws_eraseLine (hGrid : t.Grid) (hPlaced : t.Placed) (hCols : s.term.cols = t.cols)
    (hX : s.term.cursorX = t.cursorX) (hY : s.term.cursorY = t.cursorY) :
    Draws t s ((List.range (s.term.cols - s.term.cursorX).toNat).foldl
      (fun s (i : Nat) => s.setChar .eraseLine (cellIndex s.term s.term.cursorY (s.term.cursorX + i)) ' ') s) := by
  apply draws_foldl
  intro s' hDraws i hMem
  rw [List.mem_range, hCols, hX] at hMem
  have hLeft := hPlaced.x_nonneg
  have hCell := safe_cell hGrid (hDraws.cols.trans hCols) t.cursorY (t.cursorX + i) hPlaced.y_nonneg hPlaced.y_lt
    (by omega) (by omega)
  rw [hDraws.cursorX, hDraws.cursorY, hX, hY]
  apply draws_setChar
  refine ⟨hCell.2, ?_⟩
  simp only
  rw [hCell.1, Int.add_mul, Int.one_mul]
  omega

theorem keeps_runCommand (hGrid : t.Grid) (hPlaced : t.Placed) (hCols : s.term.cols = t.cols)
    (hRows : s.term.rows = t.rows) (hX : s.term.cursorX = t.cursorX) (hY : s.term.cursorY = t.cursorY) (cmd : Char)
    (p : Params) : Keeps t s (runCommand s cmd p) := by
  rw [runCommand]
  apply keeps_ite
  · exact fun _ => keeps_setTerm rfl rfl rfl rfl
  apply keeps_ite
  · exact fun _ => keeps_setTerm rfl rfl rfl rfl
  apply keeps_ite
  · exact fun _ => keeps_setTerm rfl rfl rfl rfl
  apply keeps_ite
  · exact fun _ => keeps_setTerm rfl rfl rfl rfl
  apply keeps_ite
  · exact fun _ => keeps_setTerm rfl rfl rfl rfl
  apply keeps_ite
  · intro _
    apply keeps_ite
    · exact fun _ => (draws_eraseScreen hGrid hCols hRows).toKeeps.trans (keeps_setTerm rfl rfl rfl rfl)
    · exact (Draws.refl t s).toKeeps
  apply keeps_ite
  · exact fun _ => (draws_eraseLine hGrid hPlaced hCols hX hY).toKeeps
  apply keeps_ite
  · intro _
    obtain ⟨hC, hR, hE, hL⟩ := selectRendition_keeps s.term ((List.range p.paramCount).map p.params)
    rw [List.foldl_map] at hC hR hE hL
    exact keeps_setTerm hC hR hE hL
  · exact (Draws.refl t s).toKeeps

end Draw

/-! ### Parameters -/

def Params.Room (p : Params) : Prop := p.paramCount < 8 ∨ p.paramCount = 8 ∧ p.inNum = false

theorem readParams_room (seq : Nat → Char) {n i : Nat} {p : Params} (h : p.Room) :
    (readParams seq n i p).1.Room ∧ ∀ a ∈ (readParams seq n i p).2, ∃ idx, a = .writeParams idx ∧ idx < 8 := by
  induction n generalizing i p with
  | zero => exact ⟨h, nofun⟩
  | succ n ih =>
    rw [readParams]
    split
    case isFalse => exact ⟨h, nofun⟩
    case isTrue hCount =>
      simp only
      split
      case isTrue => exact ih (Or.inl hCount)
      case isFalse =>
        split
        case isFalse => exact ih h
        case isTrue =>
          cases hNum : p.inNum with
          | false =>
            obtain ⟨hRoom, hLog⟩ := @ih (i + 1) { p with num := 0, inNum := false } (Or.inl hCount)
            simp only [Bool.false_eq_true, if_false, List.append_nil]
            exact ⟨hRoom, hLog⟩
          | true =>
            have hStored : Params.Room { p.store.1 with num := 0, inNum := false } := by
              by_cases hLast : p.paramCount = 7
              · exact Or.inr ⟨by simp [Params.store, hLast], rfl⟩
              · exact Or.inl (by simp only [Params.store]; omega)
            obtain ⟨hRoom, hLog⟩ := ih (i := i + 1) hStored
            simp only [if_true]
            refine ⟨hRoom, ?_⟩
            intro a hMem
            rcases List.mem_append.mp hMem with hLater | hHere
            · exact hLog a hLater
            · exact ⟨p.paramCount, List.mem_singleton.mp hHere, hCount⟩

theorem escapeParams_log (escapeBuf : Nat → Char) (len : Nat) :
    ∀ a ∈ (escapeParams escapeBuf len).2, ∃ idx, a = .writeParams idx ∧ idx < 8 := by
  have hStart : Params.Room ⟨fun _ => 0, 0, 0, false⟩ := Or.inl (by decide)
  obtain ⟨hRoom, hLog⟩ :=
    readParams_room (fun i => escapeBuf (i + 1)) (n := len - 1) (i := 0) hStart
  rw [escapeParams]
  generalize readParams (fun i => escapeBuf (i + 1)) (len - 1) 0 ⟨fun _ => 0, 0, 0, false⟩ = r at hRoom hLog
  simp only
  split
  case isFalse => exact hLog
  case isTrue hNum =>
    intro a hMem
    rcases List.mem_append.mp hMem with hLast | hBefore
    · refine ⟨r.1.paramCount, List.mem_singleton.mp hLast, ?_⟩
      rcases hRoom with hLt | ⟨-, hNone⟩
      · exact hLt
      · rw [hNone] at hNum
        cases hNum
    · exact hLog a hBefore

/-! ### Bytes -/

structure Terminal.Ready (t : Terminal) : Prop where
  grid : t.Grid
  escapeLen_le : t.inEscape = true → t.escapeLen ≤ 30

theorem clamp_bounds {x n : Int} (h : 0 < n) : 0 ≤ clamp x n ∧ clamp x n < n := by
  unfold clamp
  simp only
  split_ifs <;> omega

theorem termClampCursor_eq {t : Terminal} (h : t.Grid) :
    termClampCursor t = { t with cursorX := clamp t.cursorX t.cols, cursorY := clamp t.cursorY t.rows } := by
  have hCols := h.cols_pos
  have hRows := h.rows_pos
  rw [termClampCursor, if_neg (by omega)]

theorem Terminal.Grid.placed {t : Terminal} (h : t.Grid) : (termClampCursor t).Placed := by
  rw [termClampCursor_eq h]
  have hX := @clamp_bounds t.cursorX t.cols h.cols_pos
  have hY := @clamp_bounds t.cursorY t.rows h.rows_pos
  exact ⟨hX.1, hX.2, hY.1, hY.2⟩

structure Leaves (t : Terminal) (s : Screen) : Prop where
  cols : s.term.cols = t.cols
  rows : s.term.rows = t.rows
  escapeLen_le : s.term.inEscape = true → s.term.escapeLen ≤ 30
  log : ∀ a ∈ s.log, a.Safe t

section Bytes

variable {t : Terminal} {s s' : Screen} (hGrid : t.Grid) (hPlaced : t.Placed)

theorem Leaves.keeps (h : Leaves t s) (hKeeps : Keeps t s s') : Leaves t s' where
  cols := hKeeps.cols.trans h.cols
  rows := hKeeps.rows.trans h.rows
  escapeLen_le := by
    rw [hKeeps.inEscape, hKeeps.escapeLen]
    exact h.escapeLen_le
  log := by
    intro a hMem
    rcases hKeeps.log a hMem with hOld | hSafe
    · exact h.log a hOld
    · exact hSafe

include hGrid

theorem usable_of_grid : termIsUsable t = true := by
  simp [termIsUsable, hGrid.cols_pos, hGrid.rows_pos]

include hPlaced

theorem leaves_termProcessEscape (hCols : s.term.cols = t.cols) (hRows : s.term.rows = t.rows)
    (hX : s.term.cursorX = t.cursorX) (hY : s.term.cursorY = t.cursorY) (hLen : 1 ≤ s.term.escapeLen)
    (hLog : ∀ a ∈ s.log, a.Safe t) : Leaves t (termProcessEscape s) := by
  have hUsable : termIsUsable s.term = true := by
    simp [termIsUsable, hCols, hRows, hGrid.cols_pos, hGrid.rows_pos]
  rw [termProcessEscape, if_neg (by rw [hUsable]; simp; omega)]
  simp only
  split
  case isFalse => exact ⟨hCols, hRows, nofun, hLog⟩
  case isTrue =>
    have hParams := escapeParams_log s.term.escapeBuf s.term.escapeLen
    generalize escapeParams s.term.escapeBuf s.term.escapeLen = r at hParams ⊢
    have hKeeps := keeps_runCommand (s := { s with log := r.2 ++ s.log }) hGrid hPlaced hCols hRows hX hY
      (s.term.escapeBuf (s.term.escapeLen - 1)) r.1
    constructor
    · exact hKeeps.cols.trans hCols
    · exact hKeeps.rows.trans hRows
    · exact nofun
    · intro a hMem
      rcases hKeeps.log a hMem with hOld | hSafe
      · rcases List.mem_append.mp hOld with hParam | hBefore
        · obtain ⟨idx, rfl, hLt⟩ := hParams a hParam
          exact hLt
        · exact hLog a hBefore
      · exact hSafe

theorem leaves_escapePutc (hLen : t.escapeLen ≤ 30) (c : Char) : Leaves t (escapePutc ⟨t, []⟩ c) := by
  have hWrite : ∀ a ∈ [Access.writeEscapeBuf t.escapeLen], a.Safe t := by
    intro a hMem
    rw [List.mem_singleton.mp hMem]
    exact Nat.lt_of_le_of_lt hLen (by decide)
  rw [escapePutc]
  simp only
  split
  case isTrue => exact leaves_termProcessEscape hGrid hPlaced rfl rfl rfl rfl (Nat.le_add_left 1 _) hWrite
  case isFalse =>
    split
    case isTrue => exact ⟨rfl, rfl, nofun, hWrite⟩
    case isFalse hShort => exact ⟨rfl, rfl, fun _ => by simp only at hShort ⊢; omega, hWrite⟩

theorem termClampCursor_placed : termClampCursor t = t := by
  have hX : clamp t.cursorX t.cols = t.cursorX := by
    rw [clamp, if_neg (Int.not_lt.mpr hPlaced.x_nonneg)]
    exact if_neg (Int.not_le.mpr hPlaced.x_lt)
  have hY : clamp t.cursorY t.rows = t.cursorY := by
    rw [clamp, if_neg (Int.not_lt.mpr hPlaced.y_nonneg)]
    exact if_neg (Int.not_le.mpr hPlaced.y_lt)
  rw [termClampCursor_eq hGrid, hX, hY]

theorem keeps_printPutc (c : Char) : Keeps t ⟨t, []⟩ (printPutc ⟨t, []⟩ c) := by
  have hCell := safe_cell (s := ⟨t, []⟩) hGrid rfl t.cursorY t.cursorX hPlaced.y_nonneg hPlaced.y_lt hPlaced.x_nonneg
    hPlaced.x_lt
  have hSame : (Screen.setTerm ⟨t, []⟩ termClampCursor) = ⟨t, []⟩ := by
    rw [Screen.setTerm, termClampCursor_placed hGrid hPlaced]
  rw [printPutc]
  simp only [hSame]
  split
  case isTrue => exact (Draws.refl t _).toKeeps
  case isFalse =>
    have hSafe : (Access.writeCell .print (cellIndex t t.cursorY t.cursorX)).Safe t := ⟨hCell.2, hCell.1⟩
    have hPrint := draws_setCell (s := ⟨t, []⟩) hSafe c t.currentFg t.currentBg
    have hRight := hPrint.toKeeps.trans (keeps_setTerm (t := t)
      (f := fun t => t.setCursorX (wrap32 (t.cursorX + 1))) rfl rfl rfl rfl)
    split
    case isTrue => exact hRight.trans (keeps_termNewline hGrid hRight.cols hRight.rows)
    case isFalse => exact hRight

theorem leaves_usablePutc (hLen : t.inEscape = true → t.escapeLen ≤ 30) (c : Char) :
    Leaves t (usablePutc ⟨t, []⟩ c) := by
  have hStart : Leaves t ⟨t, []⟩ := ⟨rfl, rfl, hLen, nofun⟩
  rw [usablePutc]
  split
  case isTrue hEscape => exact leaves_escapePutc hGrid hPlaced (hLen hEscape) c
  case isFalse hText =>
    by_cases hBegin : c = '\x1b'
    · rw [if_pos hBegin]
      exact ⟨rfl, rfl, fun _ => Nat.zero_le _, nofun⟩
    · rw [if_neg hBegin]
      apply hStart.keeps
      apply keeps_ite
      · exact fun _ => keeps_termNewline hGrid rfl rfl
      apply keeps_ite
      · exact fun _ => keeps_setTerm rfl rfl rfl rfl
      apply keeps_ite
      · intro _
        apply keeps_setTerm <;> split <;> rfl
      apply keeps_ite
      · intro _
        have hTab : Keeps t ⟨t, []⟩
            (Screen.setTerm ⟨t, []⟩ fun t => t.setCursorX (wrap32 (t.cursorX + 8) / 8 * 8)) :=
          keeps_setTerm rfl rfl rfl rfl
        exact keeps_ite (fun _ => hTab.trans (keeps_termNewline hGrid hTab.cols hTab.rows)) hTab
      apply keeps_ite
      · exact fun _ => keeps_printPutc hGrid hPlaced c
      · exact (Draws.refl t _).toKeeps

end Bytes

theorem Terminal.Ready.putc {t : Terminal} (h : t.Ready) (c : Char) :
    (∀ a ∈ (termPutc t c).log, a.Safe (termClampCursor t)) ∧ (termPutc t c).term.Ready := by
  have hClamp := termClampCursor_eq h.grid
  have hGrid : (termClampCursor t).Grid := by
    rw [hClamp]
    exact ⟨h.grid.cols_pos, h.grid.rows_pos, h.grid.cells_lt⟩
  have hLen : (termClampCursor t).inEscape = true → (termClampCursor t).escapeLen ≤ 30 := by
    rw [hClamp]
    exact h.escapeLen_le
  have hLeaves := leaves_usablePutc hGrid h.grid.placed hLen c
  rw [termPutc, if_neg (by rw [usable_of_grid h.grid]; decide)]
  refine ⟨hLeaves.log, ?_, hLeaves.escapeLen_le⟩
  constructor
  · rw [hLeaves.cols]
    exact hGrid.cols_pos
  · rw [hLeaves.rows]
    exact hGrid.rows_pos
  · rw [hLeaves.cols, hLeaves.rows]
    exact hGrid.cells_lt

theorem Terminal.Ready.run {t : Terminal} (h : t.Ready) (bytes : List Char) :
    ∀ step ∈ termRun t bytes, ∀ a ∈ step.2, a.Safe (termClampCursor step.1) := by
  induction bytes generalizing t with
  | nil =>
    intro step hMem
    cases hMem
  | cons c bytes ih =>
    intro step hMem
    obtain ⟨hSafe, hNext⟩ := h.putc c
    rcases List.mem_cons.mp hMem with rfl | hRest
    · exact hSafe
    · exact ih hNext step hRest

/-- Whatever is fed to a terminal that is in no escape sequence, every access is safe for the terminal as the
byte finds it, with the cursor brought into the grid. -/
theorem terminal_stays_inside (t : Terminal) (hGrid : t.Grid) (hFresh : t.inEscape = false) (bytes : List Char) :
    ∀ step ∈ termRun t bytes, ∀ a ∈ step.2, a.Safe (termClampCursor step.1) := by
  have hReady : t.Ready := ⟨hGrid, by rw [hFresh]; exact nofun⟩
  exact hReady.run bytes

/-- The terminal that `term_create` makes, without its window. -/
def termCreate (cols rows : Int) : Terminal :=
  ⟨fun _ => ' ', fun _ => 7, fun _ => 0, cols, rows, 0, 0, 7, 0, false, fun _ => '\x00', 0⟩

theorem terminal_stays_inside_far :
    (termCreate 80 24).Grid ∧
      (∀ step ∈ termRun (termCreate 80 24) ['\x1b', '[', '9', '9', '9', 'C', 'x'],
        ∀ a ∈ step.2, a.Safe (termClampCursor step.1)) := by
  have hGrid : (termCreate 80 24).Grid := ⟨by decide, by decide, by decide⟩
  exact ⟨hGrid, terminal_stays_inside _ hGrid rfl _⟩

end UnixOS.Gui
