import Mathlib.Algebra.GroupWithZero.Nat
import Mathlib.Algebra.Group.Int.Defs
import Mathlib.Logic.Function.Basic

/-! # The terminal emulator

`term_putc` and what it calls in `kernel/gui/terminal.c`, with 32-bit arithmetic that wraps around. Every use of
the cells and every write to `escape_buf` and `params` is recorded with its index. The three arrays of cells are
used at the same indices, but an erased line keeps its colours.
-/

namespace UnixOS.Gui

def wrap32 (x : Int) : Int := x.bmod (2 ^ 32)

structure Terminal where
  chars : Int → Char
  fgColors : Int → Int
  bgColors : Int → Int
  cols : Int
  rows : Int
  cursorX : Int
  cursorY : Int
  currentFg : Int
  currentBg : Int
  inEscape : Bool
  escapeBuf : Nat → Char
  escapeLen : Nat

namespace Terminal

variable (t : Terminal)

def setCursorX (x : Int) : Terminal := { t with cursorX := x }

def setCursorY (y : Int) : Terminal := { t with cursorY := y }

def setCurrentFg (fg : Int) : Terminal := { t with currentFg := fg }

def setCurrentBg (bg : Int) : Terminal := { t with currentBg := bg }

def beginEscape : Terminal := { t with inEscape := true, escapeLen := 0 }

def endEscape : Terminal := { t with inEscape := false, escapeLen := 0 }

end Terminal

inductive Cause where
  | print
  | scroll
  | eraseLine
  | eraseScreen

inductive Access where
  | readCell (idx : Int)
  | writeCell (cause : Cause) (idx : Int)
  | writeEscapeBuf (idx : Nat)
  | writeParams (idx : Nat)

structure Screen where
  term : Terminal
  log : List Access

namespace Screen

variable (s : Screen)

def setTerm (f : Terminal → Terminal) : Screen := { s with term := f s.term }

def setCell (cause : Cause) (idx : Int) (c : Char) (fg bg : Int) : Screen where
  term :=
    { s.term with
      chars := Function.update s.term.chars idx c
      fgColors := Function.update s.term.fgColors idx fg
      bgColors := Function.update s.term.bgColors idx bg }
  log := .writeCell cause idx :: s.log

def setChar (cause : Cause) (idx : Int) (c : Char) : Screen where
  term := { s.term with chars := Function.update s.term.chars idx c }
  log := .writeCell cause idx :: s.log

def copyCell (src dst : Int) : Screen :=
  { s with log := .readCell src :: s.log }.setCell .scroll dst (s.term.chars src) (s.term.fgColors src)
    (s.term.bgColors src)

end Screen

def termIsUsable (t : Terminal) : Bool := t.cols > 0 ∧ t.rows > 0

def clamp (x n : Int) : Int :=
  let x := if x < 0 then 0 else x
  if x ≥ n then n - 1 else x

def termClampCursor (t : Terminal) : Terminal :=
  if t.cols ≤ 0 ∨ t.rows ≤ 0 then { t with cursorX := 0, cursorY := 0 }
  else { t with cursorX := clamp t.cursorX t.cols, cursorY := clamp t.cursorY t.rows }

def cellIndex (t : Terminal) (row col : Int) : Int := wrap32 (wrap32 (row * t.cols) + col)

def termClearLine (s : Screen) (cause : Cause) (row : Int) : Screen :=
  if termIsUsable s.term = false ∨ row < 0 ∨ row ≥ s.term.rows then s
  else
    (List.range s.term.cols.toNat).foldl
      (fun s (col : Nat) => s.setCell cause (cellIndex s.term row col) ' ' s.term.currentFg s.term.currentBg) s

def termScrollUp (s : Screen) : Screen :=
  if termIsUsable s.term = false then s
  else
    let s := (List.range (s.term.rows - 1).toNat).foldl
      (fun s (row : Nat) => (List.range s.term.cols.toNat).foldl
        (fun s (col : Nat) => s.copyCell (cellIndex s.term (row + 1) col) (cellIndex s.term row col)) s) s
    termClearLine s .scroll (s.term.rows - 1)

def termNewline (s : Screen) : Screen :=
  if termIsUsable s.term = false then s
  else
    let s := s.setTerm fun t => (t.setCursorX 0).setCursorY (wrap32 (t.cursorY + 1))
    if s.term.cursorY ≥ s.term.rows then
      (termScrollUp s).setTerm fun t => t.setCursorY (t.rows - 1)
    else s

/-! ### Escape sequences -/

structure Params where
  params : Nat → Int
  paramCount : Nat
  num : Int
  inNum : Bool

def Params.store (p : Params) : Params × List Access :=
  ({ p with params := Function.update p.params p.paramCount p.num, paramCount := p.paramCount + 1 },
    [.writeParams p.paramCount])

/-- The loop over the sequence, `n` characters from `seq[i]` on. -/
def readParams (seq : Nat → Char) : Nat → Nat → Params → Params × List Access
  | 0, _, p => (p, [])
  | n + 1, i, p =>
    if p.paramCount < 8 then
      let c := seq i
      if '0' ≤ c ∧ c ≤ '9' then
        readParams seq n (i + 1)
          { p with num := wrap32 (wrap32 (p.num * 10) + (c.toNat - '0'.toNat : Nat)), inNum := true }
      else if c = ';' then
        let (q, log) := if p.inNum then p.store else (p, [])
        let (q, log') := readParams seq n (i + 1) { q with num := 0, inNum := false }
        (q, log' ++ log)
      else readParams seq n (i + 1) p
    else (p, [])

def escapeParams (escapeBuf : Nat → Char) (len : Nat) : Params × List Access :=
  let (p, log) := readParams (fun i => escapeBuf (i + 1)) (len - 1) 0 ⟨fun _ => 0, 0, 0, false⟩
  if p.inNum then
    let (p, log') := p.store
    (p, log' ++ log)
  else (p, log)

def motion (p : Params) : Int := if p.params 0 > 0 then p.params 0 else 1

def selectRendition (t : Terminal) (p : Int) : Terminal :=
  if p = 0 then (t.setCurrentFg 7).setCurrentBg 0
  else if p ≥ 30 ∧ p ≤ 37 then t.setCurrentFg (p - 30)
  else if p ≥ 40 ∧ p ≤ 47 then t.setCurrentBg (p - 40)
  else if p ≥ 90 ∧ p ≤ 97 then t.setCurrentFg (p - 90 + 8)
  else if p ≥ 100 ∧ p ≤ 107 then t.setCurrentBg (p - 100 + 8)
  else t

/-- The `switch` over the last character of a sequence. -/
def runCommand (s : Screen) (cmd : Char) (p : Params) : Screen :=
  if cmd = 'A' then
    s.setTerm fun t =>
      let y := wrap32 (t.cursorY - motion p)
      t.setCursorY (if y < 0 then 0 else y)
  else if cmd = 'B' then
    s.setTerm fun t =>
      let y := wrap32 (t.cursorY + motion p)
      t.setCursorY (if y ≥ t.rows then t.rows - 1 else y)
  else if cmd = 'C' then
    s.setTerm fun t =>
      let x := wrap32 (t.cursorX + motion p)
      t.setCursorX (if x ≥ t.cols then t.cols - 1 else x)
  else if cmd = 'D' then
    s.setTerm fun t =>
      let x := wrap32 (t.cursorX - motion p)
      t.setCursorX (if x < 0 then 0 else x)
  else if cmd = 'H' ∨ cmd = 'f' then
    s.setTerm fun t =>
      let y := if p.params 0 > 0 then p.params 0 - 1 else 0
      let x := if p.paramCount > 1 ∧ p.params 1 > 0 then p.params 1 - 1 else 0
      (t.setCursorY (if y ≥ t.rows then t.rows - 1 else y)).setCursorX (if x ≥ t.cols then t.cols - 1 else x)
  else if cmd = 'J' then
    if p.params 0 = 2 then
      ((List.range s.term.rows.toNat).foldl (fun s (row : Nat) => termClearLine s .eraseScreen row) s).setTerm
        fun t => (t.setCursorX 0).setCursorY 0
    else s
  else if cmd = 'K' then
    (List.range (s.term.cols - s.term.cursorX).toNat).foldl
      (fun s (i : Nat) => s.setChar .eraseLine (cellIndex s.term s.term.cursorY (s.term.cursorX + i)) ' ') s
  else if cmd = 'm' then
    s.setTerm fun t => (List.range p.paramCount).foldl (fun t i => selectRendition t (p.params i)) t
  else s

def termProcessEscape (s : Screen) : Screen :=
  if termIsUsable s.term = false ∨ s.term.escapeLen < 1 then s
  else
    let s :=
      if s.term.escapeBuf 0 = '[' then
        let (p, log) := escapeParams s.term.escapeBuf s.term.escapeLen
        runCommand { s with log := log ++ s.log } (s.term.escapeBuf (s.term.escapeLen - 1)) p
      else s
    s.setTerm Terminal.endEscape

/-! ### Characters -/

def escapePutc (s : Screen) (c : Char) : Screen :=
  let s : Screen :=
    { term :=
        { s.term with
          escapeBuf := Function.update s.term.escapeBuf s.term.escapeLen c
          escapeLen := s.term.escapeLen + 1 }
      log := .writeEscapeBuf s.term.escapeLen :: s.log }
  if ('A' ≤ c ∧ c ≤ 'Z') ∨ ('a' ≤ c ∧ c ≤ 'z') ∨ c = '~' then termProcessEscape s
  else if s.term.escapeLen ≥ 31 then s.setTerm Terminal.endEscape
  else s

def printPutc (s : Screen) (c : Char) : Screen :=
  let s := s.setTerm termClampCursor
  let idx := cellIndex s.term s.term.cursorY s.term.cursorX
  let max := wrap32 (s.term.cols * s.term.rows)
  if idx < 0 ∨ idx ≥ max then s
  else
    let s := s.setCell .print idx c s.term.currentFg s.term.currentBg
    let s := s.setTerm fun t => t.setCursorX (wrap32 (t.cursorX + 1))
    if s.term.cursorX ≥ s.term.cols then termNewline s else s

def usablePutc (s : Screen) (c : Char) : Screen :=
  if s.term.inEscape then escapePutc s c
  else if c = '\x1b' then s.setTerm Terminal.beginEscape
  else if c = '\n' then termNewline s
  else if c = '\r' then s.setTerm fun t => t.setCursorX 0
  else if c = '\x08' then s.setTerm fun t => if t.cursorX > 0 then t.setCursorX (t.cursorX - 1) else t
  else if c = '\t' then
    -- `(x + 8) & ~7`
    let s := s.setTerm fun t => t.setCursorX (wrap32 (t.cursorX + 8) / 8 * 8)
    if s.term.cursorX ≥ s.term.cols then termNewline s else s
  else if c.toNat ≥ 32 ∧ c.toNat < 127 then printPutc s c
  else s

def termPutc (t : Terminal) (c : Char) : Screen :=
  if termIsUsable t = false then ⟨t, []⟩ else usablePutc ⟨termClampCursor t, []⟩ c

def termRun : Terminal → List Char → List (Terminal × List Access)
  | _, [] => []
  | t, c :: cs => (t, (termPutc t c).log) :: termRun (termPutc t c).term cs

end UnixOS.Gui
