import UnixOS.Ipc.PipeFifo

/-! # The two files of a pipe

`do_pipe` makes the files by hand: they have operations and a pipe, but no dentry. `vfs_close` of
`kernel/fs/vfs.c` runs a file's `release` only if the file has one.
-/

namespace UnixOS.Ipc

inductive PipeOps where
  | readOps
  | writeOps
deriving DecidableEq

/-- A `struct file`; a dentry is an address, `none` is `NULL`. -/
structure PipeFile where
  fOp : PipeOps
  fDentry : Option Nat
  fCount : Int
deriving DecidableEq

/-- A pipe with its files; a file that was freed is `none`. -/
structure PipeEnds where
  state : PipeState
  frees : Nat
  readFile : Option PipeFile
  writeFile : Option PipeFile

inductive EndsEvent where
  | read (f : PipeOps) (count : Nat)
  | write (f : PipeOps) (buf : List UInt8)
  | lockSection (i : Nat)
  | close (f : PipeOps)

/-- The arguments say what the four allocations return. -/
def doPipe (pipe : Bool) (buffer : Option (Nat → UInt8)) (rf wf : Bool) : Except Int PipeEnds :=
  if pipe = false then .error (-eNoMem)
  else
    match buffer with
    | none => .error (-eNoMem)
    | some buffer =>
      if rf = false ∨ wf = false then .error (-eNoMem)
      else .ok
        { state := .init buffer, frees := 0
          readFile := some ⟨.readOps, none, 1⟩, writeFile := some ⟨.writeOps, none, 1⟩ }

namespace PipeEnds

def file (s : PipeEnds) : PipeOps → Option PipeFile
  | .readOps => s.readFile
  | .writeOps => s.writeFile

def setFile (s : PipeEnds) (f : Option PipeFile) : PipeOps → PipeEnds
  | .readOps => { s with readFile := f }
  | .writeOps => { s with writeFile := f }

/-- `pipe_release_read` and `pipe_release_write` by the file's operations. -/
def release (s : PipeEnds) (f : PipeFile) : PipeEnds :=
  let pipe := match f.fOp with
    | .readOps => pipeReleaseRead s.state.pipe
    | .writeOps => pipeReleaseWrite s.state.pipe
  { s with state := { s.state with pipe }, frees := if pipe.unused then s.frees + 1 else s.frees }

/-- `vfs_close` on one of the files, if it is still there. -/
def vfsClose (s : PipeEnds) (which : PipeOps) : PipeEnds :=
  match s.file which with
  | none => s
  | some f =>
    let s := if f.fDentry.isSome then s.release f else s
    let f := { f with fCount := f.fCount - 1 }
    s.setFile (if f.fCount ≤ 0 then none else some f) which

/-- A file without the operation asked for answers `-EINVAL` at once. -/
def step (s : PipeEnds) : EndsEvent → PipeEnds
  | .read which count =>
    match s.file which with
    | some ⟨.readOps, _, _⟩ => { s with state := s.state.step (.read count) }
    | _ => s
  | .write which buf =>
    match s.file which with
    | some ⟨.writeOps, _, _⟩ => { s with state := s.state.step (.write buf) }
    | _ => s
  | .lockSection i => { s with state := s.state.step (.lockSection i) }
  | .close which => s.vfsClose which

def run (s : PipeEnds) (es : List EndsEvent) : PipeEnds := es.foldl step s

/-- The counts are those of the open files; a reader with no writer left gets the end of the stream
from an empty pipe, a writer with no reader left an error, and the pipe goes with its second file. -/
structure Accounted (s : PipeEnds) : Prop where
  readers : s.state.pipe.readers = if s.readFile.isSome then 1 else 0
  writers : s.state.pipe.writers = if s.writeFile.isSome then 1 else 0
  drained : s.readFile ≠ none → s.writeFile = none → s.state.pipe.count = 0 →
    ∀ count first, (pipeRead s.state.pipe count first).2 = some []
  broken : s.readFile = none → s.writeFile ≠ none →
    ∀ buf, (pipeWrite s.state.pipe buf 0 true).2.2 = some (-ePipe)
  freed : s.frees = if s.readFile = none ∧ s.writeFile = none then 1 else 0

/-! ### Runs -/

structure Untouched (s : PipeEnds) : Prop where
  readers : s.state.pipe.readers = 1
  writers : s.state.pipe.writers = 1
  frees : s.frees = 0
  files : ∀ which, ∀ f ∈ s.file which, f.fDentry = none ∧ f.fCount = 1

theorem pipeRead_ends (p : Pipe) (count : Nat) (first : Bool) :
    (pipeRead p count first).1.readers = p.readers ∧
      (pipeRead p count first).1.writers = p.writers := by
  unfold pipeRead
  split
  case isTrue hEnd => exact ⟨rfl, rfl⟩
  case isFalse hOpen =>
    split
    case isTrue hWait => exact ⟨rfl, rfl⟩
    case isFalse hReady => exact ⟨rfl, rfl⟩

theorem pipeWriteLoop_ends (buf : List UInt8) (fuel : Nat) (p : Pipe) (written : Nat) :
    (pipeWriteLoop buf fuel p written).1.readers = p.readers ∧
      (pipeWriteLoop buf fuel p written).1.writers = p.writers := by
  induction fuel generalizing p written with
  | zero => exact ⟨rfl, rfl⟩
  | succ fuel ih =>
    unfold pipeWriteLoop
    split
    case isFalse hDone => exact ⟨rfl, rfl⟩
    case isTrue hMore =>
      split
      case isTrue hFull => exact ⟨rfl, rfl⟩
      case isFalse hRoom =>
        split
        case isTrue hNobody => exact ⟨rfl, rfl⟩
        case isFalse hSomebody => exact ih _ _

theorem lockSection_ends (s : PipeState) (i : Nat) :
    (s.step (.lockSection i)).pipe.readers = s.pipe.readers ∧
      (s.step (.lockSection i)).pipe.writers = s.pipe.writers := by
  unfold PipeState.step
  dsimp only
  split
  case isTrue hFreed => exact ⟨rfl, rfl⟩
  case isFalse hAlive =>
    split
    case h_1 count first hCall =>
      have hEnds := pipeRead_ends s.pipe count first
      unfold PipeState.readSection
      split
      case h_1 pipe hRead =>
        rw [hRead] at hEnds
        exact hEnds
      case h_2 pipe bytes hRead =>
        rw [hRead] at hEnds
        exact hEnds
    case h_2 buf written first hCall =>
      unfold PipeState.writeSection pipeWrite
      dsimp only
      split
      case isTrue hNobody => exact ⟨rfl, rfl⟩
      case isFalse hOpen => exact pipeWriteLoop_ends buf _ s.pipe written
    case h_3 => exact ⟨rfl, rfl⟩

variable {s : PipeEnds}

theorem Untouched.vfsClose (h : s.Untouched) (which : PipeOps) :
    s.vfsClose which = s.setFile none which := by
  unfold PipeEnds.vfsClose
  split
  case h_1 hClosed =>
    cases which with
    | readOps => exact congrArg (fun f => { s with readFile := f }) hClosed
    | writeOps => exact congrArg (fun f => { s with writeFile := f }) hClosed
  case h_2 f hOpen =>
    obtain ⟨hDentry, hCount⟩ := h.files which f hOpen
    simp only [hDentry, hCount, Option.isSome_none, Bool.false_eq_true, if_false, Int.sub_self,
      Int.le_refl, if_true]

theorem Untouched.step (h : s.Untouched) (e : EndsEvent) : (s.step e).Untouched := by
  cases e with
  | read which count =>
    unfold PipeEnds.step
    dsimp only
    split
    case h_1 hFile => exact ⟨h.readers, h.writers, h.frees, h.files⟩
    case h_2 => exact h
  | write which buf =>
    unfold PipeEnds.step
    dsimp only
    split
    case h_1 hFile => exact ⟨h.readers, h.writers, h.frees, h.files⟩
    case h_2 => exact h
  | lockSection i =>
    obtain ⟨hReaders, hWriters⟩ := lockSection_ends s.state i
    exact ⟨hReaders.trans h.readers, hWriters.trans h.writers, h.frees, h.files⟩
  | close which =>
    show (s.vfsClose which).Untouched
    rw [h.vfsClose]
    cases which with
    | readOps =>
      refine ⟨h.readers, h.writers, h.frees, ?_⟩
      intro other f hf
      cases other with
      | readOps => cases hf
      | writeOps => exact h.files .writeOps f hf
    | writeOps =>
      refine ⟨h.readers, h.writers, h.frees, ?_⟩
      intro other f hf
      cases other with
      | readOps => exact h.files .readOps f hf
      | writeOps => cases hf

theorem Untouched.file_step (h : s.Untouched) (e : EndsEvent) (which : PipeOps) :
    (s.step e).file which = none ↔ s.file which = none ∨ e = .close which := by
  cases e with
  | read other count =>
    have hSame : (s.step (.read other count)).file which = s.file which := by
      unfold PipeEnds.step
      dsimp only
      split <;> rfl
    simp only [hSame, reduceCtorEq, or_false]
  | write other buf =>
    have hSame : (s.step (.write other buf)).file which = s.file which := by
      unfold PipeEnds.step
      dsimp only
      split <;> rfl
    simp only [hSame, reduceCtorEq, or_false]
  | lockSection i =>
    have hSame : (s.step (.lockSection i)).file which = s.file which := rfl
    simp only [hSame, reduceCtorEq, or_false]
  | close other =>
    show (s.vfsClose other).file which = none ↔ _
    rw [h.vfsClose]
    cases other <;> cases which <;> simp [setFile, file]

theorem Untouched.run (h : s.Untouched) (es : List EndsEvent) :
    (s.run es).Untouched ∧
      ∀ which, (s.run es).file which = none ↔ s.file which = none ∨ .close which ∈ es := by
  induction es generalizing s with
  | nil => exact ⟨h, fun which => by simp [PipeEnds.run]⟩
  | cons e es ih =>
    obtain ⟨hEnd, hFiles⟩ := ih (h.step e)
    refine ⟨hEnd, fun which => ?_⟩
    have hFirst := h.file_step e which
    rw [PipeEnds.run, List.foldl_cons, ← PipeEnds.run, hFiles which, hFirst, List.mem_cons,
      or_assoc, eq_comm (a := e)]

end PipeEnds

theorem doPipe_untouched {pipe rf wf : Bool} {buffer : Option (Nat → UInt8)} {s : PipeEnds}
    (h : doPipe pipe buffer rf wf = .ok s) : s.Untouched ∧ ∀ which, s.file which ≠ none := by
  unfold doPipe at h
  split at h
  case isTrue hNoPipe => cases h
  case isFalse hPipe =>
    split at h
    case h_1 => cases h
    case h_2 contents =>
      split at h
      case isTrue hNoFiles => cases h
      case isFalse hFiles =>
        cases h
        refine ⟨⟨rfl, rfl, rfl, ?_⟩, ?_⟩
        · intro which f hf
          cases which <;> cases hf <;> exact ⟨rfl, rfl⟩
        · intro which
          cases which <;> exact Option.some_ne_none _

/-- The accounts of a pipe are right exactly as long as neither of its files has been closed. -/
theorem pipe_accounted_iff {pipe rf wf : Bool} {buffer : Option (Nat → UInt8)} {s : PipeEnds}
    (hPipe : doPipe pipe buffer rf wf = .ok s) (es : List EndsEvent) :
    (s.run es).Accounted ↔ ∀ which, EndsEvent.close which ∉ es := by
  obtain ⟨hUntouched, hOpen⟩ := doPipe_untouched hPipe
  obtain ⟨hEnd, hFiles⟩ := hUntouched.run es
  constructor
  · intro hAccounted which hClose
    have hGone := (hFiles which).mpr (Or.inr hClose)
    cases which with
    | readOps =>
      have hReaders := hAccounted.readers
      rw [hEnd.readers, show (s.run es).readFile = none from hGone] at hReaders
      cases hReaders
    | writeOps =>
      have hWriters := hAccounted.writers
      rw [hEnd.writers, show (s.run es).writeFile = none from hGone] at hWriters
      cases hWriters
  · intro hNone
    have hThere : ∀ which, (s.run es).file which ≠ none := by
      intro which hGone
      exact ((hFiles which).mp hGone).elim (hOpen which) (hNone which)
    have hRead : (s.run es).readFile ≠ none := hThere .readOps
    have hWrite : (s.run es).writeFile ≠ none := hThere .writeOps
    refine ⟨?_, ?_, fun _ hGone => absurd hGone hWrite, fun hGone => absurd hGone hRead, ?_⟩
    · rw [hEnd.readers, Option.isSome_iff_ne_none.mpr hRead]
      rfl
    · rw [hEnd.writers, Option.isSome_iff_ne_none.mpr hWrite]
      rfl
    · rw [hEnd.frees, if_neg fun hBoth => hRead hBoth.1]

theorem closed_writer_still_counted :
    ∃ s, doPipe true (some fun _ => 0) true true = .ok s ∧
      ¬ (s.run [.close .writeOps]).Accounted ∧
      (pipeRead (s.run [.close .writeOps]).state.pipe 1 true).2 = none := by
  refine ⟨_, rfl, ?_, by decide⟩
  intro hAccounted
  exact absurd hAccounted.writers (by decide)

theorem pipe_accounted_iff_open :
    ∃ s, doPipe true (some fun _ => 0) true true = .ok s ∧
      (s.run [.write .writeOps [1, 2, 3], .lockSection 0, .read .readOps 1,
        .lockSection 1]).Accounted := by
  have hPipe : doPipe true (some fun _ => 0) true true = .ok _ := rfl
  refine ⟨_, hPipe, (pipe_accounted_iff hPipe _).mpr ?_⟩
  intro which hClose
  simp only [List.mem_cons, reduceCtorEq, List.not_mem_nil, or_false] at hClose

end UnixOS.Ipc
