import UnixOS.Ipc.Pipe

/-! # A pipe is a queue

Any number of calls run at once, one lock section at a time and in any order. The bytes inserted so
far, in the order they were inserted, are the bytes removed so far followed by those in the ring.
-/

namespace UnixOS.Ipc

open RingBuffer

inductive PipeCall where
  | reading (count : Nat) (first : Bool)
  | readDone (bytes : List UInt8)
  | writing (buf : List UInt8) (written : Nat) (first : Bool)
  | writeDone (buf : List UInt8) (written : Nat) (ret : Int)

/-- `inserted` and `removed` record the bytes that went in, each with its call, and those that came
out. -/
structure PipeState where
  pipe : Pipe
  calls : List PipeCall
  inserted : List (Nat × UInt8)
  removed : List UInt8

inductive PipeEvent where
  | read (count : Nat)
  | write (buf : List UInt8)
  | lockSection (i : Nat)
  | releaseRead
  | releaseWrite

namespace PipeState

def init (buffer : Nat → UInt8) : PipeState := ⟨newPipe buffer, [], [], []⟩

def readSection (s : PipeState) (i count : Nat) (first : Bool) : PipeState :=
  match pipeRead s.pipe count first with
  | (pipe, none) => { s with pipe, calls := s.calls.set i (.reading count false) }
  | (pipe, some bytes) =>
    { s with pipe, calls := s.calls.set i (.readDone bytes), removed := s.removed ++ bytes }

def writeSection (s : PipeState) (i : Nat) (buf : List UInt8) (written : Nat) (first : Bool) :
    PipeState :=
  let (pipe, written', ret) := pipeWrite s.pipe buf written first
  { s with
    pipe
    calls := s.calls.set i (match ret with
      | none => .writing buf written' false
      | some ret => .writeDone buf written' ret)
    inserted := s.inserted ++ ((buf.drop written).take (written' - written)).map (i, ·) }

/-- A freed pipe takes no more part; each of its files is released once. -/
def step (s : PipeState) : PipeEvent → PipeState
  | .read count => { s with calls := s.calls ++ [.reading count true] }
  | .write buf => { s with calls := s.calls ++ [.writing buf 0 true] }
  | .lockSection i =>
    if s.pipe.unused then s
    else
      match s.calls[i]? with
      | some (.reading count first) => s.readSection i count first
      | some (.writing buf written first) => s.writeSection i buf written first
      | _ => s
  | .releaseRead => if 0 < s.pipe.readers then { s with pipe := pipeReleaseRead s.pipe } else s
  | .releaseWrite => if 0 < s.pipe.writers then { s with pipe := pipeReleaseWrite s.pipe } else s

def run (s : PipeState) (es : List PipeEvent) : PipeState := es.foldl step s

def queued (s : PipeState) : List UInt8 :=
  contents pipeSize s.pipe.buffer s.pipe.readPos s.pipe.count

def bytesOf (s : PipeState) (i : Nat) : List UInt8 :=
  (s.inserted.filter fun entry => entry.1 = i).map Prod.snd

end PipeState

def PipeCall.sent : PipeCall → List UInt8
  | .writing buf written _ => buf.take written
  | .writeDone buf written _ => buf.take written
  | _ => []

structure PipeState.Fifo (s : PipeState) : Prop where
  count_le : s.pipe.count ≤ pipeSize
  write_pos : s.pipe.writePos = (s.pipe.readPos + s.pipe.count) % pipeSize
  order : s.inserted.map Prod.snd = s.removed ++ s.queued
  own : ∀ (i : Nat) (call : PipeCall), s.calls[i]? = some call → s.bytesOf i = call.sent
  result : ∀ (i : Nat) (buf : List UInt8) (written : Nat) (ret : Int),
    s.calls[i]? = some (.writeDone buf written ret) →
      ret = (s.bytesOf i).length ∨ ret = -ePipe ∧ s.bytesOf i = [] ∧ s.pipe.readers = 0

/-! ### Sections -/

structure Pipe.Ring (p : Pipe) : Prop where
  count_le : p.count ≤ pipeSize
  read_lt : p.readPos < pipeSize
  write_pos : p.writePos = (p.readPos + p.count) % pipeSize
  readers_nonneg : 0 ≤ p.readers

def Pipe.queued (p : Pipe) : List UInt8 := contents pipeSize p.buffer p.readPos p.count

theorem pipeRead_spec {p : Pipe} (h : p.Ring) (count : Nat) (first : Bool) :
    (pipeRead p count first).1.Ring ∧ (pipeRead p count first).1.readers = p.readers ∧
      p.queued = (pipeRead p count first).2.getD [] ++ (pipeRead p count first).1.queued := by
  unfold pipeRead
  split
  case isTrue hEnd => exact ⟨h, rfl, rfl⟩
  case isFalse hOpen =>
    split
    case isTrue hWait => exact ⟨h, rfl, rfl⟩
    case isFalse hReady =>
      have hLe : (if count < p.count then count else p.count) ≤ p.count := by
        split <;> omega
      generalize (if count < p.count then count else p.count) = toRead at hLe
      obtain ⟨hList, hPos, -⟩ :=
        @contents_popAll UInt8 pipeSize p.buffer p.readPos p.count toRead h.read_lt hLe
      have hLt : (popAll pipeSize p.buffer p.readPos toRead).2 < pipeSize := by
        rw [hPos]
        exact Nat.mod_lt _ (by decide)
      have hWrite : p.writePos =
          ((popAll pipeSize p.buffer p.readPos toRead).2 + (p.count - toRead)) % pipeSize := by
        rw [hPos, h.write_pos, Nat.mod_add_mod]
        congr 1
        omega
      have hCount : p.count - toRead ≤ pipeSize := Nat.le_trans (Nat.sub_le _ _) h.count_le
      exact ⟨⟨hCount, hLt, hWrite, h.readers_nonneg⟩, rfl, hList⟩

/-- What a section of a write leaves: the next bytes of the buffer behind the queue, and a result
that counts all bytes inserted so far. -/
structure Wrote (p : Pipe) (buf : List UInt8) (written : Nat) (r : Pipe × Nat × Option Int) :
    Prop where
  ring : r.1.Ring
  readers : r.1.readers = p.readers
  written_le : written ≤ r.2.1
  le_length : r.2.1 ≤ buf.length
  queued : r.1.queued = p.queued ++ (buf.drop written).take (r.2.1 - written)
  result : ∀ ret ∈ r.2.2, ret = r.2.1 ∨ ret = -ePipe ∧ r.2.1 = 0 ∧ p.readers = 0

theorem Wrote.stay {p : Pipe} {buf : List UInt8} {written : Nat} {ret : Option Int} (h : p.Ring)
    (hWritten : written ≤ buf.length)
    (hResult : ∀ v ∈ ret, v = written ∨ v = -ePipe ∧ written = 0 ∧ p.readers = 0) :
    Wrote p buf written (p, written, ret) :=
  ⟨h, rfl, Nat.le_refl _, hWritten, by simp, hResult⟩

theorem Wrote.trans {p q : Pipe} {buf : List UInt8} {written n : Nat} {r : Pipe × Nat × Option Int}
    (hFirst : Wrote p buf written (q, written + n, none)) (hRest : Wrote q buf (written + n) r) :
    Wrote p buf written r := by
  have hFirstLe := hRest.written_le
  refine ⟨hRest.ring, hRest.readers.trans hFirst.readers, by omega, hRest.le_length, ?_, ?_⟩
  · have hQueued := hFirst.queued
    dsimp only at hQueued
    rw [hRest.queued, hQueued, List.append_assoc]
    congr 1
    obtain ⟨m, hm⟩ := Nat.exists_eq_add_of_le hFirstLe
    have hLeft : written + n - written = n := by omega
    have hRight : r.2.1 - (written + n) = m := by omega
    have hBoth : r.2.1 - written = n + m := by omega
    rw [hLeft, hRight, hBoth, List.take_add, List.drop_drop]
  · intro ret hRet
    have hReaders := hFirst.readers
    dsimp only at hReaders
    rw [← hReaders]
    exact hRest.result ret hRet

theorem Wrote.round {p : Pipe} {buf : List UInt8} {written toWrite : Nat} (h : p.Ring)
    (hRoom : p.count + toWrite ≤ pipeSize) (hLeft : written + toWrite ≤ buf.length) :
    Wrote p buf written
      ({ p with
        buffer := (pushAll pipeSize p.buffer p.writePos ((buf.drop written).take toWrite)).1
        writePos := (pushAll pipeSize p.buffer p.writePos ((buf.drop written).take toWrite)).2
        count := p.count + toWrite }, written + toWrite, none) := by
  have hLength : ((buf.drop written).take toWrite).length = toWrite := by
    rw [List.length_take, List.length_drop]
    omega
  obtain ⟨hList, hPos⟩ := @contents_pushAll UInt8 pipeSize p.buffer p.readPos p.count
    ((buf.drop written).take toWrite) (by rw [hLength]; exact hRoom)
  rw [hLength, ← h.write_pos] at hList hPos
  refine ⟨⟨hRoom, h.read_lt, hPos, h.readers_nonneg⟩, rfl, Nat.le_add_right _ _, hLeft, ?_, nofun⟩
  rw [Nat.add_sub_cancel_left]
  exact hList

theorem pipeWriteLoop_spec {p : Pipe} {buf : List UInt8} (h : p.Ring) (fuel : Nat) {written : Nat}
    (hWritten : written ≤ buf.length) : Wrote p buf written (pipeWriteLoop buf fuel p written) := by
  induction fuel generalizing p written with
  | zero => exact Wrote.stay h hWritten nofun
  | succ fuel ih =>
    unfold pipeWriteLoop
    split
    case isFalse hDone =>
      refine Wrote.stay h hWritten ?_
      rintro v ⟨⟩
      exact Or.inl rfl
    case isTrue hMore =>
      split
      case isTrue hFull => exact Wrote.stay h hWritten nofun
      case isFalse hRoom =>
        split
        case isTrue hNobody =>
          refine Wrote.stay h hWritten ?_
          rintro v ⟨⟩
          split
          case isTrue hSome => exact Or.inl rfl
          case isFalse hNone => exact Or.inr ⟨rfl, by omega, hNobody⟩
        case isFalse hSomebody =>
          have hCount := h.count_le
          dsimp only
          generalize hTo : (if buf.length - written < pipeSize - p.count then buf.length - written
            else pipeSize - p.count) = toWrite
          have hBounds : toWrite ≤ buf.length - written ∧ toWrite ≤ pipeSize - p.count := by
            rw [← hTo]
            split <;> omega
          have hRound := Wrote.round h (by omega : p.count + toWrite ≤ pipeSize)
            (by omega : written + toWrite ≤ buf.length)
          exact hRound.trans (ih hRound.ring (by omega))

theorem pipeWrite_spec {p : Pipe} {buf : List UInt8} (h : p.Ring) {written : Nat} {first : Bool}
    (hWritten : written ≤ buf.length) (hFirst : first = true → written = 0) :
    Wrote p buf written (pipeWrite p buf written first) := by
  unfold pipeWrite
  split
  case isTrue hNobody =>
    refine Wrote.stay h hWritten ?_
    rintro v ⟨⟩
    exact Or.inr ⟨rfl, hFirst hNobody.1, hNobody.2⟩
  case isFalse hOpen => exact pipeWriteLoop_spec h _ hWritten

/-! ### Runs -/

/-- A call in progress has written no more than there is, and nothing before its first section. -/
def PipeCall.Sane : PipeCall → Prop
  | .writing buf written first => written ≤ buf.length ∧ (first = true → written = 0)
  | .writeDone buf written _ => written ≤ buf.length
  | _ => True

structure PipeState.Inv (s : PipeState) : Prop where
  ring : s.pipe.Ring
  order : s.inserted.map Prod.snd = s.removed ++ s.pipe.queued
  callers : ∀ entry ∈ s.inserted, entry.1 < s.calls.length
  sane : ∀ (i : Nat) (call : PipeCall), s.calls[i]? = some call → call.Sane
  own : ∀ (i : Nat) (call : PipeCall), s.calls[i]? = some call → s.bytesOf i = call.sent
  result : ∀ (i : Nat) (buf : List UInt8) (written : Nat) (ret : Int),
    s.calls[i]? = some (.writeDone buf written ret) →
      ret = written ∨ ret = -ePipe ∧ written = 0 ∧ s.pipe.readers = 0

namespace PipeState

variable {s : PipeState}

theorem bytesOf_append (inserted : List (Nat × UInt8)) (i j : Nat) (bytes : List UInt8) :
    ((inserted ++ bytes.map (i, ·)).filter fun entry => entry.1 = j).map Prod.snd =
      (inserted.filter fun entry => entry.1 = j).map Prod.snd ++ if i = j then bytes else [] := by
  rw [List.filter_append, List.map_append]
  congr 1
  split
  case isTrue hSame =>
    subst hSame
    rw [List.filter_eq_self.mpr, List.map_map]
    · exact List.map_id bytes
    · intro entry hEntry
      obtain ⟨b, -, rfl⟩ := List.mem_map.mp hEntry
      exact decide_eq_true rfl
  case isFalse hOther =>
    rw [List.filter_eq_nil_iff.mpr, List.map_nil]
    intro entry hEntry
    obtain ⟨b, -, rfl⟩ := List.mem_map.mp hEntry
    simpa using hOther

theorem Inv.start (h : s.Inv) (call : PipeCall) (hSane : call.Sane) (hSent : call.sent = [])
    (hFresh : ∀ buf written ret, call ≠ .writeDone buf written ret) :
    Inv { s with calls := s.calls ++ [call] } := by
  have hCases : ∀ i c, (s.calls ++ [call])[i]? = some c →
      s.calls[i]? = some c ∨ i = s.calls.length ∧ c = call := by
    intro i c hCall
    obtain hOld | hNew := Nat.lt_or_ge i s.calls.length
    · rw [List.getElem?_append_left hOld] at hCall
      exact Or.inl hCall
    · rw [List.getElem?_append_right hNew, List.getElem?_singleton] at hCall
      split at hCall
      case isTrue hLast => exact Or.inr ⟨by omega, (Option.some.inj hCall).symm⟩
      case isFalse hBeyond => cases hCall
  refine ⟨h.ring, h.order, ?_, ?_, ?_, ?_⟩
  · intro entry hEntry
    rw [List.length_append, List.length_singleton]
    exact Nat.lt_succ_of_lt (h.callers entry hEntry)
  · intro i c hCall
    obtain hOld | ⟨-, rfl⟩ := hCases i c hCall
    · exact h.sane i c hOld
    · exact hSane
  · intro i c hCall
    obtain hOld | ⟨rfl, rfl⟩ := hCases i c hCall
    · exact h.own i c hOld
    · rw [hSent, bytesOf, List.filter_eq_nil_iff.mpr, List.map_nil]
      intro entry hEntry hSame
      exact absurd (of_decide_eq_true hSame) (Nat.ne_of_lt (h.callers entry hEntry))
  · intro i buf written ret hCall
    obtain hOld | ⟨-, hNew⟩ := hCases i _ hCall
    · exact h.result i buf written ret hOld
    · exact absurd hNew.symm (hFresh buf written ret)

theorem Inv.update (h : s.Inv) {i : Nat} {old : PipeCall} (new : PipeCall) {pipe : Pipe}
    {bytes out : List UInt8}
    (hOld : s.calls[i]? = some old) (hRing : pipe.Ring) (hReaders : pipe.readers = s.pipe.readers)
    (hQueue : s.pipe.queued ++ bytes = out ++ pipe.queued) (hSane : new.Sane)
    (hSent : new.sent = old.sent ++ bytes)
    (hResult : ∀ buf written ret, new = .writeDone buf written ret →
      ret = written ∨ ret = -ePipe ∧ written = 0 ∧ pipe.readers = 0) :
    Inv ⟨pipe, s.calls.set i new, s.inserted ++ bytes.map (i, ·), s.removed ++ out⟩ := by
  have hLt : i < s.calls.length := (List.getElem?_eq_some_iff.mp hOld).1
  have hCases : ∀ j c, (s.calls.set i new)[j]? = some c →
      i ≠ j ∧ s.calls[j]? = some c ∨ i = j ∧ c = new := by
    intro j c hCall
    rw [List.getElem?_set] at hCall
    split at hCall
    case isTrue hSame => exact Or.inr ⟨hSame, by simpa [hLt] using hCall.symm⟩
    case isFalse hOther => exact Or.inl ⟨hOther, hCall⟩
  refine ⟨hRing, ?_, ?_, ?_, ?_, ?_⟩
  · dsimp only
    rw [List.map_append, h.order, List.map_map, List.append_assoc, List.append_assoc, ← hQueue]
    congr 2
    exact List.map_id bytes
  · intro entry hEntry
    rw [List.length_set]
    obtain hBefore | hNew := List.mem_append.mp hEntry
    · exact h.callers entry hBefore
    · obtain ⟨b, -, rfl⟩ := List.mem_map.mp hNew
      exact hLt
  · intro j c hCall
    obtain ⟨-, hBefore⟩ | ⟨-, rfl⟩ := hCases j c hCall
    · exact h.sane j c hBefore
    · exact hSane
  · intro j c hCall
    rw [bytesOf, bytesOf_append]
    obtain ⟨hOther, hBefore⟩ | ⟨rfl, rfl⟩ := hCases j c hCall
    · rw [if_neg hOther, List.append_nil]
      exact h.own j c hBefore
    · rw [if_pos rfl, hSent, ← h.own i old hOld]
      rfl
  · intro j buf written ret hCall
    obtain ⟨-, hBefore⟩ | ⟨-, hNew⟩ := hCases j _ hCall
    · dsimp only
      rw [hReaders]
      exact h.result j buf written ret hBefore
    · exact hResult buf written ret hNew.symm

theorem Inv.readSection (h : s.Inv) {i count : Nat} {first : Bool}
    (hCall : s.calls[i]? = some (.reading count first)) : (s.readSection i count first).Inv := by
  obtain ⟨hRing, hReaders, hQueue⟩ := pipeRead_spec h.ring count first
  unfold PipeState.readSection
  rcases hRead : pipeRead s.pipe count first with ⟨pipe, result⟩
  rw [hRead] at hRing hReaders hQueue
  rw [← List.append_nil s.pipe.queued] at hQueue
  cases result with
  | none =>
    have hNext := h.update (.reading count false) hCall hRing hReaders hQueue trivial rfl nofun
    simpa using hNext
  | some bytes =>
    have hNext := h.update (.readDone bytes) hCall hRing hReaders hQueue trivial rfl nofun
    simpa using hNext

theorem Inv.writeSection (h : s.Inv) {i : Nat} {buf : List UInt8} {written : Nat} {first : Bool}
    (hCall : s.calls[i]? = some (.writing buf written first)) :
    (s.writeSection i buf written first).Inv := by
  obtain ⟨hWritten, hFirst⟩ := h.sane i _ hCall
  have hWrote := pipeWrite_spec h.ring hWritten hFirst
  unfold PipeState.writeSection
  rcases hWrite : pipeWrite s.pipe buf written first with ⟨pipe, written', result⟩
  rw [hWrite] at hWrote
  have hQueue : s.pipe.queued ++ (buf.drop written).take (written' - written) =
      [] ++ pipe.queued := hWrote.queued.symm
  have hSent : buf.take written' =
      buf.take written ++ (buf.drop written).take (written' - written) := by
    have hLe : written ≤ written' := hWrote.written_le
    rw [← List.take_add, Nat.add_sub_cancel' hLe]
  cases result with
  | none =>
    have hNext := h.update (.writing buf written' false) hCall hWrote.ring hWrote.readers
      hQueue ⟨hWrote.le_length, nofun⟩ hSent nofun
    rw [List.append_nil] at hNext
    exact hNext
  | some ret =>
    have hNext := h.update (.writeDone buf written' ret) hCall hWrote.ring hWrote.readers
      hQueue hWrote.le_length hSent ?_
    · rw [List.append_nil] at hNext
      exact hNext
    · rintro buf'' written'' ret'' ⟨⟩
      have hResult := hWrote.result ret rfl
      rw [← hWrote.readers] at hResult
      exact hResult

theorem Inv.release (h : s.Inv) {pipe : Pipe} (hRing : pipe.Ring)
    (hQueue : pipe.queued = s.pipe.queued) (hReaders : s.pipe.readers = 0 → pipe.readers = 0) :
    Inv { s with pipe } := by
  refine ⟨hRing, ?_, h.callers, h.sane, h.own, ?_⟩
  · dsimp only
    rw [hQueue]
    exact h.order
  · intro i buf written ret hCall
    exact (h.result i buf written ret hCall).imp_right fun hNone =>
      ⟨hNone.1, hNone.2.1, hReaders hNone.2.2⟩

theorem Inv.step (h : s.Inv) (e : PipeEvent) : (s.step e).Inv := by
  cases e with
  | read count => exact h.start (.reading count true) trivial rfl nofun
  | write buf =>
    exact h.start (.writing buf 0 true) ⟨Nat.zero_le _, fun _ => rfl⟩ rfl nofun
  | lockSection i =>
    unfold PipeState.step
    dsimp only
    split
    case isTrue hFreed => exact h
    case isFalse hAlive =>
      split
      case h_1 count first hCall => exact h.readSection hCall
      case h_2 buf written first hCall => exact h.writeSection hCall
      case h_3 => exact h
  | releaseRead =>
    unfold PipeState.step
    dsimp only
    split
    case isTrue hOpen =>
      obtain ⟨hCount, hRead, hWrite, -⟩ := h.ring
      refine h.release ⟨hCount, hRead, hWrite, ?_⟩ rfl ?_
      · show 0 ≤ s.pipe.readers - 1
        omega
      · intro hNone
        omega
    case isFalse hClosed => exact h
  | releaseWrite =>
    unfold PipeState.step
    dsimp only
    split
    case isTrue hOpen =>
      obtain ⟨hCount, hRead, hWrite, hNonneg⟩ := h.ring
      exact h.release ⟨hCount, hRead, hWrite, hNonneg⟩ rfl id
    case isFalse hClosed => exact h

theorem Inv.run (h : s.Inv) (es : List PipeEvent) : (s.run es).Inv := by
  induction es generalizing s with
  | nil => exact h
  | cons e es ih => exact ih (h.step e)

theorem Inv.init (buffer : Nat → UInt8) : (PipeState.init buffer).Inv :=
  ⟨⟨Nat.zero_le _, (by decide : 0 < pipeSize), rfl, (by decide : (0 : Int) ≤ 1)⟩, rfl, nofun, nofun,
    nofun, nofun⟩

theorem Inv.fifo (h : s.Inv) : s.Fifo := by
  refine ⟨h.ring.count_le, h.ring.write_pos, h.order, h.own, ?_⟩
  intro i buf written ret hCall
  have hBytes : s.bytesOf i = buf.take written := h.own i _ hCall
  have hWritten : written ≤ buf.length := h.sane i _ hCall
  obtain hCount | ⟨hRet, rfl, hReaders⟩ := h.result i buf written ret hCall
  · rw [hBytes, List.length_take, Nat.min_eq_left hWritten]
    exact Or.inl hCount
  · exact Or.inr ⟨hRet, hBytes, hReaders⟩

end PipeState

/-- In every state of every interleaving of reads, writes and releases. -/
theorem pipe_fifo (buffer : Nat → UInt8) (es : List PipeEvent) :
    ((PipeState.init buffer).run es).Fifo :=
  ((PipeState.Inv.init buffer).run es).fifo

end UnixOS.Ipc
