import UnixOS.Lib.RingBuffer

/-! # Pipes

The ring and the file operations of `kernel/ipc/pipe.c`. A call of `pipe_read` or
`pipe_write` is cut where it gives up the lock: what it does between taking and releasing the lock is
one section, and a section ends with the call's return or with the call waiting.
-/

namespace UnixOS.Ipc

open RingBuffer

def pipeSize : Nat := 4096
def ePipe : Int := 32
def eNoMem : Int := 12

structure Pipe where
  buffer : Nat → UInt8
  readPos : Nat
  writePos : Nat
  count : Nat
  readers : Int
  writers : Int

/-- A section of `pipe_read`; `none` is a call that goes on waiting. Only the first section of a
call looks for the end of the stream before it waits. -/
def pipeRead (p : Pipe) (count : Nat) (first : Bool) : Pipe × Option (List UInt8) :=
  if first ∧ p.writers = 0 ∧ p.count = 0 then (p, some [])
  else if p.count = 0 ∧ p.writers > 0 then (p, none)
  else
    let toRead := if count < p.count then count else p.count
    let (bytes, readPos) := popAll pipeSize p.buffer p.readPos toRead
    ({ p with readPos, count := p.count - toRead }, some bytes)

/-- The loop of `pipe_write` while it has the lock: the bytes written so far and, unless the call
goes on waiting, its result. -/
def pipeWriteLoop (buf : List UInt8) : Nat → Pipe → Nat → Pipe × Nat × Option Int
  | 0, p, written => (p, written, none)
  | fuel + 1, p, written =>
    if written < buf.length then
      if p.count ≥ pipeSize ∧ p.readers > 0 then (p, written, none)
      else if p.readers = 0 then (p, written, some (if written > 0 then written else -ePipe))
      else
        let space := pipeSize - p.count
        let toWrite := if buf.length - written < space then buf.length - written else space
        let (buffer, writePos) :=
          pushAll pipeSize p.buffer p.writePos ((buf.drop written).take toWrite)
        pipeWriteLoop buf fuel { p with buffer, writePos, count := p.count + toWrite }
          (written + toWrite)
    else (p, written, some written)

/-- A section of `pipe_write`. Each round but the last stores a byte, so one round more than there
are bytes is enough. -/
def pipeWrite (p : Pipe) (buf : List UInt8) (written : Nat) (first : Bool) :
    Pipe × Nat × Option Int :=
  if first ∧ p.readers = 0 then (p, written, some (-ePipe))
  else pipeWriteLoop buf (buf.length + 1) p written

def Pipe.unused (p : Pipe) : Bool := p.readers = 0 ∧ p.writers = 0

def pipeReleaseRead (p : Pipe) : Pipe := { p with readers := p.readers - 1 }

def pipeReleaseWrite (p : Pipe) : Pipe := { p with writers := p.writers - 1 }

def newPipe (buffer : Nat → UInt8) : Pipe :=
  { buffer, readPos := 0, writePos := 0, count := 0, readers := 1, writers := 1 }

end UnixOS.Ipc
