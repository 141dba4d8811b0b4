import UnixOS.Syscall.UserHeap

/-! # System calls

The calls of `syscall_table` with their results and the memory that each of them reads or writes through
a pointer taken from its arguments. Files, the keyboard, the current task and the ELF loader answer from
outside.
-/

namespace UnixOS.Syscall

def eNoEnt : Int := 2
def eBadF : Int := 9
def eFault : Int := 14
def eInval : Int := 22
def eMFile : Int := 24

def maxFds : Nat := 256
def nrSyscalls : UInt64 := 512

/-! ### Memory reached through arguments -/

inductive Access where
  | load (p n : UInt64)
  | store (p : UInt64) (bytes : List UInt8)
  /-- The bytes from `p` on, up to and with the first zero. -/
  | loadString (p : UInt64)

/-- Addresses wrap, so the distance from the pointer tells the order in which bytes are reached. -/
def Access.Touches (mem : UInt64 → UInt8) : Access → UInt64 → Prop
  | .load p n, a => (a - p).toNat < n.toNat
  | .store p bytes, a => (a - p).toNat < bytes.length
  | .loadString p, a => ∀ x, x - p < a - p → mem x ≠ 0

def committed (mem : UInt64 → UInt8) : List Access → UInt64 → UInt8
  | [] => mem
  | .store p bytes :: rest =>
    committed (fun a => bytes.getD (a - p).toNat (mem a)) rest
  | _ :: rest => committed mem rest

/-! ### Surroundings -/

/-- An open file; the flags say that `f_op` has the operation. -/
structure File where
  ident : Nat
  hasRead : Bool
  hasWrite : Bool

structure Task where
  pid : Int
  parentPid : Option Int
  uid : Int
  gid : Int

structure Env where
  /-- The answers of `api->getc()`, one after the other. -/
  getc : List Int
  fileRead : File → UInt64 → List UInt8 × Int
  fileRead_le : ∀ f count, (fileRead f count).1.length ≤ count.toNat
  fileWrite : File → UInt64 → UInt64 × Int
  fileWrite_le : ∀ f count, (fileWrite f count).1 ≤ count
  lseek : File → UInt64 → UInt64 → Int
  vfsOpen : UInt64 → UInt64 → UInt64 → Option File
  /-- What `sys_execve` answers about the file it opened. -/
  loadProgram : File → Int
  current : Option Task

/-! ### Descriptors -/

structure FdEntry where
  file : Option File
  flags : UInt64
  inUse : Bool

structure State where
  fdTable : Nat → FdEntry
  fdTableInitialized : Bool
  heap : UserHeap

namespace State

variable (s : State)

def mem : UInt64 → UInt8 := s.heap.mem

def setFd (i : Nat) (e : FdEntry) : State := { s with fdTable := fun j => if j = i then e else s.fdTable j }

def initFdTable : State :=
  if s.fdTableInitialized then s
  else
    { s with
      fdTable := fun i => if i < maxFds then ⟨none, 0, i < 3⟩ else s.fdTable i
      fdTableInitialized := true }

def freeFdFound : Option Nat := (List.range' 3 (maxFds - 3)).find? fun i => !(s.fdTable i).inUse

def allocFd : State × Option Nat :=
  match s.freeFdFound with
  | none => (s, none)
  | some i => (s.setFd i { s.fdTable i with inUse := true }, some i)

def freeFd (fd : Int) : State :=
  if 0 ≤ fd ∧ fd < maxFds then s.setFd fd.toNat ⟨none, 0, false⟩ else s

def getFile (fd : Int) : Option File :=
  if fd < 0 ∨ fd ≥ maxFds ∨ (s.fdTable fd.toNat).inUse = false then none else (s.fdTable fd.toNat).file

end State

def intFd (fd : UInt64) : Int := fd.toUInt32.toInt32.toInt

/-! ### The pointer check -/

def kernelStart : UInt64 := 0x40000000
def kernelEnd : UInt64 := 0x50000000

def isValidUserPtr (ptr len : UInt64) : Bool :=
  if ptr = 0 then false
  else if len > 0 ∧ ptr > 0xFFFFFFFFFFFFFFFF - len then false
  else
    let fin := ptr + len
    if ptr ≥ 0x10000000 ∧ fin ≤ 0x14000000 then true
    else if ptr ≥ 0x44000000 ∧ fin < 0x50000000 then true
    else if ptr ≥ kernelStart ∧ ptr < kernelEnd then false
    else true

/-! ### The calls -/

structure Args where
  x0 : UInt64
  x1 : UInt64
  x2 : UInt64
  x3 : UInt64
  x4 : UInt64
  x5 : UInt64

/-- `result` is `none` while the call has not returned. -/
structure Outcome where
  state : State
  accesses : List Access
  result : Option Int

def State.answer (s : State) (result : Int) : Outcome := ⟨s, [], some result⟩

def State.access (s : State) (accesses : List Access) (result : Option Int) : Outcome :=
  ⟨{ s with heap := { s.heap with mem := committed s.mem accesses } }, accesses, result⟩

def newline : UInt8 := 10

/-- The loop of `sys_read` on the keyboard, with `n` characters stored. While there is nothing it yields
and asks again. -/
def readKeys (buf count : UInt64) : List Int → UInt64 → List Access × Option Int
  | [], n => ([], if n < count then none else some n.toNat)
  | c :: input, n =>
    if n < count then
      if c ≥ 0 then
        let stored : Access := .store (buf + n) [UInt8.ofInt c]
        if c = 10 then ([stored], some (n + 1).toNat)
        else if c = 13 then ([stored, .store (buf + n) [newline]], some (n + 1).toNat)
        else
          let (rest, result) := readKeys buf count input (n + 1)
          (stored :: rest, result)
      else if n > 0 then ([], some n.toNat)
      else readKeys buf count input n
    else ([], some n.toNat)

section Calls

variable (env : Env) (s : State)

def sysRead (fd buf count : UInt64) : Outcome :=
  let s := s.initFdTable
  if isValidUserPtr buf count = false then s.answer (-eFault)
  else if fd = 0 then
    let (accesses, result) := readKeys buf count env.getc 0
    s.access accesses result
  else
    match s.getFile (intFd fd) with
    | none => s.answer (-eBadF)
    | some f =>
      -- vfs_read
      if buf = 0 then s.answer (-eFault)
      else if f.hasRead = false then s.answer (-eInval)
      else s.access [.store buf (env.fileRead f count).1] (some (env.fileRead f count).2)

def sysWrite (fd buf count : UInt64) : Outcome :=
  let s := s.initFdTable
  if fd = 1 ∨ fd = 2 then s.access [.load buf count] (some count.toNat)
  else
    match s.getFile (intFd fd) with
    | none => s.answer (-eBadF)
    | some f =>
      -- vfs_write
      if buf = 0 then s.answer (-eFault)
      else if f.hasWrite = false then s.answer (-eInval)
      else s.access [.load buf (env.fileWrite f count).1] (some (env.fileWrite f count).2)

/-- `vfs_open` leaves a null path alone. A file system is mounted on `/` from the start to the end, so
`find_mount_by_target` has a target to compare the path with and reads it to its end. -/
def vfsOpen (path flags mode : UInt64) : List Access × Option File :=
  if path = 0 then ([], none) else ([.loadString path], env.vfsOpen path flags mode)

def sysOpenat (pathname flags mode : UInt64) : Outcome :=
  match s.initFdTable.allocFd with
  | (s, none) => s.answer (-eMFile)
  | (s, some fd) =>
    match vfsOpen env pathname flags mode with
    | (accesses, none) => (s.freeFd fd).access accesses (some (-eNoEnt))
    | (accesses, some f) => (s.setFd fd ⟨some f, flags, true⟩).access accesses (some fd)

def sysClose (fd : UInt64) : Outcome :=
  let s := s.initFdTable
  if fd < 3 then s.answer 0
  else
    match s.getFile (intFd fd) with
    | none => s.answer (-eBadF)
    | some _ => (s.freeFd (intFd fd)).answer 0

def sysLseek (fd offset whence : UInt64) : Outcome :=
  let s := s.initFdTable
  match s.getFile (intFd fd) with
  | none => s.answer (-eBadF)
  | some f => s.answer (env.lseek f offset whence)

/-- `printk` and `vfs_open` read the name, `argv` and `envp` are not looked at. The copy into `comm` reads bytes of the
name once more and is left out. -/
def sysExecve (filename : UInt64) : Outcome :=
  match vfsOpen env filename 0 0 with
  | (accesses, none) => s.access accesses (some (-eNoEnt))
  | (accesses, some f) => s.access accesses (some (env.loadProgram f))

def utsStrings : List (List UInt8) :=
  let texts : List (List Char) :=
    [['O', 'S', '8'], ['l', 'o', 'c', 'a', 'l', 'h', 'o', 's', 't'], ['0', '.', '1', '.', '0'],
      ['0', '.', '1', '.', '0', '-', 'a', 'r', 'm', '6', '4'], ['a', 'a', 'r', 'c', 'h', '6', '4'], []]
  texts.map (List.map fun c => UInt8.ofNat c.toNat)

def utsField (buf : UInt64) (text : List UInt8) (i : Nat) : List Access :=
  [.store (buf + UInt64.ofNat (65 * i)) (text.take 64), .store (buf + UInt64.ofNat (65 * i + 64)) [0]]

def sysUname (buf : UInt64) : Outcome :=
  s.access (utsStrings.zipIdx.flatMap fun (text, i) => utsField buf text i) (some 0)

end Calls

inductive Handler where
  | read | write | openat | close | lseek | exit | exitGroup | getpid | getppid | getuid | getgid | gettid
  | brk | mmap | munmap | clone | execve | uname | schedYield | nanosleep | notImplemented

def syscallTable (nr : UInt64) : Handler :=
  match nr.toNat with
  | 63 => .read
  | 64 => .write
  | 56 => .openat
  | 57 => .close
  | 62 => .lseek
  | 93 => .exit
  | 94 => .exitGroup
  | 172 => .getpid
  | 173 => .getppid
  | 174 => .getuid
  | 175 => .getuid
  | 176 => .getgid
  | 177 => .getgid
  | 178 => .gettid
  | 214 => .brk
  | 222 => .mmap
  | 215 => .munmap
  | 220 => .clone
  | 221 => .execve
  | 160 => .uname
  | 124 => .schedYield
  | 101 => .nanosleep
  | _ => .notImplemented

def Handler.run (env : Env) (s : State) (x : Args) : Handler → Outcome
  | .read => sysRead env s x.x0 x.x1 x.x2
  | .write => sysWrite env s x.x0 x.x1 x.x2
  | .openat => sysOpenat env s x.x1 x.x2 x.x3
  | .close => sysClose s x.x0
  | .lseek => sysLseek env s x.x0 x.x1 x.x2
  -- the task leaves the processor for good
  | .exit | .exitGroup => ⟨s, [], none⟩
  | .getpid | .gettid => s.answer ((env.current.map Task.pid).getD (-1))
  | .getppid => s.answer ((env.current.bind Task.parentPid).getD 0)
  | .getuid => s.answer ((env.current.map Task.uid).getD 0)
  | .getgid => s.answer ((env.current.map Task.gid).getD 0)
  | .brk => { s with heap := (s.heap.sysBrk x.x0).1 }.answer (s.heap.sysBrk x.x0).2.toNat
  -- zeroes memory at an address of its own
  | .mmap =>
    { s with heap := (s.heap.sysMmap x.x1 x.x3 x.x4).1 }.answer
      (match (s.heap.sysMmap x.x1 x.x3 x.x4).2 with
        | .ok a => a.toNat
        | .error e => e)
  | .munmap => s.answer 0
  | .clone => s.answer (-eNoSys)
  | .execve => sysExecve env s x.x0
  | .uname => sysUname s x.x0
  | .schedYield => s.answer 0
  | .nanosleep => s.answer 0
  | .notImplemented => s.answer (-eNoSys)

def handleSyscall (env : Env) (s : State) (nr : UInt64) (x : Args) : Outcome :=
  if nr ≥ nrSyscalls then s.answer (-eNoSys) else (syscallTable nr).run env s x

end UnixOS.Syscall
