import Mathlib.Data.List.FinRange
import Mathlib.Data.List.Range
import Mathlib.Logic.Function.Basic

/-! # The process table of `kernel/core/process.c`

Every function that creates, starts, schedules, ends or kills a process, cut at the points where the
timer can interrupt it. An `Act` is what a thread does between two such points: one access to the
process table, or one whole section that runs with the interrupts off. A thread that is switched out
keeps the acts it has still to do, with its local variables in their arguments.

`next_pid` is a mathematical integer: below `2^31` creations the counter does not overflow.
-/

namespace UnixOS.Proc

def maxProcesses : Nat := 16
def processTimeSliceTicks : Nat := 20

/-- An index of `proc_table`. -/
abbrev Slot := Fin maxProcesses

theorem maxProcesses_pos : 0 < maxProcesses := by decide

theorem one_lt_maxProcesses : 1 < maxProcesses := by decide

def Slot.index (i : Slot) : Int := (i.val : Int)

def slotOf (pid : Int) : Option Slot :=
  if h : 0 ≤ pid ∧ pid.toNat < maxProcesses then some ⟨pid.toNat, h.2⟩ else none

inductive ProcState where
  | free | ready | running | blocked | zombie
deriving DecidableEq

/-- `process_t`. Of the saved registers only whether `sp` and `pc` are set is kept here; where the
process goes on is the code of its thread. -/
structure Process where
  pid : Int
  state : ProcState
  stackBase : Nat
  context : Bool
  exitStatus : Int
  parentPid : Int
deriving DecidableEq

def reservedProcess (pid : Int) : Process :=
  { pid := pid, state := .blocked, stackBase := 0, context := false, exitStatus := 0
    parentPid := -1 }

def Process.exited (status : Int) (p : Process) : Process :=
  { p with exitStatus := status, state := .free, context := true }

inductive Act where
  -- `process_create`
  | reserve
  | load (slot : Slot)
  | setParent (slot : Slot)
  | setExit (slot : Slot)
  | allocStack (slot : Slot)
  | checkStack (slot : Slot)
  | setContext (slot : Slot)
  | setReady (slot : Slot)
  | readPid (slot : Slot)
  -- `release_reserved_slot_unlocked`
  | releaseState (slot : Slot)
  | releasePid (slot : Slot)
  | releaseStack (slot : Slot)
  | releaseExit (slot : Slot)
  | releaseParent (slot : Slot)
  | releaseContext (slot : Slot)
  -- `process_start`
  | startGet (pid : Int)
  | startCheck (slot : Slot)
  | startReady (slot : Slot)
  -- `process_exit`
  | exitBegin (status : Int)
  | exitFinish (status : Int)
  -- `process_yield` and `process_schedule`
  | yieldReady
  | schedule
  -- `process_exec_args`
  | execCreated
  | execFind (pid : Int) (i : Nat)
  | execWait (slot : Slot)
  | execResult (slot : Slot)
  -- `process_kill`
  | killEnter (pid : Int)
  | killFindPid (pid : Int) (i : Nat)
  | killFindState (pid : Int) (slot : Slot)
  | killCheck (pid : Int) (slot : Slot)
  -- `kill_children`, with its work stack, the last pushed pid first
  | popParent (stack : List Int)
  | childState (parent : Int) (i : Nat) (stack : List Int)
  | childParent (parent : Int) (slot : Slot) (stack : List Int)
  | childPid (parent : Int) (slot : Slot) (stack : List Int)
  -- what `process_kill` and `kill_children` do with the slot of a process that dies
  | stackCheck (slot : Slot)
  /-- `free(stack_base)` and `stack_base = NULL`, here without a point between them. -/
  | stackClear (slot : Slot)
  | freeState (slot : Slot)
  | freePid (slot : Slot)
  | ret (value : Int)
  /-- The loop after `process_exit`, or a context that was never set up. -/
  | halted
deriving DecidableEq

/-- What a thread has still to do before it is back in its own program, and the last value that a
call gave it. -/
structure Thread where
  code : List Act
  value : Int
deriving DecidableEq

def haltedThread : Thread := { code := [.halted], value := 0 }
def freshThread : Thread := { code := [], value := 0 }

/-- The data of `process.c`, the threads (of the slots, and of the kernel), and the history: which
process a slot was last reserved for, and who was running when a process was created. -/
structure System where
  procTable : Slot → Process
  currentPid : Int
  currentProcess : Option Slot
  nextPid : Int
  preemptTicks : Nat
  irq : Bool
  threads : Option Slot → Thread
  born : Slot → Int
  creator : Int → Option Int

/-- `process_init`; what it does not set is zero, as static data is. -/
def processInit : System :=
  { procTable := fun _ =>
      { pid := 0, state := .free, stackBase := 0, context := false, exitStatus := 0, parentPid := 0 }
    currentPid := -1, currentProcess := none, nextPid := 1, preemptTicks := 0, irq := true
    threads := fun t => if t = none then freshThread else haltedThread
    born := fun _ => 0, creator := fun _ => none }

namespace System

variable (s : System)

/-- The slot of the running process, `none` in the kernel. -/
def self : Option Slot := slotOf s.currentPid

def modify (i : Slot) (f : Process → Process) : System :=
  { s with procTable := Function.update s.procTable i (f (s.procTable i)) }

def setState (i : Slot) (state : ProcState) : System := s.modify i fun p => { p with state := state }

def setThread (t : Option Slot) (thread : Thread) : System :=
  { s with threads := Function.update s.threads t thread }

def push (acts : List Act) : System :=
  s.setThread s.self { s.threads s.self with code := acts ++ (s.threads s.self).code }

def setValue (value : Int) : System :=
  s.setThread s.self { s.threads s.self with value := value }

/-! ### Scheduling -/

def scanOrder : List Slot :=
  (List.range maxProcesses).map fun i =>
    ⟨((if 0 ≤ s.currentPid then (s.currentPid + 1).toNat else 0) + i) % maxProcesses,
      Nat.mod_lt _ (by decide)⟩

def saveContext : System :=
  match s.self with
  | some old => s.modify old fun p => { p with context := true }
  | none => s

/-- `switch_context`, with the two variables that say who runs. -/
def switchTo (next : Option Slot) : System :=
  { s.saveContext with
    currentPid := (next.map Slot.index).getD (-1)
    currentProcess := next }

def deschedule : System :=
  match s.self with
  | some old => if (s.procTable old).state = .running then s.setState old .ready else s
  | none => s

def dispatch (next : Slot) : System :=
  (s.deschedule.setState next .running).switchTo (some next)

def processSchedule : System :=
  match s.scanOrder.find? fun i => (s.procTable i).state = .ready with
  | none =>
    match s.self with
    | some old => if (s.procTable old).state = .running then s else s.switchTo none
    | none => s
  | some next =>
    if s.self = some next ∧ (s.procTable next).state = .running then s
    else if s.self = some next ∧ (s.procTable next).state = .ready then s.setState next .running
    else s.dispatch next

def processCountReady : Nat :=
  (List.finRange maxProcesses).countP fun i =>
    (s.procTable i).state = .ready || (s.procTable i).state = .running

def processPickNextReady : Option Slot :=
  s.scanOrder.find? fun i => (s.procTable i).state = .ready && (s.procTable i).context

/-- `process_schedule_from_irq`, and `process_preempt_from_irq`: they leave the same data behind. -/
def processPreemptFromIrq : System :=
  if s.preemptTicks + 1 < processTimeSliceTicks then
    { s with preemptTicks := s.preemptTicks + 1 }
  else
    let s := { s with preemptTicks := 0 }
    if 0 ≤ s.currentPid ∧ s.processCountReady ≤ 1 then s
    else if s.currentPid < 0 ∧ s.processCountReady = 0 then s
    else
      match s.processPickNextReady with
      | none => s
      | some next => if s.self = some next then s else s.dispatch next

/-! ### Creating and ending -/

def findFreeSlotUnlocked : Option Slot :=
  (List.finRange maxProcesses).find? fun i => (s.procTable i).state = .free

/-- The locked section of `process_create`. -/
def reserve : System :=
  match s.findFreeSlotUnlocked with
  | none => s.setValue (-1)
  | some slot =>
    let reserved :=
      (s.modify slot fun _ => reservedProcess s.nextPid).setThread (some slot) haltedThread
    { reserved with
      nextPid := s.nextPid + 1
      born := Function.update s.born slot s.nextPid
      creator := Function.update s.creator s.nextPid (s.self.map s.born) }.push [.load slot]

def processGet (pid : Int) : Option Slot :=
  (List.finRange maxProcesses).find? fun i =>
    (s.procTable i).pid = pid ∧ (s.procTable i).state ≠ .free

def exitFinish (status : Int) : System :=
  match s.self with
  | none => s
  | some slot =>
    let freed := (s.modify slot (Process.exited status)).setThread (some slot) haltedThread
    { freed with currentPid := -1, currentProcess := none, irq := true }

end System

def releaseReservedSlotUnlocked (slot : Slot) : List Act :=
  [.releaseState slot, .releasePid slot, .releaseStack slot, .releaseExit slot, .releaseParent slot,
    .releaseContext slot, .ret (-1)]

def freeSlot (slot : Slot) : List Act :=
  [.stackCheck slot, .freeState slot, .freePid slot]

def killChildren (pid : Int) : List Act := [.popParent [pid]]

namespace System

/-- One act of the running thread, which has it already behind it. `loaded` says whether the file was
found, read and loaded, `stack` is what `malloc` returns for the stack. -/
def execute (s : System) (loaded : Bool) (stack : Nat) : Act → System
  | .reserve => s.reserve
  | .load slot => s.push (if loaded then [.setParent slot] else releaseReservedSlotUnlocked slot)
  | .setParent slot =>
    (s.modify slot fun p => { p with parentPid := s.currentPid }).push [.setExit slot]
  | .setExit slot => (s.modify slot fun p => { p with exitStatus := 0 }).push [.allocStack slot]
  | .allocStack slot =>
    (s.modify slot fun p => { p with stackBase := stack }).push [.checkStack slot]
  | .checkStack slot =>
    s.push (if (s.procTable slot).stackBase = 0 then releaseReservedSlotUnlocked slot
      else [.setContext slot])
  | .setContext slot =>
    ((s.modify slot fun p => { p with context := true }).setThread (some slot) freshThread).push
      [.setReady slot]
  | .setReady slot => (s.setState slot .ready).push [.readPid slot]
  | .readPid slot => s.setValue (s.procTable slot).pid
  | .releaseState slot => s.setState slot .free
  | .releasePid slot => s.modify slot fun p => { p with pid := 0 }
  | .releaseStack slot => s.modify slot fun p => { p with stackBase := 0 }
  | .releaseExit slot => s.modify slot fun p => { p with exitStatus := 0 }
  | .releaseParent slot => s.modify slot fun p => { p with parentPid := -1 }
  | .releaseContext slot =>
    (s.modify slot fun p => { p with context := false }).setThread (some slot) haltedThread
  | .startGet pid =>
    match s.processGet pid with
    | none => s.setValue (-1)
    | some slot => s.push [.startCheck slot]
  | .startCheck slot =>
    if (s.procTable slot).state = .free then s.setValue (-1) else s.push [.startReady slot]
  | .startReady slot => (s.setState slot .ready).setValue 0
  | .exitBegin status =>
    match s.self with
    | none => s
    | some slot =>
      { s with irq := false }.push (killChildren (s.procTable slot).pid ++ [Act.exitFinish status])
  | .exitFinish status => s.exitFinish status
  | .yieldReady =>
    match s.self with
    | none => s
    | some slot => s.setState slot .ready
  | .schedule => s.processSchedule
  | .execCreated =>
    let pid := (s.threads s.self).value
    if pid < 0 then s else s.push [.startGet pid, .execFind pid 0]
  | .execFind pid i =>
    if h : i < maxProcesses then
      if (s.procTable ⟨i, h⟩).pid = pid then s.push [.execWait ⟨i, h⟩]
      else s.push [.execFind pid (i + 1)]
    else s.setValue (-1)
  | .execWait slot =>
    if (s.procTable slot).state ≠ .free ∧ (s.procTable slot).state ≠ .zombie then
      s.push [.schedule, .execWait slot]
    else s.push [.execResult slot]
  | .execResult slot => s.setValue (s.procTable slot).exitStatus
  | .killEnter pid => if pid ≤ 0 then s.setValue (-1) else s.push [.killFindPid pid 0]
  | .killFindPid pid i =>
    if h : i < maxProcesses then
      if (s.procTable ⟨i, h⟩).pid = pid then s.push [.killFindState pid ⟨i, h⟩]
      else s.push [.killFindPid pid (i + 1)]
    else s.setValue (-1)
  | .killFindState pid slot =>
    if (s.procTable slot).state ≠ .free then s.push [.killCheck pid slot]
    else s.push [.killFindPid pid (slot.val + 1)]
  | .killCheck pid slot =>
    if slot.index = s.currentPid then s.setValue (-1)
    else s.push (killChildren pid ++ freeSlot slot ++ [.ret 0])
  | .popParent stack =>
    match stack with
    | [] => s
    | parent :: rest => s.push [.childState parent 0 rest]
  | .childState parent i stack =>
    if h : i < maxProcesses then
      if (s.procTable ⟨i, h⟩).state ≠ .free then s.push [.childParent parent ⟨i, h⟩ stack]
      else s.push [.childState parent (i + 1) stack]
    else s.push [.popParent stack]
  | .childParent parent slot stack =>
    if (s.procTable slot).parentPid = parent then s.push [.childPid parent slot stack]
    else s.push [.childState parent (slot.val + 1) stack]
  | .childPid parent slot stack =>
    let stack' :=
      if stack.length < maxProcesses then (s.procTable slot).pid :: stack else stack
    s.push ((if slot.index ≠ s.currentPid then freeSlot slot else []) ++
      [.childState parent (slot.val + 1) stack'])
  | .stackCheck slot => if (s.procTable slot).stackBase ≠ 0 then s.push [.stackClear slot] else s
  | .stackClear slot => s.modify slot fun p => { p with stackBase := 0 }
  | .freeState slot => s.setState slot .free
  | .freePid slot => s.modify slot fun p => { p with pid := 0 }
  | .ret value => s.setValue value
  | .halted => s.push [.halted]

end System

/-! ### Runs -/

inductive Call where
  | create
  | start (pid : Int)
  | exit (status : Int)
  | yield
  | schedule
  | execArgs
  | kill (pid : Int)

def Call.code : Call → List Act
  | .create => [.reserve]
  | .start pid => [.startGet pid]
  | .exit status => [.exitBegin status]
  | .yield => [.yieldReady, .schedule]
  | .schedule => [.schedule]
  | .execArgs => [.reserve, .execCreated]
  | .kill pid => [.killEnter pid]

/-- The running thread calls a function or does its next act, or the timer ticks. -/
inductive Event where
  | call (c : Call)
  | run (loaded : Bool) (stack : Nat)
  | timer

namespace System

variable (s : System)

def code : List Act := (s.threads s.self).code

def setCode (rest : List Act) : System :=
  s.setThread s.self { s.threads s.self with code := rest }

def runAct (loaded : Bool) (stack : Nat) : System :=
  match s.code with
  | [] => s
  | act :: rest => (s.setCode rest).execute loaded stack act

/-- A tick changes nothing while the interrupts are off, nor once the machine hangs with them
off. -/
def step : Event → System
  | .call c => if s.code = [] then s.push c.code else s
  | .run loaded stack => s.runAct loaded stack
  | .timer => if s.irq ∧ .halted ∉ s.code then s.processPreemptFromIrq else s

def after (events : List Event) : System := events.foldl step s

end System

end UnixOS.Proc
