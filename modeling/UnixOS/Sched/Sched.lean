import Mathlib.Data.BitVec
import Mathlib.Logic.Function.Basic

/-! # The task scheduler of `kernel/sched`

Tasks, the run queue and every function of `sched.c`, `signal.c` and `fork.c` that reads or changes
them. Tasks refer to each other by pointers, so the links of the run queue are fields of the tasks,
and an update that meets the same task twice acts as it does in memory.

A call that switches to another task comes back only when its own task runs again. What is left to
do then is kept per task: the rounds of a `do_signal` loop that are still to come, or the endless
loop at the end of `exit_task`.
-/

namespace UnixOS.Sched

/-- The address of a task: `NULL`, the static `init_task`, and then the entries of the pool. -/
abbrev TaskPtr := Nat

def null : TaskPtr := 0
def initTask : TaskPtr := 1
def poolTask (i : Nat) : TaskPtr := i + 2

def maxTasks : Nat := 256
def maxSignalStructs : Nat := 64

inductive TaskState where
  | running | interruptible | uninterruptible | stopped | zombie | dead
deriving DecidableEq

def pfKthread : UInt32 := (1 : UInt32) <<< 0
def pfExiting : UInt32 := (1 : UInt32) <<< 1
def pfIdle : UInt32 := (1 : UInt32) <<< 2
def pfThread : UInt32 := (1 : UInt32) <<< 5
def cloneThread : UInt32 := (1 : UInt32) <<< 16

/-! ### Signals of a task -/

abbrev SigSet := BitVec 64

def nsig : Nat := 32
def sigkill : Nat := 9
def sigchld : Nat := 17
def sigcont : Nat := 18
def sigstop : Nat := 19
def sigtstp : Nat := 20
def sigttin : Nat := 21
def sigttou : Nat := 22
def sigurg : Nat := 23
def sigwinch : Nat := 28

def sigBit (sig : Nat) : SigSet := 1 <<< sig

inductive SigHandler where
  | dfl
  | ign
  | user (address : UInt64)
deriving DecidableEq

structure SigAction where
  handler : SigHandler
  mask : SigSet
  flags : Int

def defaultAction : SigAction := { handler := .dfl, mask := 0, flags := 0 }

structure SignalStruct where
  pending : SigSet
  blocked : SigSet
  actions : Nat → SigAction

/-- What the loop of `do_signal` does with a pending signal. -/
inductive Disposition where
  | ignore | term | stop | cont
  | user
deriving DecidableEq

def defaultDisposition (sig : Nat) : Disposition :=
  if sig = sigchld ∨ sig = sigurg ∨ sig = sigwinch then .ignore
  else if sig = sigcont then .cont
  else if sig = sigstop ∨ sig = sigtstp ∨ sig = sigttin ∨ sig = sigttou then .stop
  else .term

def SignalStruct.disposition (signals : SignalStruct) (sig : Nat) : Disposition :=
  match (signals.actions sig).handler with
  | .ign => .ignore
  | .dfl => defaultDisposition sig
  | .user _ => .user

/-! ### Tasks and the run queue -/

structure Task where
  state : TaskState
  pid : Int
  tgid : Int
  flags : UInt32
  parent : TaskPtr
  next : TaskPtr
  prev : TaskPtr
  exitCode : Int
  signals : Option SignalStruct
  pendingSignals : SigSet

def zeroTask : Task :=
  { state := .running, pid := 0, tgid := 0, flags := 0, parent := null, next := null, prev := null
    exitCode := 0, signals := none, pendingSignals := 0 }

/-- What a task has still to do when control comes back to it: a `do_signal` loop over the pending
signals of a task, with the signal number it has reached, or the loop that ends `exit_task`. -/
inductive Frame where
  | signals (task : TaskPtr) (pending : SigSet) (sig : Nat)
  | halted

structure System where
  tasks : TaskPtr → Task
  current : TaskPtr
  idle : TaskPtr
  head : TaskPtr
  tail : TaskPtr
  nrRunning : Nat
  taskPoolIndex : Nat
  nextPid : Int
  sigPoolIdx : Nat
  frames : TaskPtr → List Frame

/-- The static data with `sched_init` done. -/
def schedInit : System :=
  { tasks := Function.update (fun _ => zeroTask) initTask
      { zeroTask with flags := pfKthread ||| pfIdle }
    current := initTask, idle := initTask, head := null, tail := null, nrRunning := 0
    taskPoolIndex := 0, nextPid := 1, sigPoolIdx := 0, frames := fun _ => [] }

namespace System

variable (s : System)

def next (t : TaskPtr) : TaskPtr := (s.tasks t).next
def prev (t : TaskPtr) : TaskPtr := (s.tasks t).prev
def stateOf (t : TaskPtr) : TaskState := (s.tasks t).state
def signalsOf (t : TaskPtr) : Option SignalStruct := (s.tasks t).signals

def setTask (t : TaskPtr) (task : Task) : System :=
  { s with tasks := Function.update s.tasks t task }

def setNext (t n : TaskPtr) : System := s.setTask t { s.tasks t with next := n }
def setPrev (t p : TaskPtr) : System := s.setTask t { s.tasks t with prev := p }
def setState (t : TaskPtr) (state : TaskState) : System :=
  s.setTask t { s.tasks t with state := state }

def pushFrame (frame : Frame) : System :=
  { s with frames := Function.update s.frames s.current (frame :: s.frames s.current) }

def setFrames (frames : List Frame) : System :=
  { s with frames := Function.update s.frames s.current frames }

/-! ### `sched.c` -/

def allocTask : Option (System × TaskPtr) :=
  if s.taskPoolIndex ≥ maxTasks then none
  else
    some ({ s with taskPoolIndex := s.taskPoolIndex + 1 }.setTask (poolTask s.taskPoolIndex) zeroTask,
      poolTask s.taskPoolIndex)

def enqueueTask (t : TaskPtr) : System :=
  let s := s.setState t .running
  let s :=
    if s.head = null then ({ s with head := t, tail := t }.setPrev t null).setNext t null
    else
      let s := (s.setPrev t s.tail).setNext t null
      { s.setNext s.tail t with tail := t }
  { s with nrRunning := s.nrRunning + 1 }

def dequeueNext (t : TaskPtr) : System :=
  if s.prev t ≠ null then s.setNext (s.prev t) (s.next t) else { s with head := s.next t }

def dequeuePrev (t : TaskPtr) : System :=
  if s.next t ≠ null then s.setPrev (s.next t) (s.prev t) else { s with tail := s.prev t }

def dequeueTask (t : TaskPtr) : System :=
  let s := (((s.dequeueNext t).dequeuePrev t).setPrev t null).setNext t null
  if s.nrRunning > 0 then { s with nrRunning := s.nrRunning - 1 } else s

def pickNextTask : TaskPtr := if s.head = null then s.idle else s.head

def schedule : System :=
  let prev := s.current
  let next := s.pickNextTask
  if next = prev then s
  else
    let s :=
      if s.stateOf prev = .running ∧ prev ≠ s.idle then (s.dequeueTask prev).enqueueTask prev else s
    { s with current := next }

def wakeUpProcess (t : TaskPtr) : System :=
  if t = null then s
  else if s.stateOf t = .running then s
  else (s.setState t .running).enqueueTask t

/-- `stack` tells whether `alloc_stack` finds the pages. Returns `null` on failure. -/
def createTask (flags : UInt32) (stack : Bool) : System × TaskPtr :=
  match s.allocTask with
  | none => (s, null)
  | some (s, t) =>
    if !stack then (s, null)
    else
      let s := { s with nextPid := s.nextPid + 1 }.setTask t { s.tasks t with
        state := .running, pid := s.nextPid, tgid := s.nextPid, flags := flags, parent := s.current }
      (s.enqueueTask t, t)

/-- `given` tells whether the caller brings a stack, `stack` whether `alloc_stack` finds one. -/
def createThread (given stack : Bool) (cloneFlags : UInt32) : System × Int :=
  match s.allocTask with
  | none => (s, -1)
  | some (s, t) =>
    let s := { s with nextPid := s.nextPid + 1 }.setTask t { s.tasks t with
      state := .running, pid := s.nextPid
      tgid := if cloneFlags &&& cloneThread ≠ 0 then (s.tasks s.current).tgid else s.nextPid
      flags := pfThread, parent := s.current }
    if !given && !stack then (s, -1)
    else (s.enqueueTask t, (s.tasks t).pid)

def exitTask (code : Int) : System :=
  let t := s.current
  let s := s.setTask t { s.tasks t with
    exitCode := code, state := .zombie, flags := (s.tasks t).flags ||| pfExiting }
  ((s.dequeueTask t).pushFrame .halted).schedule

def getTaskByPid (pid : Int) : TaskPtr :=
  if (s.tasks initTask).pid = pid then initTask
  else
    match (List.range s.taskPoolIndex).find? fun i =>
      (s.tasks (poolTask i)).pid = pid ∧ s.stateOf (poolTask i) ≠ .dead with
    | some i => poolTask i
    | none => null

def schedKillTask (pid : Int) : System × Int :=
  let t := s.getTaskByPid pid
  if t = null then (s, -3)
  else if (s.tasks t).pid = 0 ∨ (s.tasks t).flags &&& pfIdle ≠ 0 then (s, -1)
  else
    let s := s.setTask t { s.tasks t with
      flags := (s.tasks t).flags ||| pfExiting
      pendingSignals := (s.tasks t).pendingSignals ||| sigBit sigkill }
    if s.stateOf t = .interruptible ∨ s.stateOf t = .uninterruptible then
      ((s.setState t .running).enqueueTask t, 0)
    else (s, 0)

/-! ### `fork.c` -/

/-- `mm` tells whether `copy_mm` succeeds. -/
def doFork (flags : UInt32) (stack mm : Bool) : System × Int :=
  let parent := s.current
  match s.createTask flags stack with
  | (s, child) =>
    if child = null then (s, -1)
    else if !mm then (s, -1)
    else
      let s := s.setTask child { s.tasks child with parent := parent, state := .running }
      (s, (s.tasks child).pid)

/-! ### `signal.c` -/

def sigDefaultTerm (sig : Nat) : System := s.exitTask sig

def sigDefaultStop : System := (s.setState s.current .stopped).schedule

def sigDefaultCont : System := s.setState s.current .running

/-- A task that has no signal structure gets one while the pool of them lasts. -/
def signalInit (t : TaskPtr) : System :=
  let fresh : SignalStruct := { pending := 0, blocked := 0, actions := fun _ => defaultAction }
  match (s.tasks t).signals with
  | some _ => s.setTask t { s.tasks t with signals := some fresh }
  | none =>
    if s.sigPoolIdx < maxSignalStructs then
      { s with sigPoolIdx := s.sigPoolIdx + 1 }.setTask t { s.tasks t with signals := some fresh }
    else s

def killTask (t : TaskPtr) (sig : Int) : System × Int :=
  if sig < 0 ∨ sig ≥ nsig then (s, -1)
  else if t = null then (s, -1)
  else
    match (s.tasks t).signals with
    | none => (s, -1)
    | some signals =>
      let s := s.setTask t { s.tasks t with
        signals := some { signals with pending := signals.pending ||| sigBit sig.toNat } }
      (if s.stateOf t = .interruptible then s.wakeUpProcess t else s, 0)

/-- The start of `do_signal`: the loop begins at signal 1. -/
def doSignal (t : TaskPtr) : System :=
  if t = null then s
  else
    match (s.tasks t).signals with
    | none => s
    | some signals =>
      let pending := signals.pending &&& ~~~signals.blocked
      if pending = 0 then s else s.pushFrame (.signals t pending 1)

/-- A default action is taken on the current task. A handler is a function of the task that runs:
the calls it makes are calls of their own. -/
def act (sig : Nat) : Disposition → System
  | .ignore => s
  | .user => s
  | .term => s.sigDefaultTerm sig
  | .stop => s.sigDefaultStop
  | .cont => s.sigDefaultCont

/-- One round of the innermost `do_signal` loop of the current task. -/
def signalRound : System :=
  match s.frames s.current with
  | .signals t pending sig :: frames =>
    if sig ≥ nsig then s.setFrames frames
    else
      let s := s.setFrames (.signals t pending (sig + 1) :: frames)
      if pending &&& sigBit sig = 0 then s
      else
        match (s.tasks t).signals with
        | none => s
        | some signals =>
          let s := s.setTask t { s.tasks t with
            signals := some { signals with pending := signals.pending &&& ~~~sigBit sig } }
          s.act sig (signals.disposition sig)
  | _ => s

/-- `set` is `none` for `NULL`. -/
def sigprocmask (how : Int) (set : Option SigSet) : System × Int :=
  match (s.tasks s.current).signals with
  | none => (s, -1)
  | some signals =>
    let masked (blocked : SigSet) : System × Int :=
      (s.setTask s.current { s.tasks s.current with
        signals := some { signals with
          blocked := blocked &&& ~~~(sigBit sigkill ||| sigBit sigstop) } }, 0)
    match set with
    | none => masked signals.blocked
    | some set =>
      if how = 0 then masked (signals.blocked ||| set)
      else if how = 1 then masked (signals.blocked &&& ~~~set)
      else if how = 2 then masked set
      else (s, -1)

def sigactionSyscall (sig : Int) (act : Option SigAction) : System × Int :=
  if sig < 1 ∨ sig ≥ nsig then (s, -1)
  else if sig = sigkill ∨ sig = sigstop then (s, -1)
  else
    match (s.tasks s.current).signals with
    | none => (s, -1)
    | some signals =>
      match act with
      | none => (s, 0)
      | some act =>
        (s.setTask s.current { s.tasks s.current with
          signals := some { signals with
            actions := Function.update signals.actions sig.toNat act } }, 0)

def doWaitpid : System := (s.setState s.current .interruptible).schedule

end System

/-! ### Runs -/

/-- One step of a run: a call made by the current task, or the next round of the `do_signal` loop it
is in. -/
inductive Step where
  | createTask (flags : UInt32) (stack : Bool)
  | createThread (given stack : Bool) (cloneFlags : UInt32)
  | doFork (flags : UInt32) (stack mm : Bool)
  | schedule
  | wakeUpProcess (t : TaskPtr)
  | killTask (t : TaskPtr) (sig : Int)
  | doSignal (t : TaskPtr)
  | signalRound
  | doWaitpid
  | schedKillTask (pid : Int)
  | exitTask (code : Int)
  | signalInit (t : TaskPtr)
  | sigprocmask (how : Int) (set : Option SigSet)
  | sigactionSyscall (sig : Int) (act : Option SigAction)

def Step.next (s : System) : Step → System
  | .createTask flags stack => (s.createTask flags stack).1
  | .createThread given stack cloneFlags => (s.createThread given stack cloneFlags).1
  | .doFork flags stack mm => (s.doFork flags stack mm).1
  | .schedule => s.schedule
  | .wakeUpProcess t => s.wakeUpProcess t
  | .killTask t sig => (s.killTask t sig).1
  | .doSignal t => s.doSignal t
  | .signalRound => s.signalRound
  | .doWaitpid => s.doWaitpid
  | .schedKillTask pid => (s.schedKillTask pid).1
  | .exitTask code => s.exitTask code
  | .signalInit t => s.signalInit t
  | .sigprocmask how set => (s.sigprocmask how set).1
  | .sigactionSyscall sig act => (s.sigactionSyscall sig act).1

def System.after (s : System) (steps : List Step) : System := steps.foldl Step.next s

end UnixOS.Sched
