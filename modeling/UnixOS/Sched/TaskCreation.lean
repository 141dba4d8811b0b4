import UnixOS.Sched.TaskPids

/-! # Stacks and address spaces of new tasks

`create_task` and `create_thread` of `kernel/sched/sched.c` and `do_fork` of `kernel/sched/fork.c` once more, with what
the queue does not need: the address space of a task with its count of users, its stack, and the stack pointer in its
saved context. The pages of a stack and a new address space come from outside, or are refused.
-/

namespace UnixOS.Sched

def kernelStackSize : UInt64 := 16 * 1024
def cloneVm : UInt32 := (1 : UInt32) <<< 8

abbrev MmPtr := Nat

structure Fields where
  mm : Option MmPtr
  stack : UInt64
  stackSize : UInt64
  sp : UInt64

def zeroFields : Fields := ⟨none, 0, 0, 0⟩

structure Machine where
  sys : System
  fields : TaskPtr → Fields
  users : MmPtr → Int

namespace Machine

variable (m : Machine)

def newTask : TaskPtr := poolTask m.sys.taskPoolIndex

def current : Fields := m.fields m.sys.current

/-- `stack` is what `alloc_stack` returns. -/
def createTask (flags : UInt32) (stack : Option UInt64) : Machine × TaskPtr :=
  let made := m.sys.createTask flags stack.isSome
  if m.sys.taskPoolIndex ≥ maxTasks then (m, null)
  else
    match stack with
    | none => ({ m with sys := made.1, fields := Function.update m.fields m.newTask zeroFields }, null)
    | some stack =>
      ({ m with
          sys := made.1
          fields := Function.update m.fields m.newTask
            { zeroFields with stack := stack, stackSize := kernelStackSize, sp := stack + kernelStackSize } },
        m.newTask)

def shareMm (cloneFlags : UInt32) : MmPtr → Int :=
  match m.current.mm with
  | some mm => if cloneFlags &&& cloneVm ≠ 0 then Function.update m.users mm (m.users mm + 1) else m.users
  | none => m.users

/-- `stack` is the caller's, `NULL` if it brings none; `alloc` is what `alloc_stack` returns. -/
def createThread (stack : UInt64) (alloc : Option UInt64) (cloneFlags : UInt32) : Machine × Int :=
  let made := m.sys.createThread (stack ≠ 0) alloc.isSome cloneFlags
  if m.sys.taskPoolIndex ≥ maxTasks then (m, -1)
  else
    let fields := { zeroFields with mm := m.current.mm }
    let with' (fields : Fields) : Machine :=
      { sys := made.1, fields := Function.update m.fields m.newTask fields, users := m.shareMm cloneFlags }
    if stack ≠ 0 then (with' { fields with stack := stack, sp := stack }, made.2)
    else
      match alloc with
      | none => (with' fields, -1)
      | some alloc =>
        (with' { fields with stack := alloc, stackSize := kernelStackSize, sp := alloc + kernelStackSize }, made.2)

/-- `mm` is what `vmm_create_address_space` returns; `none` for a failure. -/
def copyMm (parent : Fields) (mm : Option MmPtr) : Option (Option MmPtr) :=
  match parent.mm with
  | none => some none
  | some _ => mm.map some

def openMm (users : MmPtr → Int) : Option MmPtr → MmPtr → Int
  | none => users
  | some mm => Function.update users mm 1

def doFork (flags : UInt32) (stack : Option UInt64) (mm : Option MmPtr) : Machine × Int :=
  let parent := m.current
  let made := m.sys.doFork flags stack.isSome (copyMm parent mm).isSome
  match m.createTask flags stack with
  | (m, child) =>
    if child = null then (m, -1)
    else
      match copyMm parent mm with
      | none => ({ m with sys := made.1 }, -1)
      | some childMm =>
        ({ sys := made.1
           fields := Function.update m.fields child { m.fields child with mm := childMm, sp := parent.sp }
           users := openMm m.users childMm }, made.2)

end Machine

/-! ### Runs -/

/-- A call, with what it is given from outside. `cpu_switch_to` of the architecture stores the stack pointer of the task
it leaves. -/
inductive MachineStep
  | createTask (flags : UInt32) (stack : Option UInt64)
  | createThread (stack : UInt64) (alloc : Option UInt64) (cloneFlags : UInt32)
  | doFork (flags : UInt32) (stack : Option UInt64) (mm : Option MmPtr)
  | call (step : Step) (others : step.creates = false)
  | cpuSwitchTo (prev : TaskPtr) (sp : UInt64)
  /-- `do_execve` may make an address space for the task, and sets its stack pointer if the program is loaded. -/
  | doExecve (mm : Option MmPtr) (sp : Option UInt64)

namespace Machine

variable (m : Machine)

def doExecve (mm : Option MmPtr) (sp : Option UInt64) : Machine :=
  let setCurrent (m : Machine) (fields : Fields) : Machine :=
    { m with fields := Function.update m.fields m.sys.current fields }
  let load (m : Machine) : Machine :=
    match sp with
    | none => m
    | some sp => setCurrent m { m.current with sp := sp }
  match m.current.mm with
  | some _ => load m
  | none =>
    match mm with
    | none => m
    | some mm => load { setCurrent m { m.current with mm := some mm } with users := openMm m.users (some mm) }

def next : MachineStep → Machine
  | .createTask flags stack => (m.createTask flags stack).1
  | .createThread stack alloc cloneFlags => (m.createThread stack alloc cloneFlags).1
  | .doFork flags stack mm => (m.doFork flags stack mm).1
  | .call step _ => { m with sys := step.next m.sys }
  | .cpuSwitchTo prev sp => { m with fields := Function.update m.fields prev { m.fields prev with sp := sp } }
  | .doExecve mm sp => m.doExecve mm sp

def Apart (stack size stack' size' : UInt64) : Prop :=
  size = 0 ∨ size' = 0 ∨ stack.toNat + size.toNat ≤ stack'.toNat ∨ stack'.toNat + size'.toNat ≤ stack.toNat

/-- The page allocator gives out pages that no task has for its stack. -/
def Grants (stack : Option UInt64) : Prop :=
  ∀ a ∈ stack, ∀ t, m.sys.IsTask t → Apart (m.fields t).stack (m.fields t).stackSize a kernelStackSize

def Allowed : MachineStep → Prop
  | .createTask _ stack => m.Grants stack
  | .createThread _ alloc _ => m.Grants alloc
  | .doFork _ stack _ => m.Grants stack
  | _ => True

end Machine

def machineInit : Machine := ⟨schedInit, fun _ => zeroFields, fun _ => 0⟩

inductive Reached : Machine → Prop
  | init : Reached machineInit
  | step {m : Machine} {next : MachineStep} : Reached m → m.Allowed next → Reached (m.next next)

namespace Machine

variable (m m' : Machine)

/-- The run queue, the counts of users and the tasks that are found are as they were. -/
structure Unchanged : Prop where
  head : m'.sys.head = m.sys.head
  tail : m'.sys.tail = m.sys.tail
  nrRunning : m'.sys.nrRunning = m.sys.nrRunning
  links : ∀ t, m.sys.IsTask t → m'.sys.next t = m.sys.next t ∧ m'.sys.prev t = m.sys.prev t
  users : m'.users = m.users
  found : ∀ pid, m'.sys.getTaskByPid pid = m.sys.getTaskByPid pid

/-- The saved stack pointer of the child lies in its stack, which no other task has. -/
structure OwnStack : Prop where
  low : (m'.fields m.newTask).stack.toNat ≤ (m'.fields m.newTask).sp.toNat
  high : (m'.fields m.newTask).sp.toNat ≤ (m'.fields m.newTask).stack.toNat + (m'.fields m.newTask).stackSize.toNat
  alone : ∀ t, m'.sys.IsTask t → t ≠ m.newTask → Apart (m'.fields t).stack (m'.fields t).stackSize
    (m'.fields m.newTask).stack (m'.fields m.newTask).stackSize

def Right : MachineStep → Prop
  | .createTask flags stack => (m.createTask flags stack).2 = null → m.Unchanged (m.createTask flags stack).1
  | .createThread stack alloc cloneFlags =>
    (m.createThread stack alloc cloneFlags).2 = -1 → m.Unchanged (m.createThread stack alloc cloneFlags).1
  | .doFork flags stack mm =>
    ((m.doFork flags stack mm).2 = -1 → m.Unchanged (m.doFork flags stack mm).1) ∧
      ((m.doFork flags stack mm).2 ≠ -1 → m.OwnStack (m.doFork flags stack mm).1)
  | _ => True

/-- What is refused is refused before there is a task; a parent forks only if its saved stack pointer lies in the stack
that its child is given. -/
def Orderly : MachineStep → Prop
  | .createThread stack alloc _ => m.sys.taskPoolIndex < maxTasks → stack ≠ 0 ∨ alloc ≠ none
  | .doFork _ stack mm => m.sys.taskPoolIndex < maxTasks → ∀ a ∈ stack,
      (m.current.mm = none ∨ mm ≠ none) ∧
        a.toNat ≤ m.current.sp.toNat ∧ m.current.sp.toNat ≤ a.toNat + kernelStackSize.toNat
  | _ => True

end Machine

/-! ### Each call -/

namespace Machine

structure Sound (m : Machine) : Prop where
  closed : m.sys.Closed
  pids : m.sys.PidsBelow

section Calls

open UnixOS.Sched.System

variable {m : Machine}

theorem Unchanged.refl (m : Machine) : m.Unchanged m := ⟨rfl, rfl, rfl, fun _ _ => ⟨rfl, rfl⟩, rfl, fun _ => rfl⟩

theorem isTask_ne_newTask {t : TaskPtr} (h : m.sys.IsTask t) : t ≠ m.newTask :=
  Nat.ne_of_lt h.2

theorem Sound.unchanged_allocated (h : m.Sound) (fields : TaskPtr → Fields) :
    m.Unchanged { m with sys := m.sys.allocated, fields := fields } := by
  refine ⟨rfl, rfl, rfl, fun t ht => ⟨?_, ?_⟩, rfl, (made_allocated m.sys).sameFound h.closed.idlePid⟩
  · exact (congrFun (setTask_next _ _ _) t).trans (Function.update_of_ne (isTask_ne_newTask ht) _ _)
  · exact (congrFun (setTask_prev _ _ _) t).trans (Function.update_of_ne (isTask_ne_newTask ht) _ _)

theorem Sound.not_unchanged (h : m.Sound) {m' : Machine} (hMade : Made m.sys m'.sys m.sys.nextPid) : ¬ m.Unchanged m' := by
  intro hSame
  have hNext := h.pids.nextPid
  have hFound := hMade.found h.closed.idlePid (by omega)
  rw [hSame.found, h.pids.not_found h.closed.idlePid] at hFound
  exact hFound rfl

theorem createTask_full (h : maxTasks ≤ m.sys.taskPoolIndex) (flags : UInt32) (stack : Option UInt64) :
    m.createTask flags stack = (m, null) :=
  if_pos h

theorem createTask_leaked (h : m.sys.taskPoolIndex < maxTasks) (flags : UInt32) : m.createTask flags none =
    ({ m with sys := m.sys.allocated, fields := Function.update m.fields m.newTask zeroFields }, null) := by
  rw [Machine.createTask, Option.isSome_none, System.createTask_leaked h]
  exact if_neg (Nat.not_le.mpr h)

/-- What `create_task` sets, apart from the queue. -/
def stacked (a : UInt64) : Fields := { zeroFields with stack := a, stackSize := kernelStackSize, sp := a + kernelStackSize }

theorem createTask_made (h : m.sys.taskPoolIndex < maxTasks) (flags : UInt32) (a : UInt64) : m.createTask flags (some a) =
    ({ m with sys := m.sys.child flags, fields := Function.update m.fields m.newTask (stacked a) }, m.newTask) := by
  rw [Machine.createTask, Option.isSome_some, System.createTask_made h]
  exact if_neg (Nat.not_le.mpr h)

theorem Sound.createTask_right (h : m.Sound) (flags : UInt32) (stack : Option UInt64) :
    m.Right (.createTask flags stack) := by
  intro hNull
  by_cases hFull : maxTasks ≤ m.sys.taskPoolIndex
  · rw [createTask_full hFull]
    exact Unchanged.refl m
  have hRoom := Nat.lt_of_not_le hFull
  cases stack with
  | none =>
    rw [createTask_leaked hRoom]
    exact h.unchanged_allocated _
  | some a =>
    rw [createTask_made hRoom] at hNull
    exact absurd hNull (Nat.succ_ne_zero _)

theorem Sound.createThread_right_iff (h : m.Sound) (stack : UInt64) (alloc : Option UInt64) (cloneFlags : UInt32) :
    m.Right (.createThread stack alloc cloneFlags) ↔ m.Orderly (.createThread stack alloc cloneFlags) := by
  rw [Right, Orderly, Machine.createThread]
  dsimp only
  by_cases hFull : m.sys.taskPoolIndex ≥ maxTasks
  · rw [if_pos hFull]
    exact iff_of_true (fun _ => Unchanged.refl m) fun hRoom => absurd hFull (Nat.not_le.mpr hRoom)
  have hRoom := Nat.lt_of_not_le hFull
  have hNext := h.pids.nextPid
  rw [if_neg hFull, imp_iff_right hRoom]
  by_cases hGiven : stack ≠ 0
  · rw [if_pos hGiven, decide_eq_true hGiven, createThread_made hRoom (Or.inl rfl)]
    exact iff_of_true (fun hFail => by dsimp only at hFail; omega) (Or.inl hGiven)
  rw [if_neg hGiven, decide_eq_false hGiven]
  cases alloc with
  | none =>
    rw [Option.isSome_none, createThread_leaked hRoom]
    refine iff_of_false (fun hRight => ?_) (fun hSome => hSome.elim hGiven fun hNone => hNone rfl)
    exact h.not_unchanged (made_filled m.sys _ _) (hRight rfl)
  | some alloc =>
    rw [Option.isSome_some, createThread_made hRoom (Or.inr rfl)]
    exact iff_of_true (fun hFail => by dsimp only at hFail; omega) (Or.inr (Option.some_ne_none alloc))

def forked (a : UInt64) (mm : Option MmPtr) (sp : UInt64) : Fields := { stacked a with mm := mm, sp := sp }

theorem ownStack_iff {m' : Machine} {a sp : UInt64} {mm : Option MmPtr} (hGrants : m.Grants (some a))
    (hFields : m'.fields = Function.update m.fields m.newTask (forked a mm sp))
    (hIndex : m'.sys.taskPoolIndex = m.sys.taskPoolIndex + 1) :
    m.OwnStack m' ↔ a.toNat ≤ sp.toNat ∧ sp.toNat ≤ a.toNat + kernelStackSize.toNat := by
  have hNew : m'.fields m.newTask = forked a mm sp := by rw [hFields, Function.update_self]
  constructor
  · intro h
    have hLow := h.low
    have hHigh := h.high
    rw [hNew] at hLow hHigh
    exact ⟨hLow, hHigh⟩
  · rintro ⟨hLow, hHigh⟩
    refine ⟨by rw [hNew]; exact hLow, by rw [hNew]; exact hHigh, fun t ht hOther => ?_⟩
    have hOld : m.sys.IsTask t := by
      have hBelow : @LT.lt Nat _ t (m'.sys.taskPoolIndex + 2) := ht.2
      have hNe : @Ne Nat t (m.sys.taskPoolIndex + 2) := hOther
      exact ⟨ht.1, show @LT.lt Nat _ t (m.sys.taskPoolIndex + 2) by omega⟩
    rw [hNew, hFields, Function.update_of_ne hOther]
    exact hGrants a rfl t hOld

theorem copyMm_isSome_iff (parent : Fields) (mm : Option MmPtr) :
    (copyMm parent mm).isSome ↔ parent.mm = none ∨ mm ≠ none := by
  unfold copyMm
  cases parent.mm <;> cases mm <;> simp

theorem Sound.doFork_right_iff (h : m.Sound) (flags : UInt32) {stack : Option UInt64} (mm : Option MmPtr)
    (hGrants : m.Grants stack) : m.Right (.doFork flags stack mm) ↔ m.Orderly (.doFork flags stack mm) := by
  rw [Right, Orderly, Machine.doFork]
  have hNext := h.pids.nextPid
  by_cases hFull : maxTasks ≤ m.sys.taskPoolIndex
  · rw [createTask_full hFull]
    exact iff_of_true ⟨fun _ => Unchanged.refl m, fun hOk => absurd rfl hOk⟩
      fun hRoom => absurd hFull (Nat.not_le.mpr hRoom)
  have hRoom := Nat.lt_of_not_le hFull
  rw [imp_iff_right hRoom]
  cases stack with
  | none =>
    rw [createTask_leaked hRoom]
    exact iff_of_true ⟨fun _ => h.unchanged_allocated _, fun hOk => absurd rfl hOk⟩ fun a ha => nomatch ha
  | some a =>
    have hNull : m.newTask ≠ null := Nat.succ_ne_zero _
    rw [createTask_made hRoom, Option.isSome_some]
    dsimp only
    rw [if_neg hNull, ← copyMm_isSome_iff]
    have hOnly : ∀ P : UInt64 → Prop, (∀ b ∈ some a, P b) ↔ P a := fun P =>
      ⟨fun hAll => hAll a rfl, fun hHere b hb => Option.some.inj hb ▸ hHere⟩
    rw [hOnly]
    cases hMm : copyMm m.current mm with
    | none =>
      rw [Option.isSome_none, doFork_noMm hRoom]
      exact iff_of_false (fun hRight => h.not_unchanged (made_child m.sys flags) (hRight.1 rfl))
        fun hAll => Bool.false_ne_true hAll.1
    | some childMm =>
      rw [Option.isSome_some, doFork_made hRoom]
      have hFailed : m.sys.nextPid ≠ -1 := by omega
      have hFields : Function.update (Function.update m.fields m.newTask (stacked a)) m.newTask
          { Function.update m.fields m.newTask (stacked a) m.newTask with mm := childMm, sp := m.current.sp } =
            Function.update m.fields m.newTask (forked a childMm m.current.sp) := by
        rw [Function.update_idem, Function.update_self]
        rfl
      have hIndex := (made_child m.sys flags).taskPoolIndex
      constructor
      · intro hRight
        exact ⟨rfl, (ownStack_iff hGrants hFields hIndex).mp (hRight.2 hFailed)⟩
      · intro hOrderly
        exact ⟨fun hMinus => absurd hMinus hFailed,
          fun _ => (ownStack_iff hGrants hFields hIndex).mpr hOrderly.2⟩

/-! ### Runs -/

theorem sys_createTask (flags : UInt32) (stack : Option UInt64) :
    (m.createTask flags stack).1.sys = (m.sys.createTask flags stack.isSome).1 := by
  by_cases hFull : maxTasks ≤ m.sys.taskPoolIndex
  · rw [createTask_full hFull, System.createTask_full hFull]
  · unfold Machine.createTask
    dsimp only
    rw [if_neg hFull]
    cases stack <;> rfl

theorem sys_createThread (stack : UInt64) (alloc : Option UInt64) (cloneFlags : UInt32) :
    (m.createThread stack alloc cloneFlags).1.sys = (m.sys.createThread (stack ≠ 0) alloc.isSome cloneFlags).1 := by
  by_cases hFull : maxTasks ≤ m.sys.taskPoolIndex
  · rw [Machine.createThread, if_pos hFull, System.createThread_full hFull]
  · rw [Machine.createThread, if_neg hFull]
    dsimp only
    split
    · rfl
    · cases alloc <;> rfl

theorem sys_doFork (flags : UInt32) (stack : Option UInt64) (mm : Option MmPtr) :
    (m.doFork flags stack mm).1.sys = (m.sys.doFork flags stack.isSome (copyMm m.current mm).isSome).1 := by
  rw [Machine.doFork]
  by_cases hFull : maxTasks ≤ m.sys.taskPoolIndex
  · rw [createTask_full hFull, System.doFork_full hFull]
    rfl
  have hRoom := Nat.lt_of_not_le hFull
  cases stack with
  | none =>
    rw [createTask_leaked hRoom, Option.isSome_none, System.doFork_leaked hRoom]
    rfl
  | some a =>
    rw [createTask_made hRoom]
    have hNull : m.newTask ≠ null := Nat.succ_ne_zero _
    dsimp only
    rw [if_neg hNull]
    cases copyMm m.current mm <;> rfl

end Calls

end Machine

namespace System

variable {s : System}

theorem PidsBelow.allocated (h : s.PidsBelow) : s.allocated.PidsBelow :=
  h.made (made_allocated s) h.nextPid (Int.le_refl _)

theorem PidsBelow.filled (h : s.PidsBelow) (tgid : Int) (flags : UInt32) : (s.filled tgid flags).PidsBelow :=
  h.made (made_filled s tgid flags) (Int.lt_add_one_of_le (Int.le_refl _)) (Int.le_add_one (Int.le_refl _))

theorem PidsBelow.queued (h : s.PidsBelow) (tgid : Int) (flags : UInt32) (t : TaskPtr) :
    ((s.filled tgid flags).enqueueTask t).PidsBelow :=
  ((SamePids.refl _).enqueueTask t).pidsBelow (h.filled tgid flags)

theorem PidsBelow.createTask (h : s.PidsBelow) (flags : UInt32) (stack : Bool) :
    (s.createTask flags stack).1.PidsBelow := by
  by_cases hFull : maxTasks ≤ s.taskPoolIndex
  · rwa [createTask_full hFull]
  have hRoom := Nat.lt_of_not_le hFull
  cases stack with
  | false =>
    rw [createTask_leaked hRoom]
    exact h.allocated
  | true =>
    rw [createTask_made hRoom]
    exact h.queued _ _ _

theorem PidsBelow.createThread (h : s.PidsBelow) (given stack : Bool) (cloneFlags : UInt32) :
    (s.createThread given stack cloneFlags).1.PidsBelow := by
  by_cases hFull : maxTasks ≤ s.taskPoolIndex
  · rwa [createThread_full hFull]
  have hRoom := Nat.lt_of_not_le hFull
  by_cases hStack : given = true ∨ stack = true
  · rw [createThread_made hRoom hStack]
    exact h.queued _ _ _
  · rw [not_or, Bool.not_eq_true, Bool.not_eq_true] at hStack
    rw [hStack.1, hStack.2, createThread_leaked hRoom]
    exact h.filled _ _

theorem PidsBelow.doFork (h : s.PidsBelow) (flags : UInt32) (stack mm : Bool) :
    (s.doFork flags stack mm).1.PidsBelow := by
  by_cases hFull : maxTasks ≤ s.taskPoolIndex
  · rwa [doFork_full hFull]
  have hRoom := Nat.lt_of_not_le hFull
  have hChild : (s.child flags).PidsBelow := h.queued _ _ _
  cases stack with
  | false =>
    rw [doFork_leaked hRoom]
    exact h.allocated
  | true =>
    cases mm with
    | false =>
      rw [doFork_noMm hRoom]
      exact hChild
    | true =>
      rw [doFork_made hRoom]
      refine SamePids.pidsBelow ?_ hChild
      exact (SamePids.refl _).setTask rfl

theorem PidsBelow.next (h : s.PidsBelow) (step : Step) : (step.next s).PidsBelow := by
  cases hCreates : step.creates with
  | false => exact (step_samePids s hCreates).pidsBelow h
  | true =>
    cases step with
    | createTask flags stack => exact h.createTask flags stack
    | createThread given stack cloneFlags => exact h.createThread given stack cloneFlags
    | doFork flags stack mm => exact h.doFork flags stack mm
    | schedule => cases hCreates
    | wakeUpProcess t => cases hCreates
    | killTask t sig => cases hCreates
    | doSignal t => cases hCreates
    | signalRound => cases hCreates
    | doWaitpid => cases hCreates
    | schedKillTask pid => cases hCreates
    | exitTask code => cases hCreates
    | signalInit t => cases hCreates
    | sigprocmask how set => cases hCreates
    | sigactionSyscall sig act => cases hCreates

end System

namespace Machine

variable {m m' : Machine}

theorem Sound.next (h : m.Sound) {step : Step} (hSys : m'.sys = step.next m.sys) : m'.Sound := by
  obtain ⟨P, hEffect, -⟩ := System.step_effect h.closed step
  constructor
  · rw [hSys]
    exact hEffect.closed h.closed
  · rw [hSys]
    exact h.pids.next step

theorem Sound.of_sys (h : m.Sound) (hSys : m'.sys = m.sys) : m'.Sound :=
  ⟨hSys ▸ h.closed, hSys ▸ h.pids⟩

theorem sys_doExecve (m : Machine) (mm : Option MmPtr) (sp : Option UInt64) : (m.doExecve mm sp).sys = m.sys := by
  unfold doExecve
  dsimp only
  cases m.current.mm <;> cases mm <;> cases sp <;> rfl

theorem Sound.step (h : m.Sound) (next : MachineStep) : (m.next next).Sound := by
  cases next with
  | createTask flags stack => exact @Sound.next _ _ h (.createTask flags stack.isSome) (sys_createTask flags stack)
  | createThread stack alloc cloneFlags =>
    exact @Sound.next _ _ h (.createThread (stack ≠ 0) alloc.isSome cloneFlags) (sys_createThread stack alloc cloneFlags)
  | doFork flags stack mm =>
    exact @Sound.next _ _ h (.doFork flags stack.isSome (copyMm m.current mm).isSome) (sys_doFork flags stack mm)
  | call step others => exact @Sound.next _ _ h step rfl
  | cpuSwitchTo prev sp => exact h.of_sys rfl
  | doExecve mm sp => exact h.of_sys (sys_doExecve m mm sp)

theorem sound_machineInit : machineInit.Sound :=
  ⟨System.closed_schedInit, ⟨Int.one_pos, fun _ hi => absurd hi (Nat.not_lt_zero _)⟩⟩

end Machine

theorem Reached.sound {m : Machine} (h : Reached m) : m.Sound := by
  induction h with
  | init => exact Machine.sound_machineInit
  | step _ _ ih => exact ih.step _

/-- A call does all of its work or none exactly if it is not refused once there is a task, and a fork gives its child a
stack pointer in its own stack exactly if the parent's was there. -/
theorem creation_right_iff {m : Machine} (h : Reached m) {next : MachineStep} (hAllowed : m.Allowed next) :
    m.Right next ↔ m.Orderly next := by
  cases next with
  | createTask flags stack => exact iff_of_true (h.sound.createTask_right flags stack) trivial
  | createThread stack alloc cloneFlags => exact h.sound.createThread_right_iff stack alloc cloneFlags
  | doFork flags stack mm => exact h.sound.doFork_right_iff flags mm hAllowed
  | call step others => exact iff_of_true trivial trivial
  | cpuSwitchTo prev sp => exact iff_of_true trivial trivial
  | doExecve mm sp => exact iff_of_true trivial trivial

theorem grants_machineInit (a : UInt64) : machineInit.Grants (some a) :=
  fun _ _ _ _ => Or.inl rfl

def oneMade : Machine := machineInit.next (.createTask 0 (some 0x40000000))
def twoMade : Machine := oneMade.next (.createThread 0 (some 0x40004000) cloneVm)

instance (stack size stack' size' : UInt64) : Decidable (Machine.Apart stack size stack' size') :=
  inferInstanceAs (Decidable (_ ∨ _))

theorem grants_oneMade : oneMade.Grants (some 0x40004000) := by
  have hAll : ∀ t < 3, Machine.Apart (oneMade.fields t).stack (oneMade.fields t).stackSize 0x40004000 kernelStackSize := by
    decide +kernel
  exact fun a ha t ht => Option.some.inj ha ▸ hAll t ht.2

theorem grants_twoMade : twoMade.Grants (some 0x40008000) := by
  have hAll : ∀ t < 4, Machine.Apart (twoMade.fields t).stack (twoMade.fields t).stackSize 0x40008000 kernelStackSize := by
    decide +kernel
  exact fun a ha t ht => Option.some.inj ha ▸ hAll t ht.2

theorem creation_right_twoMade : twoMade.Right (.createThread 0 (some 0x40008000) cloneVm) ∧
    ¬ twoMade.Right (.doFork 0 (some 0x40008000) none) := by
  have hReached : Reached twoMade := .step (.step .init (grants_machineInit _)) grants_oneMade
  have hThread : twoMade.Allowed (.createThread 0 (some 0x40008000) cloneVm) := grants_twoMade
  have hFork : twoMade.Allowed (.doFork 0 (some 0x40008000) none) := grants_twoMade
  constructor
  · exact (creation_right_iff hReached hThread).mpr fun _ => Or.inr (Option.some_ne_none _)
  · intro hRight
    have hOrderly := (creation_right_iff hReached hFork).mp hRight (by decide +kernel) _ rfl
    exact absurd hOrderly.2.1 (by decide +kernel)

/-- `init_task` has no stack pointer saved yet: its child is given none. A thread that gets no stack is found. -/
theorem creation_not_right : ¬ machineInit.Right (.createThread 0 none cloneVm) ∧
    ¬ machineInit.Right (.doFork 0 (some 0x40000000) none) := by
  have hSound := Machine.sound_machineInit
  rw [hSound.createThread_right_iff, hSound.doFork_right_iff 0 none (grants_machineInit _)]
  constructor
  · intro hOrderly
    exact (hOrderly (by decide)).elim (fun hStack => hStack rfl) fun hAlloc => hAlloc rfl
  · intro hOrderly
    exact absurd (hOrderly (by decide) _ rfl).2.1 (by decide)

end UnixOS.Sched
