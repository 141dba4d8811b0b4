import UnixOS.Sched.Effects
import Mathlib.Data.List.Find

/-! # The pids of the tasks

Only the creation of a task gives out a pid, and the pool is never reused: a pid that is still to come is found by
nobody.
-/

namespace UnixOS.Sched

def Step.creates : Step → Bool
  | .createTask _ _ => true
  | .createThread _ _ _ => true
  | .doFork _ _ _ => true
  | _ => false

namespace System

structure SamePids (s s' : System) : Prop where
  pid : ∀ t, (s'.tasks t).pid = (s.tasks t).pid
  nextPid : s'.nextPid = s.nextPid
  taskPoolIndex : s'.taskPoolIndex = s.taskPoolIndex

structure PidsBelow (s : System) : Prop where
  nextPid : 0 < s.nextPid
  pool : ∀ i < s.taskPoolIndex, (s.tasks (poolTask i)).pid < s.nextPid

section Steps

variable {s s' : System} {t : TaskPtr}

theorem SamePids.refl (s : System) : s.SamePids s := ⟨fun _ => rfl, rfl, rfl⟩

theorem SamePids.setTask {task : Task} (h : s.SamePids s') (hPid : task.pid = (s'.tasks t).pid) :
    s.SamePids (s'.setTask t task) := by
  refine ⟨fun u => ?_, h.nextPid, h.taskPoolIndex⟩
  rw [← h.pid u]
  simp only [System.setTask, Function.update_apply]
  split
  case isTrue hHere => rw [hHere, hPid]
  case isFalse => rfl

theorem SamePids.keeps {s'' : System} (h : s.SamePids s') (hKeeps : s'.Keeps s'') (hNext : s''.nextPid = s'.nextPid) :
    s.SamePids s'' :=
  ⟨fun u => (hKeeps.pid u).trans (h.pid u), hNext.trans h.nextPid, hKeeps.taskPoolIndex.trans h.taskPoolIndex⟩

theorem SamePids.enqueueTask (h : s.SamePids s') (t : TaskPtr) : s.SamePids (s'.enqueueTask t) := by
  refine h.keeps (keeps_enqueueTask s' t) ?_
  unfold System.enqueueTask
  dsimp only
  split <;> rfl

theorem SamePids.dequeueTask (h : s.SamePids s') (t : TaskPtr) : s.SamePids (s'.dequeueTask t) := by
  refine h.keeps (keeps_dequeueTask s' t) ?_
  rw [dequeueTask_eq]
  unfold dequeuePrev dequeueNext
  split <;> split <;> rfl

theorem SamePids.setState (h : s.SamePids s') (t : TaskPtr) (state : TaskState) : s.SamePids (s'.setState t state) :=
  h.setTask rfl

theorem SamePids.schedule (h : s.SamePids s') : s.SamePids s'.schedule := by
  unfold System.schedule
  dsimp only
  split
  · exact h
  · split
    · have hMoved := (h.dequeueTask s'.current).enqueueTask s'.current
      exact ⟨hMoved.pid, hMoved.nextPid, hMoved.taskPoolIndex⟩
    · exact ⟨h.pid, h.nextPid, h.taskPoolIndex⟩

theorem SamePids.exitTask (h : s.SamePids s') (code : Int) : s.SamePids (s'.exitTask code) := by
  unfold System.exitTask
  refine SamePids.schedule ?_
  have hLeft : s.SamePids ((s'.setTask s'.current { s'.tasks s'.current with
      exitCode := code, state := .zombie
      flags := (s'.tasks s'.current).flags ||| pfExiting }).dequeueTask s'.current) := by
    refine SamePids.dequeueTask ?_ _
    exact h.setTask rfl
  exact ⟨hLeft.pid, hLeft.nextPid, hLeft.taskPoolIndex⟩

theorem SamePids.wakeUpProcess (h : s.SamePids s') (t : TaskPtr) : s.SamePids (s'.wakeUpProcess t) := by
  unfold System.wakeUpProcess
  split
  · exact h
  · split
    · exact h
    · exact (h.setState t .running).enqueueTask t

theorem SamePids.killTask (h : s.SamePids s') (t : TaskPtr) (sig : Int) : s.SamePids (s'.killTask t sig).1 := by
  unfold System.killTask
  split
  · exact h
  split
  · exact h
  split
  · exact h
  · dsimp only
    split
    · refine SamePids.wakeUpProcess ?_ t
      exact h.setTask rfl
    · exact h.setTask rfl

theorem SamePids.act (h : s.SamePids s') (sig : Nat) (disposition : Disposition) : s.SamePids (s'.act sig disposition) := by
  cases disposition with
  | ignore => exact h
  | user => exact h
  | term => exact h.exitTask sig
  | stop => exact (h.setState s'.current .stopped).schedule
  | cont => exact h.setState s'.current .running

theorem SamePids.signalRound (h : s.SamePids s') : s.SamePids s'.signalRound := by
  have hFrames : ∀ frames, s.SamePids (s'.setFrames frames) := fun frames => ⟨h.pid, h.nextPid, h.taskPoolIndex⟩
  unfold System.signalRound
  split
  · rename_i t pending sig frames _
    split
    · exact hFrames _
    · dsimp only
      split
      · exact hFrames _
      · split
        · exact hFrames _
        · refine SamePids.act ?_ sig _
          exact (hFrames (.signals t pending (sig + 1) :: frames)).setTask rfl
  · exact h

theorem SamePids.schedKillTask (h : s.SamePids s') (pid : Int) : s.SamePids (s'.schedKillTask pid).1 := by
  unfold System.schedKillTask
  dsimp only
  split
  · exact h
  split
  · exact h
  split
  · refine SamePids.enqueueTask ?_ _
    refine SamePids.setState ?_ _ _
    exact h.setTask rfl
  · exact h.setTask rfl

theorem SamePids.doSignal (h : s.SamePids s') (t : TaskPtr) : s.SamePids (s'.doSignal t) := by
  unfold System.doSignal
  split
  · exact h
  split
  · exact h
  · dsimp only
    split
    · exact h
    · exact ⟨h.pid, h.nextPid, h.taskPoolIndex⟩

theorem SamePids.signalInit (h : s.SamePids s') (t : TaskPtr) : s.SamePids (s'.signalInit t) := by
  unfold System.signalInit
  dsimp only
  split
  · exact h.setTask rfl
  · split
    · have hPool : s.SamePids { s' with sigPoolIdx := s'.sigPoolIdx + 1 } := ⟨h.pid, h.nextPid, h.taskPoolIndex⟩
      exact hPool.setTask rfl
    · exact h

theorem SamePids.sigprocmask (h : s.SamePids s') (how : Int) (set : Option SigSet) :
    s.SamePids (s'.sigprocmask how set).1 := by
  unfold System.sigprocmask
  split
  · exact h
  · dsimp only
    split
    · exact h.setTask rfl
    · split
      · exact h.setTask rfl
      · split
        · exact h.setTask rfl
        · split
          · exact h.setTask rfl
          · exact h

theorem SamePids.sigactionSyscall (h : s.SamePids s') (sig : Int) (act : Option SigAction) :
    s.SamePids (s'.sigactionSyscall sig act).1 := by
  unfold System.sigactionSyscall
  split
  · exact h
  split
  · exact h
  split
  · exact h
  split
  · exact h
  · exact h.setTask rfl

theorem step_samePids (s : System) {step : Step} (hStep : step.creates = false) : s.SamePids (step.next s) := by
  have h := SamePids.refl s
  cases step with
  | createTask flags stack => cases hStep
  | createThread given stack cloneFlags => cases hStep
  | doFork flags stack mm => cases hStep
  | schedule => exact h.schedule
  | wakeUpProcess t => exact h.wakeUpProcess t
  | killTask t sig => exact h.killTask t sig
  | doSignal t => exact h.doSignal t
  | signalRound => exact h.signalRound
  | doWaitpid => exact (h.setState s.current .interruptible).schedule
  | schedKillTask pid => exact h.schedKillTask pid
  | exitTask code => exact h.exitTask code
  | signalInit t => exact h.signalInit t
  | sigprocmask how set => exact h.sigprocmask how set
  | sigactionSyscall sig act => exact h.sigactionSyscall sig act

end Steps

/-! ### New tasks -/

structure Made (s s' : System) (pid : Int) : Prop where
  new : (s'.tasks (poolTask s.taskPoolIndex)).pid = pid
  old : ∀ t, t ≠ poolTask s.taskPoolIndex → (s'.tasks t).pid = (s.tasks t).pid
  taskPoolIndex : s'.taskPoolIndex = s.taskPoolIndex + 1
  newState : s'.stateOf (poolTask s.taskPoolIndex) = .running
  oldState : ∀ t, t ≠ poolTask s.taskPoolIndex → s'.stateOf t = s.stateOf t

section Creation

variable {s s' : System} {pid : Int}

theorem poolTask_injective {i j : Nat} (h : poolTask i = poolTask j) : i = j :=
  Nat.add_right_cancel h

theorem setTask_self (s : System) (t : TaskPtr) (task : Task) : (s.setTask t task).tasks t = task := by
  show Function.update s.tasks t task t = task
  rw [Function.update_self]

theorem setTask_of_ne {t u : TaskPtr} (h : u ≠ t) (s : System) (task : Task) : (s.setTask t task).tasks u = s.tasks u := by
  show Function.update s.tasks t task u = s.tasks u
  rw [Function.update_of_ne h]

theorem Made.setTask (h : Made s s' pid) {task : Task} (hState : task.state = .running) :
    Made s (s'.setTask (poolTask s.taskPoolIndex) task) task.pid := by
  refine ⟨congrArg Task.pid (setTask_self s' _ task), fun t ht => ?_, h.taskPoolIndex, ?_, fun t ht => ?_⟩
  · rw [setTask_of_ne ht, h.old t ht]
  · rw [setTask_stateOf, Function.update_self, hState]
  · rw [setTask_stateOf, Function.update_of_ne ht, h.oldState t ht]

theorem Made.enqueueTask (h : Made s s' pid) : Made s (s'.enqueueTask (poolTask s.taskPoolIndex)) pid := by
  have hKeeps := keeps_enqueueTask s' (poolTask s.taskPoolIndex)
  refine ⟨(hKeeps.pid _).trans h.new, fun t ht => (hKeeps.pid t).trans (h.old t ht),
    hKeeps.taskPoolIndex.trans h.taskPoolIndex, ?_, fun t ht => ?_⟩
  · rw [enqueueTask_stateOf, Function.update_self]
  · rw [enqueueTask_stateOf, Function.update_of_ne ht, h.oldState t ht]

def allocated (s : System) : System :=
  { s with taskPoolIndex := s.taskPoolIndex + 1 }.setTask (poolTask s.taskPoolIndex) zeroTask

theorem made_allocated (s : System) : Made s s.allocated 0 := by
  refine ⟨congrArg Task.pid (setTask_self _ _ zeroTask), fun t ht => ?_, rfl, ?_, fun t ht => ?_⟩
  · rw [allocated, setTask_of_ne ht]
  · rw [allocated, setTask_stateOf, Function.update_self]
    rfl
  · rw [allocated, setTask_stateOf, Function.update_of_ne ht]
    rfl

theorem allocTask_full (h : maxTasks ≤ s.taskPoolIndex) : s.allocTask = none :=
  if_pos h

theorem allocTask_room (h : s.taskPoolIndex < maxTasks) : s.allocTask = some (s.allocated, poolTask s.taskPoolIndex) :=
  if_neg (Nat.not_le.mpr h)

def filled (s : System) (tgid : Int) (flags : UInt32) : System :=
  { s.allocated with nextPid := s.nextPid + 1 }.setTask (poolTask s.taskPoolIndex)
    { s.allocated.tasks (poolTask s.taskPoolIndex) with
      state := .running, pid := s.nextPid, tgid := tgid, flags := flags, parent := s.current }

theorem made_filled (s : System) (tgid : Int) (flags : UInt32) : Made s (s.filled tgid flags) s.nextPid := by
  have h := made_allocated s
  have hNext : Made s { s.allocated with nextPid := s.nextPid + 1 } 0 :=
    ⟨h.new, h.old, h.taskPoolIndex, h.newState, h.oldState⟩
  exact hNext.setTask rfl

theorem createTask_full (h : maxTasks ≤ s.taskPoolIndex) (flags : UInt32) (stack : Bool) :
    s.createTask flags stack = (s, null) := by
  rw [createTask, allocTask_full h]

theorem createTask_leaked (h : s.taskPoolIndex < maxTasks) (flags : UInt32) :
    s.createTask flags false = (s.allocated, null) := by
  rw [createTask, allocTask_room h]
  rfl

theorem createTask_made (h : s.taskPoolIndex < maxTasks) (flags : UInt32) : s.createTask flags true =
    ((s.filled s.nextPid flags).enqueueTask (poolTask s.taskPoolIndex), poolTask s.taskPoolIndex) := by
  rw [createTask, allocTask_room h]
  rfl

def threadGroup (s : System) (cloneFlags : UInt32) : Int :=
  if cloneFlags &&& cloneThread ≠ 0 then (s.allocated.tasks s.current).tgid else s.nextPid

theorem createThread_full (h : maxTasks ≤ s.taskPoolIndex) (given stack : Bool) (cloneFlags : UInt32) :
    s.createThread given stack cloneFlags = (s, -1) := by
  rw [createThread, allocTask_full h]

theorem createThread_leaked (h : s.taskPoolIndex < maxTasks) (cloneFlags : UInt32) :
    s.createThread false false cloneFlags = (s.filled (s.threadGroup cloneFlags) pfThread, -1) := by
  rw [createThread, allocTask_room h]
  rfl

theorem createThread_made (h : s.taskPoolIndex < maxTasks) {given stack : Bool} (hStack : given = true ∨ stack = true)
    (cloneFlags : UInt32) : s.createThread given stack cloneFlags =
      ((s.filled (s.threadGroup cloneFlags) pfThread).enqueueTask (poolTask s.taskPoolIndex), s.nextPid) := by
  have hPid : ((s.filled (s.threadGroup cloneFlags) pfThread).tasks (poolTask s.taskPoolIndex)).pid = s.nextPid :=
    (made_filled s _ _).new
  rw [createThread, allocTask_room h]
  rcases hStack with rfl | rfl
  · exact congrArg (Prod.mk _) hPid
  · cases given <;> exact congrArg (Prod.mk _) hPid

theorem doFork_full (h : maxTasks ≤ s.taskPoolIndex) (flags : UInt32) (stack mm : Bool) :
    s.doFork flags stack mm = (s, -1) := by
  rw [doFork, createTask_full h]
  rfl

theorem doFork_leaked (h : s.taskPoolIndex < maxTasks) (flags : UInt32) (mm : Bool) :
    s.doFork flags false mm = (s.allocated, -1) := by
  rw [doFork, createTask_leaked h]
  rfl

def child (s : System) (flags : UInt32) : System :=
  (s.filled s.nextPid flags).enqueueTask (poolTask s.taskPoolIndex)

theorem made_child (s : System) (flags : UInt32) : Made s (s.child flags) s.nextPid :=
  (made_filled s _ flags).enqueueTask

theorem doFork_noMm (h : s.taskPoolIndex < maxTasks) (flags : UInt32) : s.doFork flags true false = (s.child flags, -1) := by
  rw [doFork, createTask_made h]
  rfl

theorem doFork_made (h : s.taskPoolIndex < maxTasks) (flags : UInt32) : s.doFork flags true true =
    ((s.child flags).setTask (poolTask s.taskPoolIndex)
      { (s.child flags).tasks (poolTask s.taskPoolIndex) with parent := s.current, state := .running }, s.nextPid) := by
  have hPid : (((s.child flags).setTask (poolTask s.taskPoolIndex)
      { (s.child flags).tasks (poolTask s.taskPoolIndex) with parent := s.current, state := .running }).tasks
        (poolTask s.taskPoolIndex)).pid = s.nextPid := by
    rw [setTask_self]
    exact (made_child s flags).new
  rw [doFork, createTask_made h]
  have hNull : poolTask s.taskPoolIndex ≠ null := Nat.succ_ne_zero _
  dsimp only
  rw [if_neg hNull, if_neg (by decide)]
  exact congrArg (Prod.mk _) hPid

theorem PidsBelow.made (h : s.PidsBelow) (hMade : Made s s' pid) (hPid : pid < s'.nextPid) (hNext : s.nextPid ≤ s'.nextPid) :
    s'.PidsBelow := by
  have hPos := h.nextPid
  refine ⟨by omega, fun i hi => ?_⟩
  rw [hMade.taskPoolIndex] at hi
  rcases Nat.lt_succ_iff_lt_or_eq.mp hi with hOld | rfl
  · have hBelow := h.pool i hOld
    rw [hMade.old _ fun hSame => Nat.ne_of_lt hOld (poolTask_injective hSame)]
    omega
  · rw [hMade.new]
    exact hPid

theorem SamePids.pidsBelow (hSame : s.SamePids s') (h : s.PidsBelow) : s'.PidsBelow := by
  refine ⟨hSame.nextPid ▸ h.nextPid, fun i hi => ?_⟩
  rw [hSame.pid, hSame.nextPid]
  exact h.pool i (hSame.taskPoolIndex ▸ hi)

/-! ### Finding tasks -/

theorem PidsBelow.not_found (h : s.PidsBelow) (hIdle : (s.tasks initTask).pid = 0) : s.getTaskByPid s.nextPid = null := by
  have hPos := h.nextPid
  rw [getTaskByPid, if_neg (by omega)]
  have hNone : (List.range s.taskPoolIndex).find? (fun i =>
      (s.tasks (poolTask i)).pid = s.nextPid ∧ s.stateOf (poolTask i) ≠ .dead) = none := by
    rw [List.find?_eq_none]
    intro i hi hFound
    have hBelow := h.pool i (List.mem_range.mp hi)
    have hPid := (of_decide_eq_true hFound).1
    omega
  rw [hNone]

theorem Made.found (h : Made s s' pid) (hIdle : (s.tasks initTask).pid = 0) (hPid : pid ≠ 0) :
    s'.getTaskByPid pid ≠ null := by
  have hInit : (s'.tasks initTask).pid = 0 := (h.old _ (initTask_ne_poolTask _)).trans hIdle
  rw [getTaskByPid, if_neg (by omega)]
  have hSome : ((List.range s'.taskPoolIndex).find? fun i =>
      (s'.tasks (poolTask i)).pid = pid ∧ s'.stateOf (poolTask i) ≠ .dead).isSome := by
    rw [List.find?_isSome]
    refine ⟨s.taskPoolIndex, ?_, decide_eq_true ⟨h.new, ?_⟩⟩
    · rw [List.mem_range, h.taskPoolIndex]
      exact Nat.lt_succ_self _
    · rw [h.newState]
      exact fun hDead => nomatch hDead
  obtain ⟨i, hi⟩ := Option.isSome_iff_exists.mp hSome
  rw [hi]
  exact Nat.succ_ne_zero _

theorem Made.sameFound (h : Made s s' 0) (hIdle : (s.tasks initTask).pid = 0) (pid : Int) :
    s'.getTaskByPid pid = s.getTaskByPid pid := by
  have hInit : (s'.tasks initTask).pid = 0 := (h.old _ (initTask_ne_poolTask _)).trans hIdle
  rw [getTaskByPid, getTaskByPid, hInit, hIdle]
  by_cases hZero : 0 = pid
  · rw [if_pos hZero, if_pos hZero]
  rw [if_neg hZero, if_neg hZero, h.taskPoolIndex, List.range_succ, List.find?_append]
  have hOld : (List.range s.taskPoolIndex).find? (fun i => (s'.tasks (poolTask i)).pid = pid ∧ s'.stateOf (poolTask i) ≠ .dead) =
      (List.range s.taskPoolIndex).find? fun i => (s.tasks (poolTask i)).pid = pid ∧ s.stateOf (poolTask i) ≠ .dead := by
    refine List.find?_congr fun i hi => ?_
    have hNe : poolTask i ≠ poolTask s.taskPoolIndex := fun hSame =>
      Nat.ne_of_lt (List.mem_range.mp hi) (poolTask_injective hSame)
    rw [h.old _ hNe, h.oldState _ hNe]
  have hNew : [s.taskPoolIndex].find? (fun i => (s'.tasks (poolTask i)).pid = pid ∧ s'.stateOf (poolTask i) ≠ .dead) =
      none := by
    rw [List.find?_singleton, if_neg]
    rw [decide_eq_true_eq, h.new]
    exact fun hBoth => hZero hBoth.1
  rw [hOld, hNew, Option.or_none]

end Creation

end System

end UnixOS.Sched
