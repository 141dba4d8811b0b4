import UnixOS.Sched.Links

/-! # What the calls do to the run queue

Every call is one of a few changes of the queue and the states: nothing, a new task, a switch, a
task woken up, the current task put to sleep, continued or ended. The pointers that the scheduler
follows stay inside the tasks in all of them.
-/

namespace UnixOS.Sched

namespace System

def IsTask (s : System) (t : TaskPtr) : Prop := t ≠ null ∧ t < poolTask s.taskPoolIndex

instance (s : System) (t : TaskPtr) : Decidable (s.IsTask t) := inferInstanceAs (Decidable (_ ∧ _))

/-! ### Pointers -/

/-- Every pointer that the scheduler follows is a task, and what was not given out is as it was. -/
structure Closed (s : System) : Prop where
  idle : s.idle = initTask
  current : s.IsTask s.current
  head : s.head = null ∨ s.IsTask s.head
  next : ∀ t, s.next t = null ∨ s.IsTask (s.next t)
  unused : ∀ t, ¬ s.IsTask t → s.stateOf t = .running
  idlePid : (s.tasks initTask).pid = 0

section Closed

variable {s s' : System} {t : TaskPtr}

theorem isTask_congr (h : s'.taskPoolIndex = s.taskPoolIndex) : s'.IsTask t ↔ s.IsTask t := by
  rw [IsTask, IsTask, h]

theorem Closed.isTask_idle (h : s.Closed) : s.IsTask s.idle := by
  rw [h.idle]
  exact ⟨by decide, by simp [initTask, poolTask]⟩

theorem SameQueue.closed (hSame : s.SameQueue s') (h : s.Closed) : s'.Closed := by
  constructor
  · rw [hSame.idle, h.idle]
  · rw [isTask_congr hSame.taskPoolIndex, hSame.current]
    exact h.current
  · rw [isTask_congr hSame.taskPoolIndex, hSame.head]
    exact h.head
  · intro t
    rw [isTask_congr hSame.taskPoolIndex, hSame.next]
    exact h.next t
  · intro t
    rw [isTask_congr hSame.taskPoolIndex, hSame.stateOf]
    exact h.unused t
  · rw [hSame.pid, h.idlePid]

theorem Closed.setState (h : s.Closed) (ht : s.IsTask t) (state : TaskState) :
    (s.setState t state).Closed := by
  refine ⟨h.idle, h.current, h.head, ?_, ?_, ((keeps_setState s t state).pid _).trans h.idlePid⟩
  · intro u
    rw [setState_next]
    exact h.next u
  · intro u hu
    rw [setState_stateOf, Function.update_of_ne (by rintro rfl; exact hu ht)]
    exact h.unused u hu

theorem Closed.enqueue (h : s.Closed) (ht : s.IsTask t) : (s.enqueueTask t).Closed := by
  obtain ⟨hNext, -, hHead, -, -⟩ := enqueueTask_fields s t
  have hKeeps := keeps_enqueueTask s t
  have hTask : ∀ u, (s.enqueueTask t).IsTask u ↔ s.IsTask u :=
    fun u => isTask_congr hKeeps.taskPoolIndex
  constructor
  · rw [hKeeps.idle, h.idle]
  · rw [hTask, hKeeps.current]
    exact h.current
  · rw [hTask, hHead]
    split
    · exact Or.inr ht
    · exact h.head
  · intro u
    have hLink : (s.enqueueTask t).next u = null ∨ (s.enqueueTask t).next u = t ∨
        (s.enqueueTask t).next u = s.next u := by
      rw [hNext]
      split
      · rw [Function.update_apply]
        split <;> simp
      · rw [Function.update_apply, Function.update_apply]
        split
        · simp
        · split <;> simp
    rw [hTask]
    obtain hNull | hHere | hOld := hLink
    · exact Or.inl hNull
    · rw [hHere]
      exact Or.inr ht
    · rw [hOld]
      exact h.next u
  · intro u hu
    rw [hTask] at hu
    rw [enqueueTask_stateOf, Function.update_of_ne (by rintro rfl; exact hu ht)]
    exact h.unused u hu
  · rw [hKeeps.pid, h.idlePid]

theorem Closed.dequeue (h : s.Closed) (t : TaskPtr) : (s.dequeueTask t).Closed := by
  obtain ⟨hNext, -, hHead, -, -⟩ := dequeueTask_fields s t
  have hKeeps := keeps_dequeueTask s t
  have hTask : ∀ u, (s.dequeueTask t).IsTask u ↔ s.IsTask u :=
    fun u => isTask_congr hKeeps.taskPoolIndex
  constructor
  · rw [hKeeps.idle, h.idle]
  · rw [hTask, hKeeps.current]
    exact h.current
  · rw [hTask, hHead]
    split
    · exact h.head
    · exact h.next t
  · intro u
    have hLink : (s.dequeueTask t).next u = null ∨ (s.dequeueTask t).next u = s.next t ∨
        (s.dequeueTask t).next u = s.next u := by
      rw [hNext, Function.update_apply]
      split
      · simp
      · split
        · rw [Function.update_apply]
          split <;> simp
        · simp
    rw [hTask]
    obtain hNull | hHere | hOld := hLink
    · exact Or.inl hNull
    · rw [hHere]
      exact h.next t
    · rw [hOld]
      exact h.next u
  · intro u hu
    rw [hTask] at hu
    rw [dequeueTask_stateOf]
    exact h.unused u hu
  · rw [hKeeps.pid, h.idlePid]

theorem Closed.setCurrent (h : s.Closed) (ht : s.IsTask t) : { s with current := t }.Closed :=
  ⟨h.idle, ht, h.head, h.next, h.unused, h.idlePid⟩

theorem Closed.pickNextTask (h : s.Closed) : s.IsTask s.pickNextTask := by
  unfold System.pickNextTask
  split
  case isTrue hEmpty => exact h.isTask_idle
  case isFalse hSome => exact h.head.resolve_left hSome

theorem Closed.schedule (h : s.Closed) : s.schedule.Closed := by
  have hNext := h.pickNextTask
  unfold System.schedule
  dsimp only
  split
  case isTrue hStay => exact h
  case isFalse hSwitch =>
    split
    case isTrue hRequeue =>
      have hTaken := keeps_dequeueTask s s.current
      have hMoved := hTaken.trans (keeps_enqueueTask (s.dequeueTask s.current) s.current)
      apply Closed.setCurrent
      · exact (h.dequeue s.current).enqueue ((isTask_congr hTaken.taskPoolIndex).mpr h.current)
      · exact (isTask_congr hMoved.taskPoolIndex).mpr hNext
    case isFalse hGone => exact h.setCurrent hNext

theorem Closed.isTask_of_not_running (h : s.Closed) (hState : s.stateOf t ≠ .running) :
    s.IsTask t := by
  by_contra hFree
  exact hState (h.unused t hFree)

end Closed

section Switch

variable {s : System}

theorem schedule_cases (s : System) :
    (s.pickNextTask = s.current ∧ s.schedule = s) ∨
    (s.pickNextTask ≠ s.current ∧ (s.stateOf s.current = .running → s.current = s.idle) ∧
      s.schedule = { s with current := s.pickNextTask }) ∨
    (s.pickNextTask ≠ s.current ∧ s.stateOf s.current = .running ∧ s.current ≠ s.idle ∧
      s.schedule = { (s.dequeueTask s.current).enqueueTask s.current with
        current := s.pickNextTask }) := by
  unfold schedule
  dsimp only
  split
  case isTrue hStay => exact Or.inl ⟨hStay, rfl⟩
  case isFalse hSwitch =>
    split
    case isTrue hRequeue => exact Or.inr (Or.inr ⟨hSwitch, hRequeue.1, hRequeue.2, rfl⟩)
    case isFalse hGone =>
      refine Or.inr (Or.inl ⟨hSwitch, fun hRunning => ?_, rfl⟩)
      by_contra hNe
      exact hGone ⟨hRunning, hNe⟩

theorem schedule_current (s : System) : s.schedule.current = s.pickNextTask := by
  obtain ⟨hStay, hEq⟩ | ⟨-, -, hEq⟩ | ⟨-, -, -, hEq⟩ := schedule_cases s
  · rw [hEq, hStay]
  · rw [hEq]
  · rw [hEq]

theorem schedule_of_not_running (h : s.stateOf s.current ≠ .running) :
    s.schedule = { s with current := s.pickNextTask } := by
  obtain ⟨hStay, hEq⟩ | ⟨-, -, hEq⟩ | ⟨-, hState, -, -⟩ := schedule_cases s
  · rw [hEq, hStay]
  · exact hEq
  · exact absurd hState h

end Switch

/-! ### What a step does to the queue -/

/-- A pool entry was given out: it is zeroed, so it is in state `TASK_RUNNING`. -/
structure Fresh (s s' : System) : Prop where
  next : s'.next = Function.update s.next (poolTask s.taskPoolIndex) null
  prev : s'.prev = Function.update s.prev (poolTask s.taskPoolIndex) null
  stateOf : s'.stateOf = Function.update s.stateOf (poolTask s.taskPoolIndex) .running
  head : s'.head = s.head
  tail : s'.tail = s.tail
  nrRunning : s'.nrRunning = s.nrRunning
  current : s'.current = s.current
  idle : s'.idle = s.idle
  taskPoolIndex : s'.taskPoolIndex = s.taskPoolIndex + 1
  idlePid : (s'.tasks initTask).pid = (s.tasks initTask).pid
  signalsOf : s'.signalsOf = Function.update s.signalsOf (poolTask s.taskPoolIndex) none

/-- What a step does to the queue and the states, and the condition on which it does it in order. -/
inductive Effect (s : System) : System → Prop → Prop
  | same {s' : System} : s.SameQueue s' → Effect s s' True
  | created {s₁ s' : System} : s.Fresh s₁ →
      (s₁.enqueueTask (poolTask s.taskPoolIndex)).SameQueue s' → Effect s s' True
  | leaked {s' : System} : s.Fresh s' → Effect s s' False
  | scheduled : Effect s s.schedule True
  | woken {s₁ : System} {t : TaskPtr} : s.SameQueue s₁ → t ≠ null → s.stateOf t ≠ .running →
      Effect s ((s₁.setState t .running).enqueueTask t) (t ≠ s.idle)
  | slept {s₁ : System} {state : TaskState} : s.SameQueue s₁ → state ≠ .running →
      Effect s (s₁.setState s₁.current state).schedule (s.current = s.idle)
  | continued {s₁ : System} : s.SameQueue s₁ → Effect s (s₁.setState s₁.current .running) True
  | exited {s₁ s₂ : System} : s.SameQueue s₁ →
      ((s₁.setState s₁.current .zombie).dequeueTask s₁.current).SameQueue s₂ →
      Effect s s₂.schedule (s.current = s.idle → s.head = null)

section Effects

variable {s s' : System}

theorem SameQueue.trans {s'' : System} (h : s.SameQueue s') (h' : s'.SameQueue s'') :
    s.SameQueue s'' :=
  ⟨h'.next.trans h.next, h'.prev.trans h.prev, h'.stateOf.trans h.stateOf, h'.head.trans h.head,
    h'.tail.trans h.tail, h'.nrRunning.trans h.nrRunning, h'.current.trans h.current,
    h'.idle.trans h.idle, h'.taskPoolIndex.trans h.taskPoolIndex,
    fun t => (h'.pid t).trans (h.pid t)⟩

theorem initTask_ne_poolTask (i : Nat) : initTask ≠ poolTask i :=
  Nat.ne_of_lt (show 1 < i + 2 by omega)

theorem allocTask_cases (s : System) :
    (maxTasks ≤ s.taskPoolIndex ∧ s.allocTask = none) ∨
      (s.taskPoolIndex < maxTasks ∧ ∃ s₁, s.Fresh s₁ ∧
        s.allocTask = some (s₁, poolTask s.taskPoolIndex)) := by
  unfold allocTask
  split
  case isTrue hFull => exact Or.inl ⟨hFull, rfl⟩
  case isFalse hRoom =>
    refine Or.inr ⟨Nat.lt_of_not_le hRoom, _, ?_, rfl⟩
    refine ⟨setTask_next .., setTask_prev .., setTask_stateOf .., rfl, rfl, rfl, rfl, rfl, rfl, ?_,
      setTask_signalsOf ..⟩
    simp [setTask, Function.update_of_ne (initTask_ne_poolTask s.taskPoolIndex)]

theorem Fresh.fill (h : s.Fresh s') (nextPid pid tgid : Int) (flags : UInt32) (parent : TaskPtr) :
    s.Fresh ({ s' with nextPid := nextPid }.setTask (poolTask s.taskPoolIndex)
      { s'.tasks (poolTask s.taskPoolIndex) with
        state := .running, pid := pid, tgid := tgid, flags := flags, parent := parent }) := by
  have hNext : (s'.tasks (poolTask s.taskPoolIndex)).next = null :=
    (congrFun h.next _).trans (Function.update_self ..)
  have hPrev : (s'.tasks (poolTask s.taskPoolIndex)).prev = null :=
    (congrFun h.prev _).trans (Function.update_self ..)
  have hSignals : (s'.tasks (poolTask s.taskPoolIndex)).signals = none :=
    (congrFun h.signalsOf _).trans (Function.update_self ..)
  refine ⟨?_, ?_, ?_, h.head, h.tail, h.nrRunning, h.current, h.idle, h.taskPoolIndex, ?_, ?_⟩
  · rw [setTask_next]
    change Function.update s'.next _ (s'.tasks _).next = _
    rw [hNext, h.next, Function.update_idem]
  · rw [setTask_prev]
    change Function.update s'.prev _ (s'.tasks _).prev = _
    rw [hPrev, h.prev, Function.update_idem]
  · rw [setTask_stateOf]
    change Function.update s'.stateOf _ _ = _
    rw [h.stateOf, Function.update_idem]
  · simp [System.setTask, Function.update_of_ne (initTask_ne_poolTask s.taskPoolIndex), h.idlePid]
  · rw [setTask_signalsOf]
    change Function.update s'.signalsOf _ (s'.tasks _).signals = _
    rw [hSignals, h.signalsOf, Function.update_idem]

theorem createTask_cases (s : System) (flags : UInt32) (stack : Bool) :
    (maxTasks ≤ s.taskPoolIndex ∧ s.createTask flags stack = (s, null)) ∨
      (s.taskPoolIndex < maxTasks ∧ ∃ s₁, s.Fresh s₁ ∧ s.createTask flags stack =
        if stack then (s₁.enqueueTask (poolTask s.taskPoolIndex), poolTask s.taskPoolIndex)
        else (s₁, null)) := by
  unfold createTask
  obtain ⟨hFull, hNone⟩ | ⟨hRoom, s₁, hFresh, hSome⟩ := allocTask_cases s
  · rw [hNone]
    exact Or.inl ⟨hFull, rfl⟩
  · rw [hSome]
    cases stack with
    | false => exact Or.inr ⟨hRoom, s₁, hFresh, rfl⟩
    | true =>
      exact Or.inr ⟨hRoom, _, hFresh.fill (s₁.nextPid + 1) s₁.nextPid s₁.nextPid flags s₁.current, rfl⟩

theorem createTask_effect (s : System) (flags : UInt32) (stack : Bool) :
    ∃ P, Effect s (s.createTask flags stack).1 P ∧
      (P ↔ (s.taskPoolIndex < maxTasks → stack = true)) := by
  obtain ⟨hFull, hEq⟩ | ⟨hRoom, s₁, hFresh, hEq⟩ := createTask_cases s flags stack <;> rw [hEq]
  · exact ⟨_, .same (SameQueue.refl s),
      iff_of_true trivial (fun hRoom => absurd hFull (Nat.not_le.mpr hRoom))⟩
  · cases stack with
    | false => exact ⟨_, .leaked hFresh, iff_of_false id (fun hAll => by cases hAll hRoom)⟩
    | true => exact ⟨_, .created hFresh (SameQueue.refl _), iff_of_true trivial (fun _ => rfl)⟩

theorem createThread_cases (s : System) (given stack : Bool) (cloneFlags : UInt32) :
    (maxTasks ≤ s.taskPoolIndex ∧ (s.createThread given stack cloneFlags).1 = s) ∨
      (s.taskPoolIndex < maxTasks ∧ ∃ s₁, s.Fresh s₁ ∧ (s.createThread given stack cloneFlags).1 =
        if given || stack then s₁.enqueueTask (poolTask s.taskPoolIndex) else s₁) := by
  unfold createThread
  obtain ⟨hFull, hNone⟩ | ⟨hRoom, s₁, hFresh, hSome⟩ := allocTask_cases s
  · rw [hNone]
    exact Or.inl ⟨hFull, rfl⟩
  · rw [hSome]
    refine Or.inr ⟨hRoom, _, hFresh.fill (s₁.nextPid + 1) s₁.nextPid
      (if cloneFlags &&& cloneThread ≠ 0 then (s₁.tasks s₁.current).tgid else s₁.nextPid)
      pfThread s₁.current, ?_⟩
    cases given <;> cases stack <;> rfl

theorem createThread_effect (s : System) (given stack : Bool) (cloneFlags : UInt32) :
    ∃ P, Effect s (s.createThread given stack cloneFlags).1 P ∧
      (P ↔ (s.taskPoolIndex < maxTasks → given = true ∨ stack = true)) := by
  obtain ⟨hFull, hEq⟩ | ⟨hRoom, s₁, hFresh, hEq⟩ := createThread_cases s given stack cloneFlags <;>
    rw [hEq]
  · exact ⟨_, .same (SameQueue.refl s),
      iff_of_true trivial (fun hRoom => absurd hFull (Nat.not_le.mpr hRoom))⟩
  · split
    case isTrue hStack =>
      refine ⟨_, .created hFresh (SameQueue.refl _), iff_of_true trivial (fun _ => ?_)⟩
      exact (Bool.or_eq_true given stack).mp hStack
    case isFalse hNoStack =>
      refine ⟨_, .leaked hFresh, iff_of_false id (fun hAll => ?_)⟩
      exact hNoStack ((Bool.or_eq_true given stack).mpr (hAll hRoom))

theorem doFork_effect (s : System) (flags : UInt32) (stack mm : Bool) :
    ∃ P, Effect s (s.doFork flags stack mm).1 P ∧
      (P ↔ (s.taskPoolIndex < maxTasks → stack = true)) := by
  unfold doFork
  obtain ⟨hFull, hEq⟩ | ⟨hRoom, s₁, hFresh, hEq⟩ := createTask_cases s flags stack <;> rw [hEq]
  · exact ⟨_, .same (SameQueue.refl s),
      iff_of_true trivial (fun hRoom => absurd hFull (Nat.not_le.mpr hRoom))⟩
  · cases stack with
    | false => exact ⟨_, .leaked hFresh, iff_of_false id (fun hAll => by cases hAll hRoom)⟩
    | true =>
      have hQueued : (s₁.enqueueTask (poolTask s.taskPoolIndex)).stateOf (poolTask s.taskPoolIndex) =
          .running := by rw [enqueueTask_stateOf, Function.update_self]
      have hNull : poolTask s.taskPoolIndex ≠ null := Nat.succ_ne_zero _
      cases mm with
      | false =>
        simp only [if_true, if_neg hNull, Bool.not_false]
        exact ⟨_, .created hFresh (SameQueue.refl _), iff_of_true trivial (fun _ => trivial)⟩
      | true =>
        simp only [if_true, if_neg hNull, Bool.not_true, Bool.false_eq_true, if_false]
        exact ⟨_, .created hFresh (sameQueue_setTask rfl rfl hQueued.symm rfl),
          iff_of_true trivial (fun _ => trivial)⟩

theorem wakeUpProcess_effect {s₁ : System} (hSame : s.SameQueue s₁) (t : TaskPtr) (ht : t ≠ null) :
    ∃ P, Effect s (s₁.wakeUpProcess t) P ∧ (P ↔ (t = s.idle → s.stateOf t = .running)) := by
  unfold wakeUpProcess
  rw [if_neg ht, hSame.stateOf]
  split
  case isTrue hRunning => exact ⟨_, .same hSame, iff_of_true trivial (fun _ => hRunning)⟩
  case isFalse hSleeps =>
    refine ⟨_, .woken hSame ht hSleeps, ?_⟩
    exact ⟨fun hNe hEq => absurd hEq hNe, fun hIdle hEq => hSleeps (hIdle hEq)⟩

theorem sameQueue_pushFrame (s : System) (frame : Frame) : s.SameQueue (s.pushFrame frame) :=
  ⟨rfl, rfl, rfl, rfl, rfl, rfl, rfl, rfl, rfl, fun _ => rfl⟩

theorem sameQueue_setFrames (s : System) (frames : List Frame) : s.SameQueue (s.setFrames frames) :=
  ⟨rfl, rfl, rfl, rfl, rfl, rfl, rfl, rfl, rfl, fun _ => rfl⟩

theorem killTask_effect (s : System) (t : TaskPtr) (sig : Int) :
    ∃ P, Effect s (s.killTask t sig).1 P ∧ (P ↔ (t = s.idle → s.stateOf t = .interruptible →
      t = null ∨ (s.tasks t).signals = none ∨ sig < 0 ∨ (nsig : Int) ≤ sig)) := by
  unfold killTask
  split
  case isTrue hSig => exact ⟨_, .same (SameQueue.refl s), by simp [hSig]⟩
  case isFalse hSig =>
    split
    case isTrue hNull => exact ⟨_, .same (SameQueue.refl s), by simp [hNull]⟩
    case isFalse hTask =>
      split
      case h_1 hNone => exact ⟨_, .same (SameQueue.refl s), by simp [hNone]⟩
      case h_2 signals hSignals =>
        have hSame : s.SameQueue (s.setTask t { s.tasks t with
            signals := some { signals with pending := signals.pending ||| sigBit sig.toNat } }) :=
          sameQueue_setTask rfl rfl rfl rfl
        dsimp only
        rw [hSame.stateOf]
        split
        case isTrue hSleeps =>
          obtain ⟨P, hEffect, hP⟩ := wakeUpProcess_effect hSame t hTask
          refine ⟨P, hEffect, hP.trans ?_⟩
          simp only [hSleeps, hTask, hSignals, true_imp_iff, reduceCtorEq, false_or]
          exact ⟨fun hNot hIdle => absurd (hNot hIdle) (by simp), fun hNot hIdle => absurd (hNot hIdle) hSig⟩
        case isFalse hAwake => exact ⟨_, .same hSame, by simp [hAwake]⟩

theorem getTaskByPid_eq_initTask (hIdle : (s.tasks initTask).pid = 0) {pid : Int}
    (h : s.getTaskByPid pid = initTask) : (s.tasks (s.getTaskByPid pid)).pid = 0 := by
  rw [h, hIdle]

theorem schedKillTask_effect (h : s.Closed) (pid : Int) :
    ∃ P, Effect s (s.schedKillTask pid).1 P ∧ (P ↔ True) := by
  unfold schedKillTask
  dsimp only
  split
  case isTrue hNone => exact ⟨_, .same (SameQueue.refl s), Iff.rfl⟩
  case isFalse hSome =>
    split
    case isTrue hIdle => exact ⟨_, .same (SameQueue.refl s), Iff.rfl⟩
    case isFalse hUser =>
      have hSame : s.SameQueue (s.setTask (s.getTaskByPid pid) { s.tasks (s.getTaskByPid pid) with
          flags := (s.tasks (s.getTaskByPid pid)).flags ||| pfExiting
          pendingSignals := (s.tasks (s.getTaskByPid pid)).pendingSignals ||| sigBit sigkill }) :=
        sameQueue_setTask rfl rfl rfl rfl
      rw [hSame.stateOf]
      split
      case isTrue hSleeps =>
        refine ⟨_, .woken hSame hSome ?_, ?_⟩
        · rcases hSleeps with hState | hState <;> simp [hState]
        · rw [iff_true, h.idle]
          intro hInit
          exact hUser (Or.inl (getTaskByPid_eq_initTask h.idlePid hInit))
      case isFalse hAwake => exact ⟨_, .same hSame, Iff.rfl⟩

theorem exitTask_effect {s₁ : System} (hSame : s.SameQueue s₁) (code : Int) :
    Effect s (s₁.exitTask code) (s.current = s.idle → s.head = null) := by
  have hFields : s₁.SameQueue (s₁.setTask s₁.current { s₁.tasks s₁.current with
      exitCode := code, flags := (s₁.tasks s₁.current).flags ||| pfExiting }) :=
    sameQueue_setTask rfl rfl rfl rfl
  have hEffect := Effect.exited (hSame.trans hFields) (sameQueue_pushFrame _ .halted)
  simpa only [exitTask, setState, setTask, Function.update_self, Function.update_idem] using hEffect

/-- What the next round of the current task's `do_signal` loop does. -/
def nextAction (s : System) : Option Disposition :=
  match s.frames s.current with
  | .signals t pending sig :: _ =>
    if sig ≥ nsig ∨ pending &&& sigBit sig = 0 then none
    else (s.tasks t).signals.map (·.disposition sig)
  | _ => none

theorem signalRound_cases (s : System) :
    (s.nextAction = none ∧ s.SameQueue s.signalRound) ∨
      ∃ disposition sig s₁, s.nextAction = some disposition ∧ s.SameQueue s₁ ∧
        s.signalRound = s₁.act sig disposition := by
  unfold signalRound nextAction
  cases hFrames : s.frames s.current with
  | nil => exact Or.inl ⟨rfl, SameQueue.refl s⟩
  | cons frame frames =>
    cases frame with
    | halted => exact Or.inl ⟨rfl, SameQueue.refl s⟩
    | signals t pending sig =>
      have hFramed := sameQueue_setFrames s (.signals t pending (sig + 1) :: frames)
      have hTasks : (s.setFrames (.signals t pending (sig + 1) :: frames)).tasks = s.tasks := rfl
      simp only [hTasks]
      cases Nat.lt_or_ge sig nsig with
      | inr hEnd =>
        simp only [hEnd, true_or, if_true]
        exact Or.inl ⟨trivial, sameQueue_setFrames s frames⟩
      | inl hMore =>
        rcases Decidable.em (pending &&& sigBit sig = 0) with hClear | hSet
        · simp only [hClear, Nat.not_le.mpr hMore, or_true, if_true, if_false]
          exact Or.inl ⟨trivial, hFramed⟩
        · simp only [hSet, Nat.not_le.mpr hMore, or_false, if_false]
          cases hSignals : (s.tasks t).signals with
          | none => exact Or.inl ⟨rfl, hFramed⟩
          | some signals =>
            refine Or.inr ⟨signals.disposition sig, sig, _, rfl, ?_, rfl⟩
            exact hFramed.trans (sameQueue_setTask rfl rfl rfl rfl)

theorem Fresh.isTask_iff (h : s.Fresh s') :
    s'.IsTask t ↔ s.IsTask t ∨ t = poolTask s.taskPoolIndex := by
  have hIndex := h.taskPoolIndex
  change @Ne Nat t 0 ∧ @LT.lt Nat _ t (s'.taskPoolIndex + 2) ↔
    (@Ne Nat t 0 ∧ @LT.lt Nat _ t (s.taskPoolIndex + 2)) ∨ @Eq Nat t (s.taskPoolIndex + 2)
  omega

theorem not_isTask_poolTask (s : System) : ¬ s.IsTask (poolTask s.taskPoolIndex) :=
  fun hTask => Nat.lt_irrefl _ hTask.2

theorem Fresh.closed (hFresh : s.Fresh s') (h : s.Closed) : s'.Closed := by
  constructor
  · rw [hFresh.idle, h.idle]
  · rw [hFresh.isTask_iff, hFresh.current]
    exact Or.inl h.current
  · rw [hFresh.isTask_iff, hFresh.head]
    exact h.head.imp_right Or.inl
  · intro t
    rw [hFresh.isTask_iff, hFresh.next, Function.update_apply]
    split
    · exact Or.inl rfl
    · exact (h.next t).imp_right Or.inl
  · intro t ht
    rw [hFresh.isTask_iff, not_or] at ht
    rw [hFresh.stateOf, Function.update_of_ne ht.2]
    exact h.unused t ht.1
  · rw [hFresh.idlePid, h.idlePid]

theorem Effect.closed {P : Prop} (hEffect : Effect s s' P) (h : s.Closed) : s'.Closed := by
  cases hEffect with
  | same hSame => exact hSame.closed h
  | created hFresh hSame =>
    exact hSame.closed ((hFresh.closed h).enqueue (hFresh.isTask_iff.mpr (Or.inr rfl)))
  | leaked hFresh => exact hFresh.closed h
  | scheduled => exact h.schedule
  | woken hSame ht hState =>
    have hClosed := hSame.closed h
    rw [← hSame.stateOf] at hState
    have hTask := hClosed.isTask_of_not_running hState
    exact (hClosed.setState hTask .running).enqueue hTask
  | slept hSame hState =>
    have hClosed := hSame.closed h
    exact (hClosed.setState hClosed.current _).schedule
  | continued hSame =>
    have hClosed := hSame.closed h
    exact hClosed.setState hClosed.current .running
  | exited hSame hSame' =>
    have hClosed := hSame.closed h
    exact (hSame'.closed ((hClosed.setState hClosed.current .zombie).dequeue _)).schedule

end Effects

end System

/-- The step does not break the queue: a new task gets its stack, the idle task is not woken up,
only the idle task waits or stops, and it does not exit while there is another task. -/
def Step.Orderly (s : System) : Step → Prop
  | .createTask _ stack => s.taskPoolIndex < maxTasks → stack = true
  | .createThread given stack _ => s.taskPoolIndex < maxTasks → given = true ∨ stack = true
  | .doFork _ stack _ => s.taskPoolIndex < maxTasks → stack = true
  | .wakeUpProcess t => t = s.idle → s.stateOf t = .running
  | .killTask t sig => t = s.idle → s.stateOf t = .interruptible →
      t = null ∨ (s.tasks t).signals = none ∨ sig < 0 ∨ (nsig : Int) ≤ sig
  | .signalRound =>
    (s.nextAction = some .stop → s.current = s.idle) ∧
      (s.nextAction = some .term → s.current = s.idle → s.head = null)
  | .doWaitpid => s.current = s.idle
  | .exitTask _ => s.current = s.idle → s.head = null
  | _ => True

namespace System

variable {s : System}

theorem signalRound_effect (s : System) :
    ∃ P, Effect s s.signalRound P ∧ (P ↔ Step.Orderly s .signalRound) := by
  obtain ⟨hNone, hSame⟩ | ⟨disposition, sig, s₁, hAction, hSame, hEq⟩ := signalRound_cases s
  · exact ⟨_, .same hSame, by simp [Step.Orderly, hNone]⟩
  · rw [hEq, Step.Orderly, hAction]
    cases disposition with
    | ignore => exact ⟨_, .same hSame, by simp⟩
    | user => exact ⟨_, .same hSame, by simp⟩
    | term => exact ⟨_, exitTask_effect hSame sig, by simp⟩
    | stop => exact ⟨_, .slept hSame (by simp), by simp⟩
    | cont => exact ⟨_, .continued hSame, by simp⟩

theorem step_effect (h : s.Closed) (step : Step) :
    ∃ P, Effect s (step.next s) P ∧ (P ↔ step.Orderly s) := by
  cases step with
  | createTask flags stack => exact createTask_effect s flags stack
  | createThread given stack cloneFlags => exact createThread_effect s given stack cloneFlags
  | doFork flags stack mm => exact doFork_effect s flags stack mm
  | schedule => exact ⟨_, .scheduled, Iff.rfl⟩
  | wakeUpProcess t =>
    cases t with
    | zero =>
      refine ⟨_, .same (SameQueue.refl s), iff_of_true trivial (fun hIdle => ?_)⟩
      rw [h.idle] at hIdle
      cases hIdle
    | succ t => exact wakeUpProcess_effect (SameQueue.refl s) (t + 1) (Nat.succ_ne_zero t)
  | killTask t sig => exact killTask_effect s t sig
  | doSignal t =>
    refine ⟨True, .same ?_, Iff.rfl⟩
    simp only [Step.next, doSignal]
    split
    · exact SameQueue.refl s
    · split
      · exact SameQueue.refl s
      · split
        · exact SameQueue.refl s
        · exact sameQueue_pushFrame s _
  | signalRound => exact signalRound_effect s
  | doWaitpid => exact ⟨_, .slept (SameQueue.refl s) (by simp), Iff.rfl⟩
  | schedKillTask pid => exact schedKillTask_effect h pid
  | exitTask code => exact ⟨_, exitTask_effect (SameQueue.refl s) code, Iff.rfl⟩
  | signalInit t =>
    refine ⟨True, .same ?_, Iff.rfl⟩
    simp only [Step.next, signalInit]
    split
    · exact sameQueue_setTask rfl rfl rfl rfl
    · split
      · have hPool : s.SameQueue { s with sigPoolIdx := s.sigPoolIdx + 1 } :=
          ⟨rfl, rfl, rfl, rfl, rfl, rfl, rfl, rfl, rfl, fun _ => rfl⟩
        exact hPool.trans (sameQueue_setTask rfl rfl rfl rfl)
      · exact SameQueue.refl s
  | sigprocmask how set =>
    refine ⟨True, .same ?_, Iff.rfl⟩
    simp only [Step.next, sigprocmask]
    split
    · exact SameQueue.refl s
    · split
      · exact sameQueue_setTask rfl rfl rfl rfl
      · split
        · exact sameQueue_setTask rfl rfl rfl rfl
        · split
          · exact sameQueue_setTask rfl rfl rfl rfl
          · split
            · exact sameQueue_setTask rfl rfl rfl rfl
            · exact SameQueue.refl s
  | sigactionSyscall sig act =>
    refine ⟨True, .same ?_, Iff.rfl⟩
    simp only [Step.next, sigactionSyscall]
    split
    · exact SameQueue.refl s
    · split
      · exact SameQueue.refl s
      · split
        · exact SameQueue.refl s
        · split
          · exact SameQueue.refl s
          · exact sameQueue_setTask rfl rfl rfl rfl

theorem closed_schedInit : schedInit.Closed := by
  refine ⟨rfl, by decide, Or.inl rfl, ?_, ?_, rfl⟩
  · intro t
    left
    simp only [System.next, schedInit, Function.update_apply]
    split <;> rfl
  · intro t _
    simp only [System.stateOf, schedInit, Function.update_apply]
    split <;> rfl

theorem closed_after {s : System} (h : s.Closed) (steps : List Step) : (s.after steps).Closed := by
  induction steps generalizing s with
  | nil => exact h
  | cons step steps ih =>
    obtain ⟨P, hEffect, -⟩ := step_effect h step
    exact ih (hEffect.closed h)

end System

end UnixOS.Sched
