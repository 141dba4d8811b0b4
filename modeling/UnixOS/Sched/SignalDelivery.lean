import UnixOS.Sched.Effects

/-! # Killing, stopping and continuing a task

`SIGKILL` and `SIGSTOP` can be neither blocked nor caught, in any run. But `kill_task` wakes only a
task in `TASK_INTERRUPTIBLE`, `sched_kill_task` records the signal in a field that `do_signal` never
reads, the default actions are taken on the task that calls `do_signal` and not on the one it is
about, and nobody puts a stopped task back in the queue.
-/

namespace UnixOS.Sched

theorem getLsbD_sigBit {sig : Nat} (h : sig < 64) (k : Nat) :
    (sigBit sig).getLsbD k = decide (sig = k) := by
  change (BitVec.twoPow 64 sig).getLsbD k = _
  rw [BitVec.getLsbD_twoPow]
  simp [h]

theorem and_sigBit_eq_zero {set : SigSet} {sig : Nat} (h : sig < 64) :
    set &&& sigBit sig = 0 ↔ set.getLsbD sig = false := by
  change set &&& BitVec.twoPow 64 sig = 0 ↔ _
  rw [BitVec.and_twoPow]
  split
  case isTrue hSet =>
    refine iff_of_false (fun hZero => ?_) (by simp [hSet])
    have hBit := congrArg (BitVec.getLsbD · sig) hZero
    simp [h] at hBit
  case isFalse hClear => simpa using hClear

/-! ### What a step does to the signals of a task -/

structure SignalStruct.Unmasked (signals : SignalStruct) : Prop where
  killOpen : signals.blocked.getLsbD sigkill = false
  stopOpen : signals.blocked.getLsbD sigstop = false
  killDefault : (signals.actions sigkill).handler = .dfl
  stopDefault : (signals.actions sigstop).handler = .dfl

inductive SignalChange : Option SignalStruct → Option SignalStruct → Prop
  | same (signals : Option SignalStruct) : SignalChange signals signals
  | sent (signals : SignalStruct) (sig : Nat) : SignalChange (some signals)
      (some { signals with pending := signals.pending ||| sigBit sig })
  | masked (signals : SignalStruct) (set : SigSet) : SignalChange (some signals)
      (some { signals with blocked := set &&& ~~~(sigBit sigkill ||| sigBit sigstop) })
  | handled (signals : SignalStruct) (sig : Nat) (act : SigAction) : sig ≠ sigkill →
      sig ≠ sigstop → SignalChange (some signals)
        (some { signals with actions := Function.update signals.actions sig act })

inductive SignalReset : Option SignalStruct → Option SignalStruct → Prop
  | zeroed (signals : Option SignalStruct) : SignalReset signals none
  | fresh (signals : Option SignalStruct) : SignalReset signals
      (some { pending := 0, blocked := 0, actions := fun _ => defaultAction })
  | taken (signals : SignalStruct) (sig : Nat) : SignalReset (some signals)
      (some { signals with pending := signals.pending &&& ~~~sigBit sig })

theorem SignalChange.unmasked {old new : Option SignalStruct} (h : SignalChange old new)
    (hOld : ∀ signals, old = some signals → signals.Unmasked) :
    ∀ signals, new = some signals → signals.Unmasked := by
  cases h with
  | same => exact hOld
  | sent signals sig =>
    rintro _ ⟨rfl⟩
    exact ⟨(hOld signals rfl).1, (hOld signals rfl).2, (hOld signals rfl).3, (hOld signals rfl).4⟩
  | masked signals set =>
    rintro _ ⟨rfl⟩
    refine ⟨?_, ?_, (hOld signals rfl).3, (hOld signals rfl).4⟩
    · simp [getLsbD_sigBit (show sigkill < 64 by decide), getLsbD_sigBit (show sigstop < 64 by decide)]
    · simp [getLsbD_sigBit (show sigkill < 64 by decide), getLsbD_sigBit (show sigstop < 64 by decide)]
  | handled signals sig act hKill hStop =>
    rintro _ ⟨rfl⟩
    refine ⟨(hOld signals rfl).1, (hOld signals rfl).2, ?_, ?_⟩
    · simp only [Function.update_of_ne hKill.symm, (hOld signals rfl).3]
    · simp only [Function.update_of_ne hStop.symm, (hOld signals rfl).4]

theorem SignalChange.pending {signals : SignalStruct} {new : Option SignalStruct}
    (h : SignalChange (some signals) new) : ∃ signals', new = some signals' ∧
      ∀ sig, signals.pending.getLsbD sig = true → signals'.pending.getLsbD sig = true := by
  cases h with
  | same => exact ⟨signals, rfl, fun _ hBit => hBit⟩
  | sent _ other => exact ⟨_, rfl, fun sig hBit => by simp [hBit]⟩
  | masked _ set => exact ⟨_, rfl, fun _ hBit => hBit⟩
  | handled _ other act hKill hStop => exact ⟨_, rfl, fun _ hBit => hBit⟩

theorem SignalReset.unmasked {old new : Option SignalStruct} (h : SignalReset old new)
    (hOld : ∀ signals, old = some signals → signals.Unmasked) :
    ∀ signals, new = some signals → signals.Unmasked := by
  cases h with
  | zeroed => simp
  | fresh =>
    rintro _ ⟨rfl⟩
    exact ⟨rfl, rfl, rfl, rfl⟩
  | taken signals sig =>
    rintro _ ⟨rfl⟩
    exact ⟨(hOld signals rfl).1, (hOld signals rfl).2, (hOld signals rfl).3, (hOld signals rfl).4⟩

def Step.Spares (s : System) (t : TaskPtr) : Step → Prop
  | .signalInit u => u ≠ t
  | .doSignal u => u ≠ t
  | .signalRound => ∀ pending sig frames, s.frames s.current ≠ .signals t pending sig :: frames
  | _ => True

namespace System

section Signals

variable (s : System) (t u : TaskPtr)

theorem signalsOf_setTask {task : Task} (h : task.signals = (s.tasks t).signals) :
    (s.setTask t task).signalsOf = s.signalsOf := by
  rw [setTask_signalsOf, h]
  exact Function.update_eq_self t s.signalsOf

theorem setState_signalsOf (state : TaskState) : (s.setState t state).signalsOf = s.signalsOf :=
  signalsOf_setTask s t rfl

theorem schedule_signalsOf : s.schedule.signalsOf = s.signalsOf := by
  obtain ⟨-, hEq⟩ | ⟨-, -, hEq⟩ | ⟨-, -, -, hEq⟩ := schedule_cases s
  · rw [hEq]
  · rw [hEq]
    rfl
  · have hKeeps := (keeps_dequeueTask s s.current).trans (keeps_enqueueTask _ s.current)
    rw [hEq]
    exact funext hKeeps.signals

theorem wakeUpProcess_signalsOf : (s.wakeUpProcess t).signalsOf = s.signalsOf := by
  unfold wakeUpProcess
  split
  · rfl
  · split
    · rfl
    · exact funext ((keeps_setState s t .running).trans (keeps_enqueueTask _ t)).signals

theorem pushFrame_signalsOf (frame : Frame) : (s.pushFrame frame).signalsOf = s.signalsOf := rfl

theorem exit_signalsOf {task : Task} (h : task.signals = (s.tasks s.current).signals) :
    (((s.setTask s.current task).dequeueTask s.current).pushFrame .halted).schedule.signalsOf =
      s.signalsOf := by
  have hTaken : ((s.setTask s.current task).dequeueTask s.current).signalsOf = s.signalsOf :=
    (funext (keeps_dequeueTask _ _).signals).trans (signalsOf_setTask s s.current h)
  rw [schedule_signalsOf, pushFrame_signalsOf, hTaken]

theorem exitTask_signalsOf (code : Int) : (s.exitTask code).signalsOf = s.signalsOf :=
  exit_signalsOf s rfl

theorem act_signalsOf (sig : Nat) (disposition : Disposition) :
    (s.act sig disposition).signalsOf = s.signalsOf := by
  cases disposition with
  | ignore => rfl
  | user => rfl
  | term => exact exitTask_signalsOf s sig
  | stop => exact (schedule_signalsOf _).trans (setState_signalsOf s s.current .stopped)
  | cont => exact setState_signalsOf s s.current .running

theorem schedKillTask_signalsOf (pid : Int) : (s.schedKillTask pid).1.signalsOf = s.signalsOf := by
  unfold schedKillTask
  dsimp only
  split
  · rfl
  · split
    · rfl
    · split
      · refine Eq.trans (funext ((keeps_setState _ _ .running).trans (keeps_enqueueTask _ _)).signals) ?_
        exact signalsOf_setTask s _ rfl
      · exact signalsOf_setTask s _ rfl

theorem createTask_signalsOf (flags : UInt32) (stack : Bool) :
    (s.createTask flags stack).1.signalsOf = s.signalsOf ∨
      (s.createTask flags stack).1.signalsOf =
        Function.update s.signalsOf (poolTask s.taskPoolIndex) none := by
  obtain ⟨-, hEq⟩ | ⟨-, s₁, hFresh, hEq⟩ := createTask_cases s flags stack <;> rw [hEq]
  · exact Or.inl rfl
  · right
    split
    · exact (funext (keeps_enqueueTask _ _).signals).trans hFresh.signalsOf
    · exact hFresh.signalsOf

theorem createThread_signalsOf (given stack : Bool) (cloneFlags : UInt32) :
    (s.createThread given stack cloneFlags).1.signalsOf = s.signalsOf ∨
      (s.createThread given stack cloneFlags).1.signalsOf =
        Function.update s.signalsOf (poolTask s.taskPoolIndex) none := by
  obtain ⟨-, hEq⟩ | ⟨-, s₁, hFresh, hEq⟩ := createThread_cases s given stack cloneFlags <;> rw [hEq]
  · exact Or.inl rfl
  · right
    split
    · exact (funext (keeps_enqueueTask _ _).signals).trans hFresh.signalsOf
    · exact hFresh.signalsOf

theorem doFork_signalsOf (flags : UInt32) (stack mm : Bool) :
    (s.doFork flags stack mm).1.signalsOf = (s.createTask flags stack).1.signalsOf := by
  unfold doFork
  dsimp only
  split
  · rfl
  · split
    · rfl
    · exact signalsOf_setTask _ _ rfl

def SignalStep (s : System) (step : Step) (t : TaskPtr) (new : Option SignalStruct) : Prop :=
  SignalChange (s.signalsOf t) new ∨
    (SignalReset (s.signalsOf t) new ∧ (s.IsTask t → ¬ step.Spares s t))

variable {s t u}

theorem signalStep_same (step : Step) {new : Option SignalStruct} (h : new = s.signalsOf t) :
    s.SignalStep step t new := by
  rw [h]
  exact Or.inl (.same _)

theorem signalStep_create (step : Step) {s' : System} (h : s'.signalsOf = s.signalsOf ∨
    s'.signalsOf = Function.update s.signalsOf (poolTask s.taskPoolIndex) none) (t : TaskPtr) :
    s.SignalStep step t (s'.signalsOf t) := by
  obtain hSame | hFresh := h
  · exact signalStep_same step (congrFun hSame t)
  · rw [hFresh, Function.update_apply]
    split
    case isTrue hHere =>
      refine Or.inr ⟨.zeroed _, fun hTask => ?_⟩
      rw [hHere] at hTask
      exact absurd hTask (not_isTask_poolTask s)
    case isFalse hElse => exact signalStep_same step rfl

theorem signalStep_update (step : Step) {signals : Option SignalStruct}
    (h : s.SignalStep step u signals) (t : TaskPtr) :
    s.SignalStep step t (Function.update s.signalsOf u signals t) := by
  rw [Function.update_apply]
  split
  case isTrue hHere =>
    rw [hHere]
    exact h
  case isFalse hElse => exact signalStep_same step rfl

theorem signalStep_killTask (t u : TaskPtr) (sig : Int) :
    s.SignalStep (.killTask u sig) t ((s.killTask u sig).1.signalsOf t) := by
  unfold killTask
  split
  · exact signalStep_same _ rfl
  · split
    · exact signalStep_same _ rfl
    · split
      case h_1 hNone => exact signalStep_same _ rfl
      case h_2 signals hSome =>
        have hSignals : s.signalsOf u = some signals := hSome
        have hSent : s.SignalStep (.killTask u sig) u
            (some { signals with pending := signals.pending ||| sigBit sig.toNat }) := by
          rw [SignalStep, hSignals]
          exact Or.inl (.sent signals sig.toNat)
        dsimp only
        split
        · rw [wakeUpProcess_signalsOf, setTask_signalsOf]
          exact signalStep_update _ hSent t
        · rw [setTask_signalsOf]
          exact signalStep_update _ hSent t

theorem signalStep_signalInit (t u : TaskPtr) :
    s.SignalStep (.signalInit u) t ((s.signalInit u).signalsOf t) := by
  have hFresh : s.SignalStep (.signalInit u) u
      (some { pending := 0, blocked := 0, actions := fun _ => defaultAction }) :=
    Or.inr ⟨.fresh _, fun _ hSpares => hSpares rfl⟩
  unfold signalInit
  dsimp only
  split
  · rw [setTask_signalsOf]
    exact signalStep_update _ hFresh t
  · split
    · rw [setTask_signalsOf]
      exact signalStep_update _ hFresh t
    · exact signalStep_same _ rfl

theorem signalStep_sigprocmask (t : TaskPtr) (how : Int) (set : Option SigSet) :
    s.SignalStep (.sigprocmask how set) t ((s.sigprocmask how set).1.signalsOf t) := by
  unfold sigprocmask
  split
  case h_1 hNone => exact signalStep_same _ rfl
  case h_2 signals hSome =>
    have hSignals : s.signalsOf s.current = some signals := hSome
    have hMasked : ∀ blocked, s.SignalStep (.sigprocmask how set) t
        ((s.setTask s.current { s.tasks s.current with signals := some { signals with
          blocked := blocked &&& ~~~(sigBit sigkill ||| sigBit sigstop) } }).signalsOf t) := by
      intro blocked
      rw [setTask_signalsOf]
      refine signalStep_update _ ?_ t
      rw [SignalStep, hSignals]
      exact Or.inl (.masked signals blocked)
    dsimp only
    split
    · exact hMasked _
    · split
      · exact hMasked _
      · split
        · exact hMasked _
        · split
          · exact hMasked _
          · exact signalStep_same _ rfl

theorem signalStep_sigaction (t : TaskPtr) (sig : Int) (act : Option SigAction) :
    s.SignalStep (.sigactionSyscall sig act) t ((s.sigactionSyscall sig act).1.signalsOf t) := by
  unfold sigactionSyscall
  split
  · exact signalStep_same _ rfl
  case isFalse hRange =>
    split
    · exact signalStep_same _ rfl
    case isFalse hCatch =>
      split
      case h_1 hNone => exact signalStep_same _ rfl
      case h_2 signals hSome =>
        have hSignals : s.signalsOf s.current = some signals := hSome
        split
        · exact signalStep_same _ rfl
        · rw [setTask_signalsOf]
          refine signalStep_update _ ?_ t
          rw [SignalStep, hSignals]
          refine Or.inl (.handled signals sig.toNat _ ?_ ?_)
          · omega
          · omega

theorem signalStep_signalRound (t : TaskPtr) :
    s.SignalStep .signalRound t (s.signalRound.signalsOf t) := by
  unfold signalRound
  split
  case h_1 u pending sig frames hFrames =>
    split
    · exact signalStep_same _ rfl
    · dsimp only
      split
      · exact signalStep_same _ rfl
      · split
        case h_1 hNone => exact signalStep_same _ rfl
        case h_2 signals hSome =>
          have hSignals : s.signalsOf u = some signals := hSome
          rw [act_signalsOf, setTask_signalsOf]
          refine signalStep_update _ ?_ t
          rw [SignalStep, hSignals]
          exact Or.inr ⟨.taken signals sig, fun _ hSpares => hSpares pending sig frames hFrames⟩
  case h_2 hOther => exact signalStep_same _ rfl

theorem step_signals (s : System) (step : Step) (t : TaskPtr) :
    s.SignalStep step t ((step.next s).signalsOf t) := by
  cases step with
  | createTask flags stack => exact signalStep_create _ (createTask_signalsOf s flags stack) t
  | createThread given stack cloneFlags =>
    exact signalStep_create _ (createThread_signalsOf s given stack cloneFlags) t
  | doFork flags stack mm =>
    refine signalStep_create _ ?_ t
    rw [Step.next, doFork_signalsOf]
    exact createTask_signalsOf s flags stack
  | schedule => exact signalStep_same _ (congrFun (schedule_signalsOf s) t)
  | wakeUpProcess u => exact signalStep_same _ (congrFun (wakeUpProcess_signalsOf s u) t)
  | killTask u sig => exact signalStep_killTask t u sig
  | doSignal u =>
    refine signalStep_same _ ?_
    simp only [Step.next, doSignal]
    split
    · rfl
    · split
      · rfl
      · split <;> rfl
  | signalRound => exact signalStep_signalRound t
  | doWaitpid =>
    exact signalStep_same _
      (congrFun ((schedule_signalsOf _).trans (setState_signalsOf s s.current .interruptible)) t)
  | schedKillTask pid => exact signalStep_same _ (congrFun (schedKillTask_signalsOf s pid) t)
  | exitTask code => exact signalStep_same _ (congrFun (exitTask_signalsOf s code) t)
  | signalInit u => exact signalStep_signalInit t u
  | sigprocmask how set => exact signalStep_sigprocmask t how set
  | sigactionSyscall sig act => exact signalStep_sigaction t sig act

theorem unmasked_after {s : System} (h : ∀ t signals, s.signalsOf t = some signals → signals.Unmasked)
    (steps : List Step) :
    ∀ t signals, (s.after steps).signalsOf t = some signals → signals.Unmasked := by
  induction steps generalizing s with
  | nil => exact h
  | cons step steps ih =>
    refine ih fun t => ?_
    obtain hChange | ⟨hReset, -⟩ := step_signals s step t
    · exact hChange.unmasked (h t)
    · exact hReset.unmasked (h t)

theorem unmasked_schedInit (t : TaskPtr) (signals : SignalStruct)
    (h : schedInit.signalsOf t = some signals) : signals.Unmasked := by
  have hNone : schedInit.signalsOf t = none := by
    simp only [signalsOf, schedInit, Function.update_apply]
    split <;> rfl
  rw [hNone] at h
  cases h

theorem schedule_taskPoolIndex (s : System) : s.schedule.taskPoolIndex = s.taskPoolIndex := by
  obtain ⟨-, hEq⟩ | ⟨-, -, hEq⟩ | ⟨-, -, -, hEq⟩ := schedule_cases s
  · rw [hEq]
  · rw [hEq]
  · rw [hEq]
    exact ((keeps_dequeueTask s s.current).trans (keeps_enqueueTask _ s.current)).taskPoolIndex

theorem Effect.isTask {s' : System} {P : Prop} (hEffect : Effect s s' P) (h : s.IsTask t) :
    s'.IsTask t := by
  cases hEffect with
  | same hSame => exact (isTask_congr hSame.taskPoolIndex).mpr h
  | created hFresh hSame =>
    rw [isTask_congr hSame.taskPoolIndex, isTask_congr (keeps_enqueueTask _ _).taskPoolIndex]
    exact hFresh.isTask_iff.mpr (Or.inl h)
  | leaked hFresh => exact hFresh.isTask_iff.mpr (Or.inl h)
  | scheduled => exact (isTask_congr (schedule_taskPoolIndex s)).mpr h
  | woken hSame ht hState =>
    rw [isTask_congr (keeps_enqueueTask _ _).taskPoolIndex]
    exact (isTask_congr hSame.taskPoolIndex).mpr h
  | slept hSame hState =>
    rw [isTask_congr (schedule_taskPoolIndex _)]
    exact (isTask_congr hSame.taskPoolIndex).mpr h
  | continued hSame => exact (isTask_congr hSame.taskPoolIndex).mpr h
  | exited hSame hSame' =>
    rw [isTask_congr (schedule_taskPoolIndex _), isTask_congr hSame'.taskPoolIndex,
      isTask_congr (keeps_dequeueTask _ _).taskPoolIndex]
    exact (isTask_congr hSame.taskPoolIndex).mpr h

/-- No step of the run sets up the signals of the task or takes one of them. -/
def SparesRun (s : System) (t : TaskPtr) : List Step → Prop
  | [] => True
  | step :: steps => step.Spares s t ∧ (step.next s).SparesRun t steps

theorem pending_after {signals : SignalStruct} (hSome : s.signalsOf t = some signals)
    (hClosed : s.Closed) (hTask : s.IsTask t) {steps : List Step} (hSpares : s.SparesRun t steps) :
    ∃ signals', (s.after steps).signalsOf t = some signals' ∧
      ∀ sig, signals.pending.getLsbD sig = true → signals'.pending.getLsbD sig = true := by
  induction steps generalizing s signals with
  | nil => exact ⟨signals, hSome, fun _ hBit => hBit⟩
  | cons step steps ih =>
    obtain ⟨P, hEffect, -⟩ := step_effect hClosed step
    obtain hChange | ⟨-, hTaken⟩ := step_signals s step t
    · rw [hSome] at hChange
      obtain ⟨signals₁, hNew, hKept⟩ := hChange.pending
      obtain ⟨signals', hSome', hKept'⟩ :=
        ih hNew (hEffect.closed hClosed) (hEffect.isTask hTask) hSpares.2
      exact ⟨signals', hSome', fun sig hBit => hKept' sig (hKept sig hBit)⟩
    · exact absurd hSpares.1 (hTaken hTask)

end Signals

/-! ### The loop of `do_signal` -/

def InLoop (caller : TaskPtr) (base : List Frame) (s : System) : Prop :=
  s.current = caller ∧ base.length < (s.frames caller).length

inductive Ends (caller t : TaskPtr) (base : List Frame) : System → Prop
  | done {s : System} : s.stateOf t = .zombie → Ends caller t base s
  | round {s : System} : InLoop caller base s → Ends caller t base s.signalRound →
      Ends caller t base s

/-- A call of `do_signal` on the task by whoever is current ends the task. -/
def Terminates (s : System) (t : TaskPtr) : Prop :=
  Ends s.current t (s.frames s.current) (s.doSignal t)

/-- A pending signal of the task has an action that ends it, and no stop signal comes before it,
unless `schedule` would come back at once. -/
def Doomed (s : System) (t : TaskPtr) : Prop :=
  ∃ signals, s.signalsOf t = some signals ∧ ∃ sig, 1 ≤ sig ∧ sig < nsig ∧
    (signals.pending &&& ~~~signals.blocked).getLsbD sig = true ∧ signals.disposition sig = .term ∧
    (s.pickNextTask = t ∨ ∀ k, 1 ≤ k → k < sig →
      (signals.pending &&& ~~~signals.blocked).getLsbD k = true → signals.disposition k ≠ .stop)

section Loop

variable {s s' : System} {caller t : TaskPtr} {base : List Frame}

theorem ends_iff (hAlive : s.stateOf t ≠ .zombie) :
    Ends caller t base s ↔ InLoop caller base s ∧ Ends caller t base s.signalRound := by
  constructor
  · intro h
    cases h with
    | done hZombie => exact absurd hZombie hAlive
    | round hLoop hEnds => exact ⟨hLoop, hEnds⟩
  · rintro ⟨hLoop, hEnds⟩
    exact .round hLoop hEnds

theorem schedule_stateOf_of_not_running (h : s.stateOf s.current ≠ .running) (frame : Frame) :
    (s.pushFrame frame).schedule.stateOf = s.stateOf := by
  rw [schedule_of_not_running]
  · rfl
  · exact h

theorem exit_stateOf (s : System) {task : Task} (h : task.state = .zombie) :
    (((s.setTask s.current task).dequeueTask s.current).pushFrame .halted).schedule.stateOf =
      Function.update s.stateOf s.current .zombie := by
  have hState : ((s.setTask s.current task).dequeueTask s.current).stateOf =
      Function.update s.stateOf s.current .zombie := by
    rw [dequeueTask_stateOf, setTask_stateOf, h]
  have hCurrent : ((s.setTask s.current task).dequeueTask s.current).current = s.current :=
    (keeps_dequeueTask _ _).current
  rw [schedule_stateOf_of_not_running, hState]
  rw [hCurrent, hState, Function.update_self]
  simp

theorem exitTask_stateOf (s : System) (code : Int) :
    (s.exitTask code).stateOf = Function.update s.stateOf s.current .zombie :=
  exit_stateOf s rfl

theorem sigDefaultStop_eq (s : System) :
    s.sigDefaultStop = { s.setState s.current .stopped with current := s.pickNextTask } := by
  unfold sigDefaultStop
  rw [schedule_of_not_running]
  · rfl
  · change (s.setState s.current .stopped).stateOf s.current ≠ _
    rw [setState_stateOf, Function.update_self]
    simp

theorem sigDefaultStop_stateOf (s : System) :
    s.sigDefaultStop.stateOf = Function.update s.stateOf s.current .stopped := by
  rw [sigDefaultStop_eq, ← setState_stateOf]
  rfl

theorem act_stateOf_of_ne (sig : Nat) (disposition : Disposition) (h : t ≠ s.current) :
    (s.act sig disposition).stateOf t = s.stateOf t := by
  cases disposition with
  | ignore => rfl
  | user => rfl
  | term => rw [act, sigDefaultTerm, exitTask_stateOf, Function.update_of_ne h]
  | stop => rw [act, sigDefaultStop_stateOf, Function.update_of_ne h]
  | cont => rw [act, sigDefaultCont, setState_stateOf, Function.update_of_ne h]

theorem signalRound_stateOf_of_ne (h : t ≠ s.current) : s.signalRound.stateOf t = s.stateOf t := by
  obtain ⟨-, hSame⟩ | ⟨disposition, sig, s₁, -, hSame, hEq⟩ := signalRound_cases s
  · rw [hSame.stateOf]
  · rw [hEq, act_stateOf_of_ne sig disposition (by rwa [hSame.current]), hSame.stateOf]

theorem Ends.zombie_of_ne (h : Ends caller t base s) (hOther : t ≠ caller) :
    s.stateOf t = .zombie := by
  induction h with
  | done hZombie => exact hZombie
  | @round s hLoop hEnds ih => rwa [signalRound_stateOf_of_ne (by rwa [hLoop.1])] at ih

structure AtSignal (s : System) (t : TaskPtr) (signals : SignalStruct) (pending : SigSet)
    (base : List Frame) (sig : Nat) : Prop where
  current : s.current = t
  frames : s.frames t = .signals t pending sig :: base
  signals : ∃ rest, s.signalsOf t = some { signals with pending := rest }

variable {signals : SignalStruct} {pending : SigSet} {sig : Nat}

theorem AtSignal.inLoop (h : s.AtSignal t signals pending base sig) : InLoop t base s := by
  refine ⟨h.current, ?_⟩
  rw [h.frames, List.length_cons]
  exact Nat.lt_succ_self _

theorem AtSignal.congr (h : s.AtSignal t signals pending base sig) (hCurrent : s'.current = s.current)
    (hFrames : s'.frames = s.frames) (hSignals : s'.signalsOf = s.signalsOf) :
    s'.AtSignal t signals pending base sig := by
  refine ⟨hCurrent.trans h.current, ?_, ?_⟩
  · rw [hFrames, h.frames]
  · rw [hSignals]
    exact h.signals

theorem AtSignal.round (h : s.AtSignal t signals pending base sig) (hSig : sig < nsig) :
    ∃ s₁, s₁.AtSignal t signals pending base (sig + 1) ∧ s.SameQueue s₁ ∧
      s.signalRound = if pending.getLsbD sig then s₁.act sig (signals.disposition sig) else s₁ := by
  obtain ⟨rest, hSignals⟩ := h.signals
  have hSignals' : (s.tasks t).signals = some { signals with pending := rest } := hSignals
  have hFramed : (s.setFrames (.signals t pending (sig + 1) :: base)).AtSignal t signals pending base
      (sig + 1) := by
    refine ⟨h.current, ?_, rest, hSignals⟩
    simp only [setFrames, h.current, Function.update_self]
  have hZero : pending &&& sigBit sig = 0 ↔ pending.getLsbD sig = false :=
    and_sigBit_eq_zero (Nat.lt_trans hSig (by decide))
  unfold signalRound
  rw [h.current, h.frames]
  simp only [if_neg (Nat.not_le.mpr hSig), ge_iff_le]
  cases hBit : pending.getLsbD sig with
  | false =>
    refine ⟨_, hFramed, sameQueue_setFrames s _, ?_⟩
    simp only [if_pos (hZero.mpr hBit), Bool.false_eq_true, if_false]
  | true =>
    have hTasks : (s.setFrames (.signals t pending (sig + 1) :: base)).tasks = s.tasks := rfl
    have hSet : ¬ pending &&& sigBit sig = 0 := by
      rw [hZero, hBit]
      simp
    simp only [if_neg hSet, hTasks, hSignals', if_true]
    refine ⟨(s.setFrames (.signals t pending (sig + 1) :: base)).setTask t { s.tasks t with
      signals := some { signals with pending := rest &&& ~~~sigBit sig } }, ?_, ?_, rfl⟩
    · refine ⟨hFramed.current, hFramed.frames, rest &&& ~~~sigBit sig, ?_⟩
      rw [setTask_signalsOf, Function.update_self]
    · exact (sameQueue_setFrames s _).trans (sameQueue_setTask rfl rfl rfl rfl)

/-- From this signal number on, a pending signal ends the task, and no stop signal comes before it
unless `schedule` would come back at once. -/
def EndsFrom (signals : SignalStruct) (pending : SigSet) (comesBack : Prop) (sig : Nat) : Prop :=
  ∃ k, sig ≤ k ∧ k < nsig ∧ pending.getLsbD k = true ∧ signals.disposition k = .term ∧
    (comesBack ∨ ∀ j, sig ≤ j → j < k → pending.getLsbD j = true → signals.disposition j ≠ .stop)

theorem endsFrom_succ_iff {comesBack : Prop}
    (hTerm : pending.getLsbD sig = true → signals.disposition sig ≠ .term)
    (hStop : pending.getLsbD sig = true → signals.disposition sig = .stop → comesBack) :
    EndsFrom signals pending comesBack (sig + 1) ↔ EndsFrom signals pending comesBack sig := by
  constructor
  · rintro ⟨k, hFrom, hBound, hBit, hEnd, hBefore⟩
    refine ⟨k, Nat.le_of_succ_le hFrom, hBound, hBit, hEnd, ?_⟩
    rcases hBefore with hBack | hNone
    · exact Or.inl hBack
    · by_cases hHere : pending.getLsbD sig = true ∧ signals.disposition sig = .stop
      · exact Or.inl (hStop hHere.1 hHere.2)
      · refine Or.inr fun j hj hLt hSet hIs => ?_
        rcases Nat.eq_or_lt_of_le hj with rfl | hLater
        · exact hHere ⟨hSet, hIs⟩
        · exact hNone j hLater hLt hSet hIs
  · rintro ⟨k, hFrom, hBound, hBit, hEnd, hBefore⟩
    have hLater : sig + 1 ≤ k := by
      rcases Nat.eq_or_lt_of_le hFrom with rfl | hLater
      · exact absurd hEnd (hTerm hBit)
      · exact hLater
    exact ⟨k, hLater, hBound, hBit, hEnd,
      hBefore.imp_right fun hNone j hj => hNone j (Nat.le_of_succ_le hj)⟩

theorem endsFrom_nsig {comesBack : Prop} (h : nsig ≤ sig) :
    ¬ EndsFrom signals pending comesBack sig := by
  rintro ⟨k, hFrom, hBound, -⟩
  omega

theorem AtSignal.not_ends (h : s.AtSignal t signals pending base sig) (hSig : nsig ≤ sig)
    (hAlive : s.stateOf t ≠ .zombie) : ¬ Ends t t base s := by
  have hRound : s.signalRound = s.setFrames base := by
    unfold signalRound
    rw [h.current, h.frames]
    simp only [ge_iff_le, if_pos hSig]
  rw [ends_iff hAlive, hRound, ends_iff (s := s.setFrames base) hAlive]
  rintro ⟨-, ⟨-, hLonger⟩, -⟩
  simp only [setFrames, h.current, Function.update_self] at hLonger
  exact Nat.lt_irrefl _ hLonger

theorem SameQueue.pickNextTask (h : s.SameQueue s') : s'.pickNextTask = s.pickNextTask := by
  rw [System.pickNextTask, System.pickNextTask, h.head, h.idle]

theorem AtSignal.ends_iff_endsFrom (h : s.AtSignal t signals pending base sig)
    (hAlive : s.stateOf t ≠ .zombie) :
    Ends t t base s ↔ EndsFrom signals pending (s.pickNextTask = t) sig := by
  induction hLeft : nsig - sig generalizing s sig with
  | zero =>
    have hDone : nsig ≤ sig := Nat.le_of_sub_eq_zero hLeft
    exact iff_of_false (h.not_ends hDone hAlive) (endsFrom_nsig hDone)
  | succ left ih =>
    obtain ⟨s₁, hNext, hSame, hRound⟩ := h.round (by omega)
    have hAlive₁ : s₁.stateOf t ≠ .zombie := by rwa [hSame.stateOf]
    have hPick := hSame.pickNextTask
    rw [System.ends_iff hAlive, and_iff_right h.inLoop, hRound]
    cases hBit : pending.getLsbD sig with
    | false =>
      simp only [Bool.false_eq_true, if_false]
      rw [ih hNext hAlive₁ (by omega), hPick]
      exact endsFrom_succ_iff (by simp [hBit]) (by simp [hBit])
    | true =>
      rw [if_pos rfl]
      cases hKind : signals.disposition sig with
      | ignore =>
        rw [act, ih hNext hAlive₁ (by omega), hPick]
        exact endsFrom_succ_iff (by simp [hKind]) (by simp [hKind])
      | user =>
        rw [act, ih hNext hAlive₁ (by omega), hPick]
        exact endsFrom_succ_iff (by simp [hKind]) (by simp [hKind])
      | cont =>
        have hCont : s₁.sigDefaultCont.AtSignal t signals pending base (sig + 1) :=
          hNext.congr rfl rfl (setState_signalsOf ..)
        have hRuns : s₁.sigDefaultCont.stateOf t ≠ .zombie := by
          rw [sigDefaultCont, hNext.current, setState_stateOf, Function.update_self]
          simp
        rw [act, ih hCont hRuns (by omega)]
        change EndsFrom signals pending (s₁.pickNextTask = t) (sig + 1) ↔ _
        rw [hPick]
        exact endsFrom_succ_iff (by simp [hKind]) (by simp [hKind])
      | term =>
        refine iff_of_true (.done ?_) ⟨sig, Nat.le_refl _, by omega, hBit, hKind, Or.inr ?_⟩
        · rw [act, sigDefaultTerm, exitTask_stateOf, hNext.current, Function.update_self]
        · intro j hj hLt
          omega
      | stop =>
        have hStopped : s₁.sigDefaultStop.stateOf t ≠ .zombie := by
          rw [sigDefaultStop_stateOf, hNext.current, Function.update_self]
          simp
        rcases Decidable.em (s.pickNextTask = t) with hBack | hAway
        · have hStay : s₁.sigDefaultStop.AtSignal t signals pending base (sig + 1) := by
            rw [sigDefaultStop_eq, hPick, hBack]
            exact hNext.congr hNext.current.symm rfl (setState_signalsOf ..)
          have hPick' : s₁.sigDefaultStop.pickNextTask = s.pickNextTask := by
            rw [sigDefaultStop_eq, ← hPick]
            rfl
          rw [act, ih hStay hStopped (by omega), hPick']
          exact endsFrom_succ_iff (by simp [hKind]) (fun _ _ => hBack)
        · refine iff_of_false ?_ ?_
          · rw [act, System.ends_iff hStopped, sigDefaultStop_eq]
            rintro ⟨⟨hCurrent, -⟩, -⟩
            exact hAway (hPick.symm.trans hCurrent)
          · rintro ⟨k, hFrom, -, -, hEnd, hBack | hNone⟩
            · exact hAway hBack
            · rcases Nat.eq_or_lt_of_le hFrom with rfl | hLater
              · rw [hKind] at hEnd
                cases hEnd
              · exact hNone sig (Nat.le_refl _) hLater hBit hKind

theorem doomed_iff (hSome : s.signalsOf t = some signals) : s.Doomed t ↔
    EndsFrom signals (signals.pending &&& ~~~signals.blocked) (s.pickNextTask = t) 1 := by
  constructor
  · rintro ⟨signals', hSome', hEnds⟩
    obtain rfl : signals = signals' := Option.some.inj (hSome.symm.trans hSome')
    exact hEnds
  · intro hEnds
    exact ⟨signals, hSome, hEnds⟩

/-- `do_signal` on a task ends it exactly if the task itself makes the call and a signal of it is
deadly. -/
theorem terminates_iff (ht : t ≠ null) (hSome : s.signalsOf t = some signals) :
    s.Terminates t ↔ s.stateOf t = .zombie ∨ s.current = t ∧ s.Doomed t := by
  have hStart : s.doSignal t = if signals.pending &&& ~~~signals.blocked = 0 then s
      else s.pushFrame (.signals t (signals.pending &&& ~~~signals.blocked) 1) := by
    have hTask : (s.tasks t).signals = some signals := hSome
    simp only [doSignal, if_neg ht, hTask]
  have hState : (s.doSignal t).stateOf t = s.stateOf t := by
    rw [hStart]
    split <;> rfl
  rcases Decidable.em (s.stateOf t = .zombie) with hZombie | hAlive
  · exact iff_of_true (.done (hState.trans hZombie)) (Or.inl hZombie)
  rw [or_iff_right hAlive]
  rcases Decidable.eq_or_ne s.current t with hSelf | hOther
  · rw [and_iff_right hSelf, doomed_iff hSome, Terminates, hStart, hSelf]
    split
    case isTrue hNone =>
      refine iff_of_false ?_ ?_
      · rw [ends_iff hAlive]
        rintro ⟨⟨-, hLonger⟩, -⟩
        exact Nat.lt_irrefl _ hLonger
      · rintro ⟨k, -, -, hBit, -⟩
        rw [hNone] at hBit
        simp at hBit
    case isFalse hPending =>
      refine AtSignal.ends_iff_endsFrom (s := s.pushFrame _) ⟨hSelf, ?_, signals.pending, hSome⟩ hAlive
      simp only [pushFrame, hSelf, Function.update_self]
  · refine iff_of_false (fun hEnds => hAlive ?_) (fun hBoth => hOther hBoth.1)
    exact hState.symm.trans (Ends.zombie_of_ne hEnds hOther.symm)

/-! ### The senders -/

theorem wakeUpProcess_stateOf (ht : t ≠ null) : (s.wakeUpProcess t).stateOf t = .running := by
  unfold wakeUpProcess
  rw [if_neg ht]
  split
  case isTrue hRunning => exact hRunning
  case isFalse hSleeps => rw [enqueueTask_stateOf, Function.update_self]

theorem killTask_cases {sig : Nat} (hSig : sig < nsig) (ht : t ≠ null)
    (hSome : s.signalsOf t = some signals) :
    ∃ s₁, s.SameQueue s₁ ∧
      s₁.signalsOf t = some { signals with pending := signals.pending ||| sigBit sig } ∧
      (s.killTask t sig).1 = if s.stateOf t = .interruptible then s₁.wakeUpProcess t else s₁ := by
  have hTask : (s.tasks t).signals = some signals := hSome
  have hRange : ¬ ((sig : Int) < 0 ∨ (sig : Int) ≥ nsig) := by omega
  refine ⟨s.setTask t { s.tasks t with
    signals := some { signals with pending := signals.pending ||| sigBit sig } },
    sameQueue_setTask rfl rfl rfl rfl, ?_, ?_⟩
  · rw [setTask_signalsOf, Function.update_self]
  · unfold killTask
    rw [if_neg hRange, if_neg ht]
    simp only [hTask, Int.toNat_natCast, setTask_stateOf]
    rw [Function.update_self]
    rfl

theorem killTask_runnable_iff {sig : Nat} (hSig : sig < nsig) (ht : t ≠ null)
    (hSome : s.signalsOf t = some signals) :
    (s.killTask t sig).1.stateOf t = .running ↔
      s.stateOf t = .running ∨ s.stateOf t = .interruptible := by
  obtain ⟨s₁, hSame, -, hEq⟩ := killTask_cases hSig ht hSome
  rw [hEq]
  split
  case isTrue hSleeps => exact iff_of_true (wakeUpProcess_stateOf ht) (Or.inr hSleeps)
  case isFalse hAwake => rw [hSame.stateOf, or_iff_left hAwake]

theorem killTask_signalsOf {sig : Nat} (hSig : sig < nsig) (ht : t ≠ null)
    (hSome : s.signalsOf t = some signals) : (s.killTask t sig).1.signalsOf t =
      some { signals with pending := signals.pending ||| sigBit sig } := by
  obtain ⟨s₁, -, hSent, hEq⟩ := killTask_cases hSig ht hSome
  rw [hEq]
  split
  · rw [wakeUpProcess_signalsOf, hSent]
  · exact hSent

def InQueue (s : System) (t : TaskPtr) : Prop :=
  ∃ n, s.next^[n] s.head = t ∧ ∀ m ≤ n, s.next^[m] s.head ≠ null

theorem killTask_inQueue_iff {sig : Nat} (hSig : sig < nsig) (ht : t ≠ null)
    (hSome : s.signalsOf t = some signals) (hStopped : s.stateOf t = .stopped) :
    (s.killTask t sig).1.InQueue t ↔ s.InQueue t := by
  obtain ⟨s₁, hSame, -, hEq⟩ := killTask_cases hSig ht hSome
  rw [hEq, if_neg (by simp [hStopped]), InQueue, InQueue, hSame.next, hSame.head]

theorem doomed_of_sigkill (hSome : s.signalsOf t = some signals) (hOpen : signals.Unmasked)
    (hPending : signals.pending.getLsbD sigkill = true) : s.Doomed t := by
  refine ⟨signals, hSome, sigkill, by decide, by decide, ?_, ?_, Or.inr ?_⟩
  · rw [BitVec.getLsbD_and, BitVec.getLsbD_not, hPending, hOpen.killOpen]
    rfl
  · rw [SignalStruct.disposition, hOpen.killDefault]
    rfl
  · intro k _ hBefore _
    have hLow : ∀ j < sigkill, defaultDisposition j = .term := by decide
    unfold SignalStruct.disposition
    split
    · simp
    · simp [hLow k hBefore]
    · simp

theorem schedKillTask_runnable_iff {pid : Int} (ht : t ≠ null) (hFound : s.getTaskByPid pid = t) :
    (s.schedKillTask pid).1.stateOf t = .running ↔ s.stateOf t = .running ∨
      (s.stateOf t = .interruptible ∨ s.stateOf t = .uninterruptible) ∧
        (s.tasks t).pid ≠ 0 ∧ (s.tasks t).flags &&& pfIdle = 0 := by
  unfold schedKillTask
  simp only [hFound, if_neg ht]
  split
  case isTrue hIdle =>
    rw [or_iff_left]
    rintro ⟨-, hPid, hFlags⟩
    exact hIdle.elim hPid fun hSet => hSet hFlags
  case isFalse hUser =>
    obtain ⟨hPid, hFlags⟩ := not_or.mp hUser
    simp only [setTask_stateOf, Function.update_self]
    split
    case isTrue hSleeps =>
      refine iff_of_true ?_ (Or.inr ⟨hSleeps, hPid, not_not.mp hFlags⟩)
      rw [enqueueTask_stateOf, Function.update_self]
    case isFalse hAwake =>
      rw [setTask_stateOf, Function.update_self, or_iff_left (fun hBoth => hAwake hBoth.1)]
      rfl

end Loop

end System

def System.Reachable (s : System) : Prop := ∃ steps, s = schedInit.after steps

/-- In every state reached, for every task with a signal structure: `SIGKILL` and `SIGSTOP` are open
and default; `SIGKILL` makes the task runnable exactly in two states, and the next `do_signal` on it
ends it exactly if the task itself makes the call; `sched_kill_task` makes it runnable in three
states, and the next `do_signal` ends it only for another deadly signal; and `SIGCONT` puts a
stopped task in the queue only if it is still there. -/
theorem kill_stop_cont_iff {s : System} {t : TaskPtr} {signals : SignalStruct}
    (hReach : s.Reachable) (hTask : s.IsTask t) (hSome : s.signalsOf t = some signals) :
    signals.Unmasked ∧
    ((s.killTask t sigkill).1.stateOf t = .running ↔
      s.stateOf t = .running ∨ s.stateOf t = .interruptible) ∧
    (∀ steps, (s.killTask t sigkill).1.SparesRun t steps →
      (((s.killTask t sigkill).1.after steps).Terminates t ↔
        ((s.killTask t sigkill).1.after steps).stateOf t = .zombie ∨
          ((s.killTask t sigkill).1.after steps).current = t)) ∧
    (∀ pid, s.getTaskByPid pid = t →
      ((s.schedKillTask pid).1.stateOf t = .running ↔ s.stateOf t = .running ∨
        (s.stateOf t = .interruptible ∨ s.stateOf t = .uninterruptible) ∧
          (s.tasks t).pid ≠ 0 ∧ (s.tasks t).flags &&& pfIdle = 0) ∧
      ∀ steps, (s.schedKillTask pid).1.SparesRun t steps →
        (((s.schedKillTask pid).1.after steps).Terminates t ↔
          ((s.schedKillTask pid).1.after steps).stateOf t = .zombie ∨
            ((s.schedKillTask pid).1.after steps).current = t ∧
              ((s.schedKillTask pid).1.after steps).Doomed t)) ∧
    (s.stateOf t = .stopped → ((s.killTask t sigcont).1.InQueue t ↔ s.InQueue t)) := by
  obtain ⟨run, rfl⟩ := hReach
  have hClosed := System.closed_after System.closed_schedInit run
  have hOpen := System.unmasked_after System.unmasked_schedInit run
  generalize schedInit.after run = s at *
  have hSent := System.killTask_signalsOf (show sigkill < nsig by decide) hTask.1 hSome
  refine ⟨hOpen t signals hSome, ?_, ?_, ?_, ?_⟩
  · exact System.killTask_runnable_iff (by decide) hTask.1 hSome
  · intro steps hSpares
    obtain ⟨P, hEffect, -⟩ := System.step_effect hClosed (.killTask t sigkill)
    obtain ⟨signals', hSome', hKept⟩ := System.pending_after hSent (hEffect.closed hClosed)
      (hEffect.isTask hTask) hSpares
    have hUnmasked := System.unmasked_after (System.unmasked_after hOpen [.killTask t sigkill])
      steps t signals' hSome'
    have hPending : signals'.pending.getLsbD sigkill = true := by
      apply hKept
      rw [BitVec.getLsbD_or, getLsbD_sigBit (by decide)]
      simp
    rw [System.terminates_iff hTask.1 hSome',
      and_iff_left (System.doomed_of_sigkill hSome' hUnmasked hPending)]
  · intro pid hFound
    refine ⟨System.schedKillTask_runnable_iff hTask.1 hFound, ?_⟩
    intro steps hSpares
    obtain ⟨P, hEffect, -⟩ := System.step_effect hClosed (.schedKillTask pid)
    have hSame : (s.schedKillTask pid).1.signalsOf t = some signals := by
      rw [System.schedKillTask_signalsOf, hSome]
    obtain ⟨signals', hSome', -⟩ := System.pending_after hSame (hEffect.closed hClosed)
      (hEffect.isTask hTask) hSpares
    exact System.terminates_iff hTask.1 hSome'
  · intro hStopped
    exact System.killTask_inQueue_iff (by decide) hTask.1 hSome hStopped

def signalledTask : System :=
  schedInit.after [.createTask 0 true, .signalInit (poolTask 0), .schedule]

def freshSignals : SignalStruct :=
  { pending := 0, blocked := 0, actions := fun _ => defaultAction }

theorem kill_stop_cont_signalledTask :
    signalledTask.Reachable ∧ signalledTask.IsTask (poolTask 0) ∧
      signalledTask.signalsOf (poolTask 0) = some freshSignals ∧
      ((signalledTask.killTask (poolTask 0) sigkill).1.stateOf (poolTask 0) = .running ↔
        signalledTask.stateOf (poolTask 0) = .running ∨
          signalledTask.stateOf (poolTask 0) = .interruptible) :=
  ⟨⟨_, rfl⟩, by decide, rfl, (kill_stop_cont_iff ⟨_, rfl⟩ (by decide) rfl).2.1⟩

def stoppedTask : System :=
  (signalledTask.after [.killTask (poolTask 0) sigstop, .doSignal (poolTask 0)]).after
    (List.replicate 19 .signalRound)

/-- `SIGKILL` leaves a stopped task stopped, and `sched_kill_task` on a running one sends nothing
that its next `do_signal` would see. -/
theorem kill_leaves_task_stopped_or_alive :
    stoppedTask.stateOf (poolTask 0) = .stopped ∧
      (stoppedTask.killTask (poolTask 0) sigkill).1.stateOf (poolTask 0) = .stopped ∧
      signalledTask.getTaskByPid 1 = poolTask 0 ∧ (signalledTask.schedKillTask 1).2 = 0 ∧
      ¬ (signalledTask.schedKillTask 1).1.Terminates (poolTask 0) := by
  refine ⟨by decide +kernel, by decide +kernel, by decide, by decide, ?_⟩
  intro hEnds
  cases hEnds with
  | done hZombie => exact absurd hZombie (by decide)
  | round hLoop hEnds => exact absurd hLoop.2 (by decide)

end UnixOS.Sched
