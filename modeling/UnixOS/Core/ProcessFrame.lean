import UnixOS.Core.ProcessTable

/-! # What one act can change

An act stores to at most one slot and replaces at most one thread besides its own; the schedulers only move
processes that are in the table between READY and RUNNING. Everything that is said about a slot while other
threads run goes through these facts.
-/

namespace UnixOS.Proc

def Act.builds : Act → Option Slot
  | .load slot | .setParent slot | .setExit slot | .allocStack slot | .checkStack slot
  | .setContext slot | .setReady slot
  | .releaseState slot | .releasePid slot | .releaseStack slot | .releaseExit slot
  | .releaseParent slot | .releaseContext slot => some slot
  | _ => none

namespace System

def storesTo (s : System) : Act → Option Slot
  | .reserve => s.findFreeSlotUnlocked
  | .setParent slot | .setExit slot | .allocStack slot | .setContext slot | .setReady slot
  | .releaseState slot | .releasePid slot | .releaseStack slot | .releaseExit slot
  | .releaseParent slot | .releaseContext slot | .startReady slot
  | .stackClear slot | .freeState slot | .freePid slot => some slot
  | .exitFinish _ => s.self
  | _ => none

def replaces (s : System) : Act → Option Slot
  | .reserve => s.findFreeSlotUnlocked
  | .setContext slot | .releaseContext slot => some slot
  | .exitFinish _ => s.self
  | _ => none

theorem storesTo_of_replaces {s : System} {act : Act} {slot : Slot} (h : s.replaces act = some slot) :
    s.storesTo act = some slot := by
  cases act <;> first | exact h | cases h

structure Untouched (s s' : System) (i : Slot) : Prop where
  pid : (s'.procTable i).pid = (s.procTable i).pid
  stackBase : (s'.procTable i).stackBase = (s.procTable i).stackBase
  exitStatus : (s'.procTable i).exitStatus = (s.procTable i).exitStatus
  state : (s'.procTable i).state = (s.procTable i).state ∨
    (s.procTable i).state ≠ .free ∧
      ((s'.procTable i).state = .ready ∨ (s'.procTable i).state = .running)
  born : s'.born i = s.born i

section Frames

variable {s s' s'' : System} {i : Slot}

theorem Untouched.of_eq (hTable : s'.procTable i = s.procTable i) (hBorn : s'.born i = s.born i) :
    Untouched s s' i := by
  constructor
  · rw [hTable]
  · rw [hTable]
  · rw [hTable]
  · exact Or.inl (by rw [hTable])
  · exact hBorn

theorem Untouched.free_iff (h : Untouched s s' i) :
    (s'.procTable i).state = .free ↔ (s.procTable i).state = .free := by
  rcases h.state with hSame | ⟨hLive, hReady | hRunning⟩
  · rw [hSame]
  · simp [hReady, hLive]
  · simp [hRunning, hLive]

theorem Untouched.trans (h : Untouched s s' i) (h' : Untouched s' s'' i) : Untouched s s'' i where
  pid := h'.pid.trans h.pid
  stackBase := h'.stackBase.trans h.stackBase
  exitStatus := h'.exitStatus.trans h.exitStatus
  state := by
    rcases h'.state with hSame | ⟨hLive, hNew⟩
    · rw [hSame]
      exact h.state
    · exact Or.inr ⟨fun hFree => hLive (h.free_iff.mpr hFree), hNew⟩
  born := h'.born.trans h.born

@[simp] theorem modify_born (j : Slot) (f : Process → Process) : (s.modify j f).born = s.born := rfl

theorem untouched_modify {j : Slot} {f : Process → Process} (hNe : j ≠ i) : Untouched s (s.modify j f) i :=
  .of_eq (by rw [modify_procTable, Function.update_of_ne hNe.symm]) rfl

theorem untouched_setState {j : Slot} {state : ProcState} (hLive : (s.procTable j).state ≠ .free)
    (hState : state = .ready ∨ state = .running) : Untouched s (s.setState j state) i := by
  by_cases hEq : i = j
  · subst hEq
    constructor <;> simp [setState, modify_procTable]
    exact Or.inr ⟨hLive, hState⟩
  · exact untouched_modify (Ne.symm hEq)

theorem untouched_switchTo (next : Option Slot) : Untouched s (s.switchTo next) i := by
  simp only [switchTo, saveContext]
  split
  case h_1 old _ =>
    by_cases hEq : i = old
    · subst hEq
      constructor <;> simp [modify_procTable]
    · exact .of_eq (by simp [modify_procTable, hEq]) rfl
  case h_2 => exact .of_eq rfl rfl

theorem untouched_deschedule : Untouched s s.deschedule i := by
  simp only [deschedule]
  split
  case h_1 old _ =>
    split
    case isTrue hRunning => exact untouched_setState (by simp [hRunning]) (Or.inl rfl)
    case isFalse => exact .of_eq rfl rfl
  case h_2 => exact .of_eq rfl rfl

theorem untouched_dispatch {next : Slot} (hReady : (s.procTable next).state = .ready) :
    Untouched s (s.dispatch next) i := by
  have hLive : (s.deschedule.procTable next).state ≠ .free := by
    rw [Ne, untouched_deschedule.free_iff, hReady]
    decide
  exact (untouched_deschedule.trans (untouched_setState hLive (Or.inr rfl))).trans (untouched_switchTo _)

theorem untouched_processSchedule : Untouched s s.processSchedule i := by
  simp only [processSchedule]
  split
  case h_1 =>
    split
    · split
      · exact .of_eq rfl rfl
      · exact untouched_switchTo none
    · exact .of_eq rfl rfl
  case h_2 next hFind =>
    have hReady : (s.procTable next).state = .ready := by simpa using List.find?_some hFind
    split
    · exact .of_eq rfl rfl
    · split
      · exact untouched_setState (by simp [hReady]) (Or.inr rfl)
      · exact untouched_dispatch hReady

theorem free_of_found {slot : Slot} (hFind : s.findFreeSlotUnlocked = some slot) :
    (s.procTable slot).state = .free := by
  simpa using List.find?_some hFind

theorem live_of_processGet {pid : Int} {slot : Slot} (hFind : s.processGet pid = some slot) :
    (s.procTable slot).state ≠ .free := by
  have hFound := List.find?_some hFind
  simp only [decide_eq_true_eq] at hFound
  exact hFound.2

theorem Sound.untouched_execute (h : s.Sound) (loaded : Bool) (stack : Nat) {act : Act}
    (hStore : s.storesTo act ≠ some i) : Untouched s (s.execute loaded stack act) i := by
  have hNe : ∀ slot, s.storesTo act = some slot → slot ≠ i := by
    intro slot hSlot hEq
    exact hStore (hEq ▸ hSlot)
  cases act with
  | reserve =>
    simp only [System.execute, System.reserve]
    split
    case h_1 => exact .of_eq rfl rfl
    case h_2 slot hFind =>
      have hSlot := hNe slot hFind
      exact .of_eq (by simp [modify_procTable, hSlot.symm]) (by simp [System.push, System.setThread, hSlot.symm])
  | setParent slot | setExit slot | allocStack slot | setContext slot | setReady slot | releaseState slot
  | releasePid slot | releaseStack slot | releaseExit slot | releaseParent slot | releaseContext slot
  | startReady slot | stackClear slot | freeState slot | freePid slot =>
    have hSlot := hNe slot rfl
    exact .of_eq (by simp [System.execute, setState, modify_procTable, hSlot.symm]) rfl
  | exitFinish status =>
    simp only [System.execute, System.exitFinish]
    split
    case h_1 => exact .of_eq rfl rfl
    case h_2 slot hSelf =>
      have hSlot := hNe slot hSelf
      exact .of_eq (by simp [modify_procTable, hSlot.symm]) rfl
  | yieldReady =>
    simp only [System.execute]
    split
    case h_1 => exact .of_eq rfl rfl
    case h_2 slot hSelf => exact untouched_setState (h.seated slot (h.self_eq ▸ hSelf)) (Or.inl rfl)
  | schedule => exact untouched_processSchedule
  | _ =>
    -- the other acts only read the table
    simp only [System.execute]
    (repeat' split) <;> exact .of_eq rfl rfl

theorem Sound.untouched_runAct (h : s.Sound) {act : Act} {rest : List Act} (hCode : s.code = act :: rest)
    (loaded : Bool) (stack : Nat) (hStore : (s.setCode rest).storesTo act ≠ some i) :
    Untouched s ((s.setCode rest).execute loaded stack act) i := by
  have hRest : (s.setCode rest).Sound := by
    apply h.setCode
    intro act' hMem
    rw [hCode]
    exact List.mem_cons_of_mem act hMem
  have hSet : Untouched s (s.setCode rest) i := .of_eq rfl rfl
  exact hSet.trans (hRest.untouched_execute loaded stack hStore)

end Frames

/-! ### Threads -/

section Threads

variable {s : System} {t : Option Slot}

@[simp] theorem push_threads_of_ne {acts : List Act} (hSelf : t ≠ s.self) :
    (s.push acts).threads t = s.threads t := by
  simp [push, setThread, hSelf]

@[simp] theorem setValue_threads_of_ne {value : Int} (hSelf : t ≠ s.self) :
    (s.setValue value).threads t = s.threads t := by
  simp [setValue, setThread, hSelf]

theorem processSchedule_threads : s.processSchedule.threads = s.threads := by
  simp only [processSchedule]
  split
  · split
    · split
      · rfl
      · exact (samePids_switchTo none).threads
    · rfl
  · split
    · rfl
    · split
      · rfl
      · exact (samePids_dispatch _).threads

theorem processSchedule_nextPid : s.processSchedule.nextPid = s.nextPid := by
  simp only [processSchedule]
  split
  · split
    · split
      · rfl
      · exact (samePids_switchTo none).nextPid
    · rfl
  · split
    · rfl
    · split
      · rfl
      · exact (samePids_dispatch _).nextPid

theorem processPreemptFromIrq_cases :
    (∃ n, s.processPreemptFromIrq = { s with preemptTicks := n }) ∨
      ∃ next, (s.procTable next).state = .ready ∧ s.self ≠ some next ∧
        s.processPreemptFromIrq = { s with preemptTicks := 0 }.dispatch next := by
  simp only [processPreemptFromIrq]
  split
  · exact Or.inl ⟨_, rfl⟩
  · split
    · exact Or.inl ⟨0, rfl⟩
    · split
      · exact Or.inl ⟨0, rfl⟩
      · split
        · exact Or.inl ⟨0, rfl⟩
        · next next hFind =>
          have hReady : (s.procTable next).state = .ready := by
            have hFound := List.find?_some hFind
            simp only [Bool.and_eq_true, decide_eq_true_eq] at hFound
            exact hFound.1
          split
          · exact Or.inl ⟨0, rfl⟩
          · next hOther => exact Or.inr ⟨next, hReady, hOther, rfl⟩

theorem processPreemptFromIrq_threads : s.processPreemptFromIrq.threads = s.threads := by
  rcases processPreemptFromIrq_cases (s := s) with ⟨n, hEq⟩ | ⟨next, -, -, hEq⟩
  · rw [hEq]
  · rw [hEq]
    exact (samePids_dispatch next).threads

theorem untouched_processPreemptFromIrq {i : Slot} : Untouched s s.processPreemptFromIrq i := by
  rcases processPreemptFromIrq_cases (s := s) with ⟨n, hEq⟩ | ⟨next, hReady, -, hEq⟩
  · rw [hEq]
    exact .of_eq rfl rfl
  · rw [hEq]
    have hTicks : Untouched s { s with preemptTicks := 0 } i := .of_eq rfl rfl
    exact hTicks.trans (untouched_dispatch hReady)

theorem threads_execute_of_ne (loaded : Bool) (stack : Nat) {act : Act} (hSelf : t ≠ s.self)
    (hReplace : ∀ slot, s.replaces act = some slot → t ≠ some slot) :
    (s.execute loaded stack act).threads t = s.threads t := by
  cases act with
  | reserve =>
    simp only [System.execute, System.reserve]
    split
    case h_1 => exact setValue_threads_of_ne hSelf
    case h_2 slot hFind =>
      have hSlot := hReplace slot hFind
      rw [push_threads_of_ne (by exact hSelf)]
      simp [setThread, hSlot]
  | setContext slot =>
    have hSlot := hReplace slot rfl
    simp only [System.execute]
    rw [push_threads_of_ne (by exact hSelf)]
    simp [setThread, hSlot]
  | releaseContext slot =>
    have hSlot := hReplace slot rfl
    simp [System.execute, setThread, hSlot]
  | exitFinish status =>
    simp only [System.execute, System.exitFinish]
    split
    case h_1 => rfl
    case h_2 slot hSome =>
      have hSlot := hReplace slot hSome
      simp [setThread, hSlot]
  | schedule => exact congrFun processSchedule_threads t
  | setParent slot | setExit slot | allocStack slot | setReady slot =>
    simp only [System.execute]
    rw [push_threads_of_ne (by exact hSelf)]
    rfl
  | startReady slot =>
    simp only [System.execute]
    rw [setValue_threads_of_ne (by exact hSelf)]
    rfl
  | exitBegin status =>
    simp only [System.execute]
    split
    · rfl
    · rw [push_threads_of_ne (by exact hSelf)]
  | _ =>
    simp only [System.execute]
    (repeat' split) <;>
      first
        | rfl
        | exact push_threads_of_ne hSelf
        | exact setValue_threads_of_ne hSelf

/-! ### The running thread -/

@[simp] theorem push_threads_self (acts : List Act) :
    (s.push acts).threads s.self =
      { s.threads s.self with code := acts ++ (s.threads s.self).code } := by
  simp [push, setThread]

theorem push_thread {acts : List Act} {thread : Thread} (hSelf : s.self = t) (hThread : s.threads t = thread) :
    (s.push acts).threads t = { thread with code := acts ++ thread.code } := by
  subst hSelf hThread
  exact push_threads_self acts

@[simp] theorem setValue_threads_self (value : Int) :
    (s.setValue value).threads s.self = { s.threads s.self with value := value } := by
  simp [setValue, setThread]

theorem setValue_thread {value : Int} {thread : Thread} (hSelf : s.self = t) (hThread : s.threads t = thread) :
    (s.setValue value).threads t = { thread with value := value } := by
  subst hSelf hThread
  exact setValue_threads_self value

theorem setCode_threads_self (rest : List Act) :
    (s.setCode rest).threads s.self = { s.threads s.self with code := rest } := by
  simp [setCode, setThread]

theorem setCode_threads_of_ne {rest : List Act} (hSelf : t ≠ s.self) :
    (s.setCode rest).threads t = s.threads t := by
  simp [setCode, setThread, hSelf]

@[simp] theorem push_code (acts : List Act) : (s.push acts).code = acts ++ s.code := by
  rw [code, push_self, push_threads_self]
  rfl

@[simp] theorem setCode_code (rest : List Act) : (s.setCode rest).code = rest := by
  rw [code, setCode_self, setCode_threads_self]

@[simp] theorem setValue_code (value : Int) : (s.setValue value).code = s.code := by
  have hSelf : (s.setValue value).self = s.self := rfl
  rw [code, hSelf, setValue_threads_self]
  rfl

@[simp] theorem modify_code (i : Slot) (f : Process → Process) : (s.modify i f).code = s.code := rfl

@[simp] theorem setState_code (i : Slot) (state : ProcState) : (s.setState i state).code = s.code := rfl

theorem setThread_code_of_ne {thread : Thread} (hSelf : s.self ≠ t) : (s.setThread t thread).code = s.code := by
  rw [code, setThread_self]
  simp [setThread, hSelf, code]

theorem runAct_eq {act : Act} {rest : List Act} (hCode : s.code = act :: rest) (loaded : Bool) (stack : Nat) :
    s.runAct loaded stack = (s.setCode rest).execute loaded stack act := by
  simp only [runAct, hCode]

theorem mem_push_code {acts : List Act} {act : Act} (hMem : act ∈ ((s.push acts).threads t).code) :
    act ∈ (s.threads t).code ∨ t = s.self ∧ act ∈ acts := by
  by_cases hSelf : t = s.self
  · subst hSelf
    simp only [push_threads_self, List.mem_append] at hMem
    rcases hMem with hNew | hOld
    · exact Or.inr ⟨rfl, hNew⟩
    · exact Or.inl hOld
  · rw [push_threads_of_ne hSelf] at hMem
    exact Or.inl hMem

theorem mem_setValue_code {value : Int} {act : Act} (hMem : act ∈ ((s.setValue value).threads t).code) :
    act ∈ (s.threads t).code := by
  by_cases hSelf : t = s.self
  · subst hSelf
    simpa using hMem
  · rwa [setValue_threads_of_ne hSelf] at hMem

theorem mem_setThread_code {slot : Slot} {thread : Thread} {act : Act}
    (hThread : thread = haltedThread ∨ thread = freshThread)
    (hMem : act ∈ ((s.setThread (some slot) thread).threads t).code) :
    act ∈ (s.threads t).code ∨ act = .halted := by
  by_cases hEq : t = some slot
  · subst hEq
    rcases hThread with rfl | rfl
    · simp only [setThread, Function.update_self, haltedThread, List.mem_singleton] at hMem
      exact Or.inr hMem
    · simp [setThread, freshThread] at hMem
  · simp only [setThread, Function.update_of_ne hEq] at hMem
    exact Or.inl hMem

theorem mem_code_execute_of_ne {loaded : Bool} {stack : Nat} {act act' : Act} (hSelf : t ≠ s.self)
    (hMem : act' ∈ ((s.execute loaded stack act).threads t).code) :
    act' ∈ (s.threads t).code ∨ act' = .halted := by
  by_cases hReplace : ∃ slot, s.replaces act = some slot ∧ t = some slot
  case neg =>
    rw [threads_execute_of_ne loaded stack hSelf fun slot hSlot hEq => hReplace ⟨slot, hSlot, hEq⟩] at hMem
    exact Or.inl hMem
  case pos =>
    obtain ⟨slot, hSlot, rfl⟩ := hReplace
    cases act with
    | reserve =>
      have hFind : s.findFreeSlotUnlocked = some slot := hSlot
      simp only [System.execute, System.reserve, hFind] at hMem
      rw [push_threads_of_ne (by exact hSelf)] at hMem
      exact mem_setThread_code (Or.inl rfl) hMem
    | setContext slot' =>
      cases hSlot
      simp only [System.execute] at hMem
      rw [push_threads_of_ne (by exact hSelf)] at hMem
      exact mem_setThread_code (Or.inr rfl) hMem
    | releaseContext slot' =>
      cases hSlot
      exact mem_setThread_code (Or.inl rfl) hMem
    | exitFinish status => exact absurd hSlot.symm hSelf
    | _ => cases hSlot

theorem builds_execute {loaded : Bool} {stack : Nat} {act act' : Act} {i : Slot}
    (hMem : act' ∈ ((s.execute loaded stack act).threads t).code) (hBuilds : act'.builds = some i) :
    act' ∈ (s.threads t).code ∨
      t = s.self ∧ (act.builds = some i ∨ act = .reserve ∧ s.findFreeSlotUnlocked = some i) := by
  -- what is pushed either works on the slot of the act itself or does not belong to `process_create`
  have hPush : ∀ (s' : System) (acts : List Act), act' ∈ ((s'.push acts).threads t).code →
      s'.self = s.self →
      (act' ∈ acts → act.builds = some i ∨ act = .reserve ∧ s.findFreeSlotUnlocked = some i) →
      act' ∈ (s'.threads t).code ∨
        t = s.self ∧ (act.builds = some i ∨ act = .reserve ∧ s.findFreeSlotUnlocked = some i) := by
    intro s' acts hIn hSelf hActs
    rcases mem_push_code hIn with hOld | ⟨hEq, hNew⟩
    · exact Or.inl hOld
    · exact Or.inr ⟨hEq.trans hSelf, hActs hNew⟩
  have hReplaced : ∀ (s' : System) (slot : Slot) (thread : Thread),
      thread = haltedThread ∨ thread = freshThread →
      act' ∈ ((s'.setThread (some slot) thread).threads t).code → act' ∈ (s'.threads t).code := by
    intro s' slot thread hThread hIn
    rcases mem_setThread_code hThread hIn with hOld | rfl
    · exact hOld
    · cases hBuilds
  cases act with
  | reserve =>
    simp only [System.execute, System.reserve] at hMem
    split at hMem
    case h_1 => exact Or.inl (mem_setValue_code hMem)
    case h_2 slot hFind =>
      rcases hPush _ _ hMem rfl (by
        intro hIn
        rw [List.mem_singleton.mp hIn] at hBuilds
        exact Or.inr ⟨rfl, hFind.trans hBuilds⟩) with hOld | hNew
      · exact Or.inl (hReplaced _ _ _ (Or.inl rfl) hOld)
      · exact Or.inr hNew
  | load slot =>
    apply hPush _ _ hMem rfl
    intro hIn
    cases loaded <;> simp [releaseReservedSlotUnlocked] at hIn
    · left
      rcases hIn with rfl | rfl | rfl | rfl | rfl | rfl | rfl <;> first | exact hBuilds | cases hBuilds
    · left
      subst hIn
      exact hBuilds
  | checkStack slot =>
    apply hPush _ _ hMem rfl
    intro hIn
    left
    split at hIn
    · simp only [releaseReservedSlotUnlocked, List.mem_cons, List.not_mem_nil, or_false] at hIn
      rcases hIn with rfl | rfl | rfl | rfl | rfl | rfl | rfl <;> first | exact hBuilds | cases hBuilds
    · rw [List.mem_singleton.mp hIn] at hBuilds
      exact hBuilds
  | setParent slot | setExit slot | allocStack slot | setReady slot =>
    apply hPush _ _ hMem rfl
    intro hIn
    rw [List.mem_singleton.mp hIn] at hBuilds
    first
      | exact Or.inl hBuilds
      | cases hBuilds
  | setContext slot =>
    rcases hPush _ _ hMem rfl (by
      intro hIn
      rw [List.mem_singleton.mp hIn] at hBuilds
      exact Or.inl hBuilds) with hOld | hNew
    · exact Or.inl (hReplaced _ _ _ (Or.inr rfl) hOld)
    · exact Or.inr hNew
  | releaseContext slot => exact Or.inl (hReplaced _ _ _ (Or.inl rfl) hMem)
  | exitFinish status =>
    simp only [System.execute, System.exitFinish] at hMem
    split at hMem
    case h_1 => exact Or.inl hMem
    case h_2 slot hSelf => exact Or.inl (hReplaced _ _ _ (Or.inl rfl) hMem)
  | exitBegin status =>
    simp only [System.execute] at hMem
    split at hMem
    · exact Or.inl hMem
    · apply hPush _ _ hMem rfl
      intro hIn
      simp [killChildren] at hIn
      rcases hIn with rfl | rfl <;> cases hBuilds
  | schedule =>
    simp only [System.execute, processSchedule_threads] at hMem
    exact Or.inl hMem
  | startReady slot => exact Or.inl (mem_setValue_code hMem)
  | yieldReady =>
    simp only [System.execute] at hMem
    split at hMem <;> exact Or.inl hMem
  | childPid parent slot stack =>
    apply hPush _ _ hMem rfl
    intro hIn
    simp only [freeSlot, List.mem_append, List.mem_singleton] at hIn
    rcases hIn with hIn | rfl
    · split at hIn
      · simp only [List.mem_cons, List.not_mem_nil, or_false] at hIn
        rcases hIn with rfl | rfl | rfl <;> cases hBuilds
      · cases hIn
    · cases hBuilds
  | killCheck pid slot =>
    simp only [System.execute] at hMem
    split at hMem
    · exact Or.inl (mem_setValue_code hMem)
    · apply hPush _ _ hMem rfl
      intro hIn
      simp only [killChildren, freeSlot, List.cons_append, List.nil_append, List.mem_cons, List.not_mem_nil,
        or_false] at hIn
      rcases hIn with rfl | rfl | rfl | rfl | rfl <;> cases hBuilds
  | _ =>
    simp only [System.execute] at hMem
    (repeat' split at hMem) <;>
      first
        | exact Or.inl hMem
        | exact Or.inl (mem_setValue_code hMem)
        | (apply hPush _ _ hMem rfl
           intro hIn
           simp at hIn
           rcases hIn with rfl | rfl <;> cases hBuilds)

end Threads

end System

end UnixOS.Proc
