import Mathlib.Data.Fintype.Option
import UnixOS.Core.Process

/-! # What every run of `process.c` keeps

The schedulers, `process_exit`, `process_yield` and `process_kill` agree on who runs in every run,
whatever the timer interrupts. The numbers of the live processes need more: a store to a slot that
another thread has taken in between gives a live process the number zero.
-/

namespace UnixOS.Proc

theorem slotOf_index (i : Slot) : slotOf i.index = some i := by
  have hRange : 0 ≤ i.index ∧ i.index.toNat < maxProcesses := by
    have hLt := i.isLt
    simp only [Slot.index]
    omega
  rw [slotOf, dif_pos hRange]
  rfl

theorem Slot.index_injective : Function.Injective Slot.index := by
  intro i j hEq
  have hSome : some i = some j := by rw [← slotOf_index i, ← slotOf_index j, hEq]
  exact Option.some.inj hSome

theorem Slot.index_ne_neg_one (i : Slot) : i.index ≠ -1 := by
  simp only [Slot.index]
  omega

/-- The slot an act of `process_create` or of a kill may free. -/
def Act.target : Act → Option Slot
  | .load slot | .setParent slot | .setExit slot | .allocStack slot | .checkStack slot
  | .setContext slot | .setReady slot
  | .releaseState slot | .releasePid slot | .releaseStack slot | .releaseExit slot
  | .releaseParent slot | .releaseContext slot
  | .stackCheck slot | .stackClear slot | .freeState slot | .freePid slot => some slot
  | _ => none

namespace System

/-! ### Fields after an update -/

section Fields

variable (s : System) (t : Option Slot) (thread : Thread) (i : Slot) (f : Process → Process)
  (acts : List Act) (value : Int) (state : ProcState)

@[simp] theorem setThread_procTable : (s.setThread t thread).procTable = s.procTable := rfl
@[simp] theorem setThread_currentPid : (s.setThread t thread).currentPid = s.currentPid := rfl
@[simp] theorem setThread_currentProcess :
    (s.setThread t thread).currentProcess = s.currentProcess := rfl
@[simp] theorem setThread_nextPid : (s.setThread t thread).nextPid = s.nextPid := rfl
@[simp] theorem setThread_self : (s.setThread t thread).self = s.self := rfl

@[simp] theorem push_procTable : (s.push acts).procTable = s.procTable := rfl
@[simp] theorem push_currentPid : (s.push acts).currentPid = s.currentPid := rfl
@[simp] theorem push_self : (s.push acts).self = s.self := rfl

@[simp] theorem setValue_procTable : (s.setValue value).procTable = s.procTable := rfl

@[simp] theorem setCode_procTable : (s.setCode acts).procTable = s.procTable := rfl
@[simp] theorem setCode_currentPid : (s.setCode acts).currentPid = s.currentPid := rfl
@[simp] theorem setCode_currentProcess : (s.setCode acts).currentProcess = s.currentProcess := rfl
@[simp] theorem setCode_self : (s.setCode acts).self = s.self := rfl

@[simp] theorem modify_currentPid : (s.modify i f).currentPid = s.currentPid := rfl
@[simp] theorem modify_currentProcess : (s.modify i f).currentProcess = s.currentProcess := rfl
@[simp] theorem modify_nextPid : (s.modify i f).nextPid = s.nextPid := rfl
@[simp] theorem modify_threads : (s.modify i f).threads = s.threads := rfl
@[simp] theorem modify_self : (s.modify i f).self = s.self := rfl

@[simp] theorem setState_currentPid : (s.setState i state).currentPid = s.currentPid := rfl
@[simp] theorem setState_currentProcess :
    (s.setState i state).currentProcess = s.currentProcess := rfl
@[simp] theorem setState_self : (s.setState i state).self = s.self := rfl

theorem modify_procTable :
    (s.modify i f).procTable = Function.update s.procTable i (f (s.procTable i)) := rfl

end Fields

structure Sound (s : System) : Prop where
  running : ∀ i, (s.procTable i).state = .running → s.currentProcess = some i
  currentPid_eq : s.currentPid = (s.currentProcess.map Slot.index).getD (-1)
  seated : ∀ i, s.currentProcess = some i → (s.procTable i).state ≠ .free
  nextPid_pos : 0 < s.nextPid
  pid_range : ∀ i, 0 ≤ (s.procTable i).pid ∧ (s.procTable i).pid < s.nextPid
  pid_distinct : ∀ i j, (s.procTable i).pid = (s.procTable j).pid → (s.procTable i).pid ≠ 0 → i = j
  target_ne : ∀ t act i, act ∈ (s.threads t).code → act.target = some i → t ≠ some i

def Tidy (s : System) : Prop := ∀ i, (s.procTable i).state ≠ .free → (s.procTable i).pid ≠ 0

theorem sound_processInit : processInit.Sound where
  running := by
    intro i hRunning
    cases hRunning
  currentPid_eq := rfl
  seated := by
    intro i hSome
    cases hSome
  nextPid_pos := by decide
  pid_range := fun _ => ⟨le_refl 0, Int.one_pos⟩
  pid_distinct := fun _ _ _ hNe => absurd rfl hNe
  target_ne := by
    intro t act i hMem hTarget
    simp only [processInit] at hMem
    split at hMem
    · simp [freshThread] at hMem
    · simp only [haltedThread, List.mem_singleton] at hMem
      subst hMem
      cases hTarget

theorem tidy_processInit : processInit.Tidy := fun _ hState => absurd rfl hState

section Updates

variable {s : System} (h : s.Sound)
include h

theorem Sound.self_eq : s.self = s.currentProcess := by
  unfold self
  rw [h.currentPid_eq]
  cases s.currentProcess with
  | none => rfl
  | some i => exact slotOf_index i

theorem Sound.index_eq_iff (i : Slot) : i.index = s.currentPid ↔ s.self = some i := by
  rw [h.self_eq, h.currentPid_eq]
  cases s.currentProcess with
  | none =>
    constructor
    · intro hEq
      exact absurd hEq i.index_ne_neg_one
    · intro hEq
      cases hEq
  | some j =>
    constructor
    · intro hEq
      rw [Slot.index_injective hEq]
    · intro hEq
      rw [Option.some.inj hEq]
      rfl

theorem Sound.setThread {t : Option Slot} {thread : Thread}
    (hTarget : ∀ act ∈ thread.code, ∀ i, act.target = some i → t ≠ some i) :
    (s.setThread t thread).Sound where
  running := h.running
  currentPid_eq := h.currentPid_eq
  seated := h.seated
  nextPid_pos := h.nextPid_pos
  pid_range := h.pid_range
  pid_distinct := h.pid_distinct
  target_ne := by
    intro t' act i hMem hAct
    by_cases hEq : t' = t
    · subst hEq
      simp only [System.setThread, Function.update_self] at hMem
      exact hTarget act hMem i hAct
    · simp only [System.setThread, Function.update_of_ne hEq] at hMem
      exact h.target_ne t' act i hMem hAct

theorem Sound.push {acts : List Act}
    (hTarget : ∀ act ∈ acts, ∀ i, act.target = some i → s.self ≠ some i) :
    (s.push acts).Sound := by
  apply h.setThread
  intro act hMem i hAct
  rcases List.mem_append.mp hMem with hNew | hOld
  · exact hTarget act hNew i hAct
  · exact h.target_ne _ act i hOld hAct

theorem Sound.setValue (value : Int) : (s.setValue value).Sound :=
  h.setThread fun act hMem i hAct => h.target_ne _ act i hMem hAct

theorem Sound.modify {i : Slot} {f : Process → Process}
    (hPid : (f (s.procTable i)).pid = (s.procTable i).pid ∨ (f (s.procTable i)).pid = 0)
    (hRunning : (f (s.procTable i)).state = .running → s.currentProcess = some i)
    (hFree : (f (s.procTable i)).state = .free →
      (s.procTable i).state = .free ∨ s.currentProcess ≠ some i) :
    (s.modify i f).Sound where
  running := by
    intro j
    by_cases hEq : j = i
    · subst hEq
      simpa [modify_procTable] using hRunning
    · simpa [modify_procTable, hEq] using h.running j
  currentPid_eq := h.currentPid_eq
  seated := by
    intro j hSome
    have hSome' : s.currentProcess = some j := hSome
    have hSeated := h.seated j hSome'
    by_cases hEq : j = i
    · subst hEq
      rw [modify_procTable, Function.update_self]
      intro hNew
      rcases hFree hNew with hOld | hNe
      · exact hSeated hOld
      · exact hNe hSome'
    · simpa [modify_procTable, hEq] using hSeated
  nextPid_pos := h.nextPid_pos
  pid_range := by
    intro j
    have hRange := h.pid_range j
    by_cases hEq : j = i
    · subst hEq
      rw [modify_procTable, Function.update_self]
      rcases hPid with hSame | hZero
      · rw [hSame]
        exact hRange
      · rw [hZero]
        exact ⟨le_refl 0, h.nextPid_pos⟩
    · simpa [modify_procTable, hEq] using hRange
  pid_distinct := by
    have hOld : ∀ j, ((s.modify i f).procTable j).pid ≠ 0 →
        ((s.modify i f).procTable j).pid = (s.procTable j).pid := by
      intro j hNe
      by_cases hEq : j = i
      · subst hEq
        rw [modify_procTable, Function.update_self] at hNe ⊢
        exact hPid.resolve_right hNe
      · simp [modify_procTable, hEq]
    intro j k hEq hNe
    have hJ := hOld j hNe
    have hK := hOld k (by rwa [← hEq])
    exact h.pid_distinct j k (by rw [← hJ, ← hK, hEq]) (by rwa [← hJ])
  target_ne := h.target_ne

end Updates

/-! ### The schedulers -/

section Schedulers

variable {s : System}

theorem modify_state {i : Slot} {f : Process → Process} (hState : ∀ p, (f p).state = p.state)
    (j : Slot) : ((s.modify i f).procTable j).state = (s.procTable j).state := by
  by_cases hEq : j = i
  · subst hEq
    rw [modify_procTable, Function.update_self, hState]
  · rw [modify_procTable, Function.update_of_ne hEq]

theorem modify_pid {i : Slot} {f : Process → Process} (hPid : ∀ p, (f p).pid = p.pid) (j : Slot) :
    ((s.modify i f).procTable j).pid = (s.procTable j).pid := by
  by_cases hEq : j = i
  · subst hEq
    rw [modify_procTable, Function.update_self, hPid]
  · rw [modify_procTable, Function.update_of_ne hEq]

theorem setState_state (i : Slot) (state : ProcState) (j : Slot) :
    ((s.setState i state).procTable j).state = if j = i then state else (s.procTable j).state := by
  by_cases hEq : j = i
  · simp [setState, modify, hEq]
  · simp [setState, modify, hEq]

theorem setState_pid (i : Slot) (state : ProcState) (j : Slot) :
    ((s.setState i state).procTable j).pid = (s.procTable j).pid := by
  apply modify_pid
  intro p
  rfl

structure SamePids (s s' : System) : Prop where
  pid : ∀ i, (s'.procTable i).pid = (s.procTable i).pid
  nextPid : s'.nextPid = s.nextPid
  threads : s'.threads = s.threads

theorem samePids_switchTo (next : Option Slot) : SamePids s (s.switchTo next) := by
  have hSave : SamePids s s.saveContext := by
    unfold saveContext
    split
    · exact ⟨fun i => modify_pid (fun _ => by rfl) i, rfl, rfl⟩
    · exact ⟨fun _ => rfl, rfl, rfl⟩
  exact ⟨hSave.pid, hSave.nextPid, hSave.threads⟩

theorem samePids_dispatch (next : Slot) : SamePids s (s.dispatch next) := by
  have hReady : SamePids s s.deschedule := by
    simp only [deschedule]
    cases s.self with
    | none => exact ⟨fun _ => rfl, rfl, rfl⟩
    | some old =>
      dsimp only
      split
      · exact ⟨fun i => setState_pid _ _ i, rfl, rfl⟩
      · exact ⟨fun _ => rfl, rfl, rfl⟩
  have hSwitch := samePids_switchTo (s := s.deschedule.setState next .running) (some next)
  exact ⟨fun i => by rw [dispatch, hSwitch.pid, setState_pid, hReady.pid],
    hSwitch.nextPid.trans hReady.nextPid, hSwitch.threads.trans hReady.threads⟩

theorem switchTo_state (next : Option Slot) (i : Slot) :
    ((s.switchTo next).procTable i).state = (s.procTable i).state := by
  have hSave : (s.saveContext.procTable i).state = (s.procTable i).state := by
    unfold saveContext
    split
    · exact modify_state (fun _ => by rfl) i
    · rfl
  exact hSave

theorem deschedule_state (i : Slot) :
    (s.deschedule.procTable i).state =
      if s.self = some i ∧ (s.procTable i).state = .running then .ready
      else (s.procTable i).state := by
  simp only [deschedule]
  cases hSelf : s.self with
  | none => simp
  | some old =>
    by_cases hOld : (s.procTable old).state = .running
    · simp only [hOld, if_true, setState_state, Option.some.injEq]
      by_cases hEq : i = old
      · simp [hEq, hOld]
      · have hEq' : old ≠ i := fun hSym => hEq hSym.symm
        simp [hEq, hEq']
    · simp only [hOld, if_false, Option.some.injEq]
      by_cases hEq : old = i
      · simp [← hEq, hOld]
      · simp [hEq]

theorem dispatch_state (next i : Slot) :
    ((s.dispatch next).procTable i).state =
      if i = next then .running
      else if s.self = some i ∧ (s.procTable i).state = .running then .ready
      else (s.procTable i).state := by
  rw [dispatch, switchTo_state, setState_state, deschedule_state]

theorem Sound.reseat {s' : System} (h : s.Sound) (hSame : SamePids s s')
    (hCurrent : s'.currentPid = (s'.currentProcess.map Slot.index).getD (-1))
    (hRunning : ∀ i, (s'.procTable i).state = .running → s'.currentProcess = some i)
    (hSeated : ∀ i, s'.currentProcess = some i → (s'.procTable i).state ≠ .free) : s'.Sound where
  running := hRunning
  currentPid_eq := hCurrent
  seated := hSeated
  nextPid_pos := by
    rw [hSame.nextPid]
    exact h.nextPid_pos
  pid_range := by
    intro i
    rw [hSame.pid, hSame.nextPid]
    exact h.pid_range i
  pid_distinct := by
    intro i j
    rw [hSame.pid, hSame.pid]
    exact h.pid_distinct i j
  target_ne := by
    rw [hSame.threads]
    exact h.target_ne

theorem Sound.dispatch (h : s.Sound) (next : Slot) : (s.dispatch next).Sound := by
  apply h.reseat (samePids_dispatch next) rfl
  · intro i hRunning
    rw [dispatch_state] at hRunning
    change some next = some i
    by_cases hEq : i = next
    · rw [hEq]
    · rw [if_neg hEq] at hRunning
      split at hRunning
      · cases hRunning
      · next hOther =>
        have hSelf := h.self_eq.trans (h.running i hRunning)
        exact absurd ⟨hSelf, hRunning⟩ hOther
  · intro i hSome
    have hEq : i = next := (Option.some.inj hSome).symm
    rw [dispatch_state, if_pos hEq]
    decide

theorem Sound.processSchedule (h : s.Sound) : s.processSchedule.Sound := by
  simp only [System.processSchedule]
  split
  · split
    · next old hSelf =>
      split
      · exact h
      · next hState =>
        apply h.reseat (samePids_switchTo none) rfl
        · intro i hRunning
          rw [switchTo_state] at hRunning
          have hOld : some i = some old := by
            rw [← h.running i hRunning, ← h.self_eq, hSelf]
          exact absurd (Option.some.inj hOld ▸ hRunning) hState
        · intro i hSome
          cases hSome
    · exact h
  · split
    · exact h
    · split
      · next hSelf =>
        apply h.modify
        · exact Or.inl rfl
        · intro _
          rw [← h.self_eq, hSelf.1]
        · intro hFree
          cases hFree
      · exact h.dispatch _

theorem Sound.processPreemptFromIrq (h : s.Sound) : s.processPreemptFromIrq.Sound := by
  have hTicks : ∀ ticks, { s with preemptTicks := ticks }.Sound := fun _ =>
    ⟨h.running, h.currentPid_eq, h.seated, h.nextPid_pos, h.pid_range, h.pid_distinct, h.target_ne⟩
  simp only [System.processPreemptFromIrq]
  split
  · exact hTicks _
  · split
    · exact hTicks 0
    · split
      · exact hTicks 0
      · split
        · exact hTicks 0
        · split
          · exact hTicks 0
          · exact (hTicks 0).dispatch _

end Schedulers

/-! ### Acts -/

section Acts

variable {s : System} (h : s.Sound)
include h

theorem Sound.reserve : s.reserve.Sound := by
  simp only [System.reserve]
  cases hFind : s.findFreeSlotUnlocked with
  | none => exact h.setValue (-1)
  | some slot =>
    have hFree : (s.procTable slot).state = .free := by
      simpa using List.find?_some hFind
    have hOther : s.currentProcess ≠ some slot := fun hSome => h.seated slot hSome hFree
    have hSound : System.Sound
        { (s.modify slot fun _ => reservedProcess s.nextPid).setThread (some slot) haltedThread with
          nextPid := s.nextPid + 1
          born := Function.update s.born slot s.nextPid
          creator := Function.update s.creator s.nextPid (s.self.map s.born) } := by
      have hNext := h.nextPid_pos
      constructor
      · intro i hRunning
        by_cases hEq : i = slot
        · simp [modify_procTable, hEq, reservedProcess] at hRunning
        · simp only [setThread_procTable, modify_procTable, Function.update_of_ne hEq] at hRunning
          exact h.running i hRunning
      · exact h.currentPid_eq
      · intro i hSome
        have hEq : i ≠ slot := fun hEq => hOther (hEq ▸ hSome)
        simp only [setThread_procTable, modify_procTable, Function.update_of_ne hEq]
        exact h.seated i hSome
      · simp only
        omega
      · intro i
        have hRange := h.pid_range i
        by_cases hEq : i = slot
        · simp only [setThread_procTable, modify_procTable, hEq, Function.update_self,
            reservedProcess]
          omega
        · simp only [setThread_procTable, modify_procTable, Function.update_of_ne hEq]
          omega
      · intro i j
        have hI := (h.pid_range i).2
        have hJ := (h.pid_range j).2
        simp only [setThread_procTable, modify_procTable]
        by_cases hEqI : i = slot
        · by_cases hEqJ : j = slot
          · intro _ _
            rw [hEqI, hEqJ]
          · simp only [hEqI, Function.update_self, Function.update_of_ne hEqJ, reservedProcess]
            intro hEq
            omega
        · by_cases hEqJ : j = slot
          · simp only [hEqJ, Function.update_self, Function.update_of_ne hEqI, reservedProcess]
            intro hEq
            omega
          · simp only [Function.update_of_ne hEqI, Function.update_of_ne hEqJ]
            exact h.pid_distinct i j
      · intro t act i hMem hAct
        by_cases hEq : t = some slot
        · subst hEq
          simp only [System.setThread, Function.update_self, haltedThread,
            List.mem_singleton] at hMem
          subst hMem
          cases hAct
        · simp only [System.setThread, Function.update_of_ne hEq, modify_threads] at hMem
          exact h.target_ne t act i hMem hAct
    apply hSound.push
    intro act hMem i hAct
    rw [List.mem_singleton] at hMem
    subst hMem
    cases hAct
    exact fun hSelf => hOther (h.self_eq ▸ hSelf)

theorem Sound.exitFinish (status : Int) : (s.exitFinish status).Sound := by
  simp only [System.exitFinish]
  split
  · exact h
  · next slot hSelf =>
    have hCurrent : s.currentProcess = some slot := h.self_eq ▸ hSelf
    have hHalted : (s.setThread (some slot) haltedThread).Sound := by
      apply h.setThread
      intro act hMem i hAct
      simp only [haltedThread, List.mem_singleton] at hMem
      subst hMem
      cases hAct
    have hPid : ∀ i, ((s.modify slot (Process.exited status)).procTable i).pid =
        (s.procTable i).pid := fun i => modify_pid (fun _ => by rfl) i
    constructor
    · intro i hRunning
      by_cases hEq : i = slot
      · simp [modify_procTable, hEq, Process.exited] at hRunning
      · simp only [setThread_procTable, modify_procTable, Function.update_of_ne hEq] at hRunning
        have hSame : some slot = some i := hCurrent ▸ h.running i hRunning
        exact absurd (Option.some.inj hSame).symm hEq
    · rfl
    · intro i hSome
      cases hSome
    · exact h.nextPid_pos
    · intro i
      simp only [setThread_procTable, hPid]
      exact h.pid_range i
    · intro i j
      simp only [setThread_procTable, hPid]
      exact h.pid_distinct i j
    · exact hHalted.target_ne

theorem Sound.setCode {rest : List Act} (hRest : ∀ act ∈ rest, act ∈ s.code) :
    (s.setCode rest).Sound :=
  h.setThread fun act hMem i hAct => h.target_ne _ act i (hRest act hMem) hAct

theorem Sound.modifyOther {i : Slot} {f : Process → Process} (hPid : ∀ p, (f p).pid = p.pid)
    (hState : ∀ p, (f p).state = p.state) : (s.modify i f).Sound := by
  apply h.modify
  · exact Or.inl (hPid _)
  · intro hRunning
    rw [hState] at hRunning
    exact h.running i hRunning
  · intro hFree
    rw [hState] at hFree
    exact Or.inl hFree

theorem Sound.clearPid (i : Slot) : (s.modify i fun p => { p with pid := 0 }).Sound :=
  h.modify (Or.inr rfl) (fun hRunning => h.running i hRunning) (fun hFree => Or.inl hFree)

theorem Sound.setReady (i : Slot) : (s.setState i .ready).Sound :=
  h.modify (Or.inl rfl) (fun hRunning => by cases hRunning) (fun hFree => by cases hFree)

theorem Sound.setFree {i : Slot} (hOther : s.self ≠ some i) : (s.setState i .free).Sound :=
  h.modify (Or.inl rfl) (fun hRunning => by cases hRunning)
    (fun _ => Or.inr (h.self_eq ▸ hOther))

theorem Sound.haltSlot (i : Slot) : (s.setThread (some i) haltedThread).Sound := by
  apply h.setThread
  intro act hMem j hAct
  simp only [haltedThread, List.mem_singleton] at hMem
  subst hMem
  cases hAct

theorem Sound.freshSlot (i : Slot) : (s.setThread (some i) freshThread).Sound := by
  apply h.setThread
  intro act hMem
  cases hMem

theorem Sound.execute (loaded : Bool) (stack : Nat) {act : Act}
    (hTarget : ∀ i, act.target = some i → s.self ≠ some i) :
    (s.execute loaded stack act).Sound := by
  cases act with
  | reserve => exact h.reserve
  | load slot =>
    have hSelf := hTarget slot rfl
    cases loaded
    · exact h.push (by simpa [releaseReservedSlotUnlocked, Act.target] using hSelf)
    · exact h.push (by simpa [Act.target] using hSelf)
  | setParent slot =>
    apply Sound.push (h.modifyOther (fun _ => by rfl) (fun _ => by rfl))
    simpa [Act.target] using hTarget slot rfl
  | setExit slot =>
    apply Sound.push (h.modifyOther (fun _ => by rfl) (fun _ => by rfl))
    simpa [Act.target] using hTarget slot rfl
  | allocStack slot =>
    apply Sound.push (h.modifyOther (fun _ => by rfl) (fun _ => by rfl))
    simpa [Act.target] using hTarget slot rfl
  | checkStack slot =>
    have hSelf := hTarget slot rfl
    simp only [System.execute]
    split
    · exact h.push (by simpa [releaseReservedSlotUnlocked, Act.target] using hSelf)
    · exact h.push (by simpa [Act.target] using hSelf)
  | setContext slot =>
    have hSet : (s.modify slot fun p => { p with context := true }).Sound :=
      h.modifyOther (fun _ => by rfl) (fun _ => by rfl)
    apply (hSet.freshSlot slot).push
    simpa [Act.target] using hTarget slot rfl
  | setReady slot =>
    apply (h.setReady slot).push
    simp [Act.target]
  | readPid slot => exact h.setValue _
  | releaseState slot => exact h.setFree (hTarget slot rfl)
  | releasePid slot => exact h.clearPid slot
  | releaseStack slot =>
    simp only [System.execute]
    exact h.modifyOther (fun _ => by rfl) (fun _ => by rfl)
  | releaseExit slot =>
    simp only [System.execute]
    exact h.modifyOther (fun _ => by rfl) (fun _ => by rfl)
  | releaseParent slot =>
    simp only [System.execute]
    exact h.modifyOther (fun _ => by rfl) (fun _ => by rfl)
  | releaseContext slot =>
    have hSet : (s.modify slot fun p => { p with context := false }).Sound :=
      h.modifyOther (fun _ => by rfl) (fun _ => by rfl)
    exact hSet.haltSlot slot
  | startGet pid =>
    simp only [System.execute]
    split
    · exact h.setValue _
    · exact h.push (by simp [Act.target])
  | startCheck slot =>
    simp only [System.execute]
    split
    · exact h.setValue _
    · exact h.push (by simp [Act.target])
  | startReady slot => exact (h.setReady slot).setValue 0
  | exitBegin status =>
    have hIrq : { s with irq := false }.Sound :=
      ⟨h.running, h.currentPid_eq, h.seated, h.nextPid_pos, h.pid_range, h.pid_distinct,
        h.target_ne⟩
    simp only [System.execute]
    split
    · exact h
    · exact hIrq.push (by simp [killChildren, Act.target])
  | exitFinish status => exact h.exitFinish status
  | yieldReady =>
    simp only [System.execute]
    split
    · exact h
    · exact h.setReady _
  | schedule => exact h.processSchedule
  | execCreated =>
    simp only [System.execute]
    split
    · exact h
    · exact h.push (by simp [Act.target])
  | execFind pid i =>
    simp only [System.execute]
    split
    · split
      · exact h.push (by simp [Act.target])
      · exact h.push (by simp [Act.target])
    · exact h.setValue _
  | execWait slot =>
    simp only [System.execute]
    split
    · exact h.push (by simp [Act.target])
    · exact h.push (by simp [Act.target])
  | execResult slot => exact h.setValue _
  | killEnter pid =>
    simp only [System.execute]
    split
    · exact h.setValue _
    · exact h.push (by simp [Act.target])
  | killFindPid pid i =>
    simp only [System.execute]
    split
    · split
      · exact h.push (by simp [Act.target])
      · exact h.push (by simp [Act.target])
    · exact h.setValue _
  | killFindState pid slot =>
    simp only [System.execute]
    split
    · exact h.push (by simp [Act.target])
    · exact h.push (by simp [Act.target])
  | killCheck pid slot =>
    simp only [System.execute]
    split
    · exact h.setValue _
    · next hIndex =>
      rw [h.index_eq_iff] at hIndex
      exact h.push (by simpa [killChildren, freeSlot, Act.target] using hIndex)
  | popParent stack =>
    cases stack with
    | nil => exact h
    | cons parent rest => exact h.push (by simp [Act.target])
  | childState parent i stack =>
    simp only [System.execute]
    split
    · split
      · exact h.push (by simp [Act.target])
      · exact h.push (by simp [Act.target])
    · exact h.push (by simp [Act.target])
  | childParent parent slot stack =>
    simp only [System.execute]
    split
    · exact h.push (by simp [Act.target])
    · exact h.push (by simp [Act.target])
  | childPid parent slot stack =>
    simp only [System.execute]
    apply h.push
    split
    · next hIndex =>
      rw [Ne, h.index_eq_iff] at hIndex
      simpa [freeSlot, Act.target] using hIndex
    · simp [Act.target]
  | stackCheck slot =>
    simp only [System.execute]
    split
    · exact h.push (by simpa [Act.target] using hTarget slot rfl)
    · exact h
  | stackClear slot =>
    simp only [System.execute]
    exact h.modifyOther (fun _ => by rfl) (fun _ => by rfl)
  | freeState slot => exact h.setFree (hTarget slot rfl)
  | freePid slot => exact h.clearPid slot
  | ret value => exact h.setValue value
  | halted => exact h.push (by simp [Act.target])

theorem Sound.runAct (loaded : Bool) (stack : Nat) : (s.runAct loaded stack).Sound := by
  simp only [System.runAct]
  split
  · exact h
  · next act rest hCode =>
    have hMem : ∀ act' ∈ act :: rest, act' ∈ s.code := fun act' hMem => hCode ▸ hMem
    have hRest : (s.setCode rest).Sound := by
      apply h.setCode
      intro act' hRest
      exact hMem act' (List.mem_cons_of_mem act hRest)
    apply hRest.execute
    intro i hAct
    exact h.target_ne _ act i (hMem act List.mem_cons_self) hAct

theorem Sound.step (event : Event) : (s.step event).Sound := by
  cases event with
  | call c =>
    simp only [System.step]
    split
    · apply h.push
      cases c <;> simp [Call.code, Act.target]
    · exact h
  | run loaded stack => exact h.runAct loaded stack
  | timer =>
    simp only [System.step]
    split
    · exact h.processPreemptFromIrq
    · exact h

end Acts

theorem Sound.after {s : System} (h : s.Sound) (events : List Event) : (s.after events).Sound := by
  induction events generalizing s with
  | nil => exact h
  | cons event events ih => exact ih (h.step event)

/-! ### Numbers -/

/-- A store of process number zero finds its slot FREE, and a store of READY finds a process in its
slot. -/
def ActInOrder (s : System) : Act → Prop
  | .releasePid slot | .freePid slot => (s.procTable slot).state = .free
  | .setReady slot | .startReady slot => (s.procTable slot).pid ≠ 0
  | _ => True

def InOrder (s : System) : Event → Prop
  | .run _ _ => ∀ act, s.code.head? = some act → s.ActInOrder act
  | _ => True

section Numbers

variable {s : System} (hTidy : s.Tidy)
include hTidy

theorem Tidy.of_eq {s' : System} (hPid : ∀ i, (s'.procTable i).pid = (s.procTable i).pid)
    (hState : ∀ i, (s'.procTable i).state ≠ .free → (s.procTable i).state ≠ .free) : s'.Tidy := by
  intro i hLive
  rw [hPid]
  exact hTidy i (hState i hLive)

theorem Tidy.modify_iff {i : Slot} {f : Process → Process} :
    (s.modify i f).Tidy ↔
      ((f (s.procTable i)).state ≠ .free → (f (s.procTable i)).pid ≠ 0) := by
  constructor
  · intro hNew
    have hAt := hNew i
    rwa [modify_procTable, Function.update_self] at hAt
  · intro hAt j
    by_cases hEq : j = i
    · subst hEq
      rwa [modify_procTable, Function.update_self]
    · rw [modify_procTable, Function.update_of_ne hEq]
      exact hTidy j

theorem Tidy.modifyOther {i : Slot} {f : Process → Process} (hPid : ∀ p, (f p).pid = p.pid)
    (hState : ∀ p, (f p).state = p.state) : (s.modify i f).Tidy := by
  rw [hTidy.modify_iff, hPid, hState]
  exact hTidy i

theorem Tidy.push (acts : List Act) : (s.push acts).Tidy := hTidy

theorem Tidy.setThread (t : Option Slot) (thread : Thread) : (s.setThread t thread).Tidy := hTidy

theorem Tidy.setState {i : Slot} (state : ProcState) (hLive : (s.procTable i).state ≠ .free) :
    (s.setState i state).Tidy :=
  hTidy.modify_iff.mpr fun _ => hTidy i hLive

theorem Tidy.setReady_iff (i : Slot) :
    (s.setState i .ready).Tidy ↔ (s.procTable i).pid ≠ 0 := by
  rw [System.setState, hTidy.modify_iff]
  exact ⟨fun hNew => hNew (fun hFree => by cases hFree), fun hPid _ => hPid⟩

theorem Tidy.setFree (i : Slot) : (s.setState i .free).Tidy :=
  hTidy.modify_iff.mpr fun hNe => absurd rfl hNe

theorem Tidy.clearPid_iff (i : Slot) :
    (s.modify i fun p => { p with pid := 0 }).Tidy ↔ (s.procTable i).state = .free := by
  rw [hTidy.modify_iff]
  constructor
  · intro hNew
    by_contra hLive
    exact hNew hLive rfl
  · intro hFree hLive
    exact absurd hFree hLive

theorem Tidy.dispatch {next : Slot} (hLive : (s.procTable next).state ≠ .free) :
    (s.dispatch next).Tidy := by
  apply hTidy.of_eq (samePids_dispatch next).pid
  intro i hNew
  rw [dispatch_state] at hNew
  split at hNew
  · next hEq =>
    rw [hEq]
    exact hLive
  · split at hNew
    · next hRunning =>
      rw [hRunning.2]
      decide
    · exact hNew

theorem Tidy.processSchedule : s.processSchedule.Tidy := by
  simp only [System.processSchedule]
  split
  · split
    · split
      · exact hTidy
      · apply hTidy.of_eq (samePids_switchTo none).pid
        intro i hNew
        rwa [switchTo_state] at hNew
    · exact hTidy
  · next next hFind =>
    have hReady : (s.procTable next).state = .ready := by
      simpa using List.find?_some hFind
    have hLive : (s.procTable next).state ≠ .free := by
      rw [hReady]
      decide
    split
    · exact hTidy
    · split
      · exact hTidy.setState _ hLive
      · exact hTidy.dispatch hLive

theorem Tidy.processPreemptFromIrq : s.processPreemptFromIrq.Tidy := by
  simp only [System.processPreemptFromIrq]
  split
  · exact hTidy
  · split
    · exact hTidy
    · split
      · exact hTidy
      · split
        · exact hTidy
        · next next hFind =>
          have hReady : (s.procTable next).state = .ready := by
            have hFound := List.find?_some hFind
            simp only [Bool.and_eq_true, decide_eq_true_eq] at hFound
            exact hFound.1
          have hTicks : { s with preemptTicks := 0 }.Tidy := hTidy
          split
          · exact hTidy
          · apply hTicks.dispatch
            rw [hReady]
            decide

theorem Tidy.reserve (h : s.Sound) : s.reserve.Tidy := by
  simp only [System.reserve]
  split
  · exact hTidy
  · next slot _ =>
    have hNew : (s.modify slot fun _ => reservedProcess s.nextPid).Tidy := by
      rw [hTidy.modify_iff]
      exact fun _ => ne_of_gt h.nextPid_pos
    exact hNew

theorem Tidy.exitFinish (status : Int) : (s.exitFinish status).Tidy := by
  simp only [System.exitFinish]
  split
  · exact hTidy
  · next slot _ =>
    have hNew : (s.modify slot (Process.exited status)).Tidy := by
      rw [hTidy.modify_iff]
      exact fun hNe => absurd rfl hNe
    exact hNew

theorem Tidy.execute_iff (h : s.Sound) (loaded : Bool) (stack : Nat) (act : Act) :
    (s.execute loaded stack act).Tidy ↔ s.ActInOrder act := by
  cases act with
  | reserve => exact iff_of_true (hTidy.reserve h) trivial
  | setParent slot =>
    refine iff_of_true ?_ trivial
    simp only [System.execute]
    exact (hTidy.modifyOther (fun _ => by rfl) (fun _ => by rfl)).push _
  | setExit slot =>
    refine iff_of_true ?_ trivial
    simp only [System.execute]
    exact (hTidy.modifyOther (fun _ => by rfl) (fun _ => by rfl)).push _
  | allocStack slot =>
    refine iff_of_true ?_ trivial
    simp only [System.execute]
    exact (hTidy.modifyOther (fun _ => by rfl) (fun _ => by rfl)).push _
  | setContext slot =>
    refine iff_of_true ?_ trivial
    simp only [System.execute]
    exact ((hTidy.modifyOther (fun _ => by rfl) (fun _ => by rfl)).setThread _ _).push _
  | setReady slot => exact hTidy.setReady_iff slot
  | releaseState slot => exact iff_of_true (hTidy.setFree slot) trivial
  | releasePid slot => exact hTidy.clearPid_iff slot
  | releaseStack slot =>
    refine iff_of_true ?_ trivial
    simp only [System.execute]
    exact hTidy.modifyOther (fun _ => by rfl) (fun _ => by rfl)
  | releaseExit slot =>
    refine iff_of_true ?_ trivial
    simp only [System.execute]
    exact hTidy.modifyOther (fun _ => by rfl) (fun _ => by rfl)
  | releaseParent slot =>
    refine iff_of_true ?_ trivial
    simp only [System.execute]
    exact hTidy.modifyOther (fun _ => by rfl) (fun _ => by rfl)
  | releaseContext slot =>
    refine iff_of_true ?_ trivial
    simp only [System.execute]
    exact (hTidy.modifyOther (fun _ => by rfl) (fun _ => by rfl)).setThread _ _
  | startReady slot => exact hTidy.setReady_iff slot
  | exitFinish status => exact iff_of_true (hTidy.exitFinish status) trivial
  | yieldReady =>
    refine iff_of_true ?_ trivial
    simp only [System.execute]
    split
    · exact hTidy
    · next slot hSelf =>
      apply hTidy.setState
      apply h.seated
      rw [← h.self_eq, hSelf]
  | schedule => exact iff_of_true hTidy.processSchedule trivial
  | stackClear slot =>
    refine iff_of_true ?_ trivial
    simp only [System.execute]
    exact hTidy.modifyOther (fun _ => by rfl) (fun _ => by rfl)
  | freeState slot => exact iff_of_true (hTidy.setFree slot) trivial
  | freePid slot => exact hTidy.clearPid_iff slot
  | _ =>
    -- The other acts only read the table.
    refine iff_of_true ?_ trivial
    simp only [System.execute]
    (repeat' split) <;> exact hTidy

end Numbers

/-- At most one slot is RUNNING, the two variables that say who runs agree with it, and the live
processes have numbers of their own. -/
structure Consistent (s : System) : Prop where
  runningUnique : ∀ i j, (s.procTable i).state = .running → (s.procTable j).state = .running → i = j
  running : ∀ i, (s.procTable i).state = .running → s.currentPid = i.index
  null : s.currentProcess = none ↔ s.currentPid = -1
  current : s.currentPid ≠ -1 →
    ∃ i, s.currentPid = i.index ∧ s.currentProcess = some i ∧ (s.procTable i).state ≠ .free
  pidPositive : ∀ i, (s.procTable i).state ≠ .free → 0 < (s.procTable i).pid
  pidDistinct : ∀ i j, (s.procTable i).state ≠ .free → (s.procTable j).state ≠ .free →
    (s.procTable i).pid = (s.procTable j).pid → i = j

theorem Sound.consistent_iff {s : System} (h : s.Sound) : s.Consistent ↔ s.Tidy := by
  have hCurrent := h.currentPid_eq
  constructor
  · intro hConsistent i hLive
    exact ne_of_gt (hConsistent.pidPositive i hLive)
  · intro hTidy
    constructor
    · intro i j hI hJ
      have hEq : some i = some j := by rw [← h.running i hI, ← h.running j hJ]
      exact Option.some.inj hEq
    · intro i hRunning
      rw [hCurrent, h.running i hRunning]
      rfl
    · rw [hCurrent]
      cases s.currentProcess with
      | none => simp
      | some i => simp [i.index_ne_neg_one]
    · intro hNe
      cases hProcess : s.currentProcess with
      | none =>
        rw [hProcess] at hCurrent
        exact absurd hCurrent hNe
      | some i =>
        rw [hProcess] at hCurrent
        exact ⟨i, hCurrent, rfl, h.seated i hProcess⟩
    · intro i hLive
      have hRange := h.pid_range i
      have hNe := hTidy i hLive
      omega
    · intro i j hLive _ hEq
      exact h.pid_distinct i j hEq (hTidy i hLive)

theorem Tidy.step_iff {s : System} (hTidy : s.Tidy) (h : s.Sound) (event : Event) :
    (s.step event).Tidy ↔ s.InOrder event := by
  cases event with
  | call c =>
    refine iff_of_true ?_ trivial
    simp only [System.step]
    split <;> exact hTidy
  | timer =>
    refine iff_of_true ?_ trivial
    simp only [System.step]
    split
    · exact hTidy.processPreemptFromIrq
    · exact hTidy
  | run loaded stack =>
    simp only [System.step, System.runAct, InOrder]
    cases hCode : s.code with
    | nil => simpa using hTidy
    | cons act rest =>
      have hRest : (s.setCode rest).Sound := by
        apply h.setCode
        intro act' hMem
        rw [hCode]
        exact List.mem_cons_of_mem act hMem
      have hRestTidy : (s.setCode rest).Tidy := hTidy
      have hAct : (s.setCode rest).ActInOrder act ↔ s.ActInOrder act := by
        cases act <;> rfl
      simpa [hAct] using hRestTidy.execute_iff hRest loaded stack act

def OrderlyRun (s : System) : List Event → Prop
  | [] => True
  | event :: events => s.InOrder event ∧ (s.step event).OrderlyRun events

theorem Sound.run_iff {s : System} (h : s.Sound) (hTidy : s.Tidy) (events : List Event) :
    (∀ n, (s.after (events.take n)).Consistent) ↔ s.OrderlyRun events := by
  induction events generalizing s with
  | nil =>
    refine iff_of_true ?_ trivial
    intro n
    simpa [System.after] using h.consistent_iff.mpr hTidy
  | cons event events ih =>
    have hStep := h.step event
    constructor
    · intro hAll
      have hNext : (s.step event).Tidy := hStep.consistent_iff.mp (hAll 1)
      exact ⟨(hTidy.step_iff h event).mp hNext, (ih hStep hNext).mp fun n => hAll (n + 1)⟩
    · rintro ⟨hOrder, hRest⟩ n
      have hNext : (s.step event).Tidy := (hTidy.step_iff h event).mpr hOrder
      cases n with
      | zero => exact h.consistent_iff.mpr hTidy
      | succ n => exact (ih hStep hNext).mpr hRest n

end System

/-- In a run from `process_init` the process table is consistent in every state exactly if every step
is in order. -/
theorem process_table_iff (events : List Event) :
    (∀ n, (processInit.after (events.take n)).Consistent) ↔ processInit.OrderlyRun events :=
  System.sound_processInit.run_iff System.tidy_processInit events

/-! ### Fixed runs -/

def System.Agrees (s s' : System) : Prop :=
  (∀ i, s.procTable i = s'.procTable i) ∧ s.currentPid = s'.currentPid ∧ s.currentProcess = s'.currentProcess ∧
    s.nextPid = s'.nextPid ∧ s.preemptTicks = s'.preemptTicks ∧ s.irq = s'.irq ∧
    (∀ t, s.threads t = s'.threads t) ∧ ∀ i, s.born i = s'.born i

instance System.decidableAgrees (s s' : System) : Decidable (s.Agrees s') := inferInstanceAs (Decidable (_ ∧ _))

theorem System.Agrees.eq {s s' : System} (h : s.Agrees s') (hCreator : s.creator = s'.creator) : s = s' := by
  obtain ⟨hTable, hPid, hProcess, hNext, hTicks, hIrq, hThreads, hBorn⟩ := h
  rcases s with ⟨_, _, _, _, _, _, _, _, _⟩
  rcases s' with ⟨_, _, _, _, _, _, _, _, _⟩
  simp only [System.mk.injEq]
  exact ⟨funext hTable, hPid, hProcess, hNext, hTicks, hIrq, funext hThreads, funext hBorn, hCreator⟩

/-- `process_create`, up to its return. -/
def createEvents : List Event := .call .create :: List.replicate 9 (.run true 4096)

/-- Two processes run; the first fails to load a third, and the timer stops it between the two stores
that give the slot back; the second takes the slot; the first goes on. -/
def reusedSlotRun : List Event :=
  createEvents ++ createEvents ++ [.call .schedule, .run true 0] ++
    [.call .create, .run true 0, .run false 0, .run true 0] ++ List.replicate 20 .timer ++
    [.call .create, .run true 0] ++ List.replicate 20 .timer ++ [.run true 0]

def thirdSlot : Slot := ⟨2, by decide⟩

theorem reused_slot_loses_pid :
    ((processInit.after reusedSlotRun).procTable thirdSlot).state = .blocked ∧
      ((processInit.after reusedSlotRun).procTable thirdSlot).pid = 0 ∧
      ¬ (processInit.after reusedSlotRun).Consistent := by
  have hSlot : ((processInit.after reusedSlotRun).procTable thirdSlot).state = .blocked ∧
      ((processInit.after reusedSlotRun).procTable thirdSlot).pid = 0 := by
    decide +kernel
  refine ⟨hSlot.1, hSlot.2, ?_⟩
  intro hConsistent
  have hLive : ((processInit.after reusedSlotRun).procTable thirdSlot).state ≠ .free := by
    rw [hSlot.1]
    decide
  have hPositive := hConsistent.pidPositive thirdSlot hLive
  rw [hSlot.2] at hPositive
  exact absurd hPositive (by decide)

end UnixOS.Proc
