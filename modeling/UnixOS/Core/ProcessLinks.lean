import UnixOS.Core.ProcessFrame

/-! # Parents come before their children

`parent_pid` is a slot, and `kill_children` reads it as a process number. Slots are handed out from the first on, so a
process in slot `n` is at least the `n + 1`st: what is recorded for its parent is a smaller number than its own, whatever
process has that number.
-/

namespace UnixOS.Proc

theorem Call.builds_code (c : Call) : ∀ act ∈ c.code, act.builds = none := by
  cases c <;> simp [Call.code, Act.builds]

namespace System

structure Climbing (s : System) : Prop where
  slots : ∀ i, (s.procTable i).pid ≠ 0 → i.index + 1 < s.nextPid
  parents : ∀ i, (s.procTable i).pid ≠ 0 → (s.procTable i).parentPid + 1 < (s.procTable i).pid
  builders : ∀ t i, ∀ act ∈ (s.threads (some t)).code, act.builds = some i →
    t.index + 1 < s.nextPid ∧ ((s.procTable i).pid ≠ 0 → t.index + 1 < (s.procTable i).pid)

structure Aged (s s' : System) : Prop where
  nextPid : s'.nextPid = s.nextPid
  pid : ∀ i, (s'.procTable i).pid = (s.procTable i).pid ∨ (s'.procTable i).pid = 0
  parentPid : ∀ i, (s'.procTable i).parentPid = (s.procTable i).parentPid ∨ (s'.procTable i).parentPid = -1

theorem climbing_processInit : processInit.Climbing where
  slots := fun _ hPid => absurd rfl hPid
  parents := fun _ hPid => absurd rfl hPid
  builders := by
    intro t i act hMem hBuilds
    rw [List.mem_singleton.mp hMem] at hBuilds
    cases hBuilds

section Aged

variable {s s' s'' : System}

theorem Aged.of_eq (hTable : s'.procTable = s.procTable) (hNext : s'.nextPid = s.nextPid) : Aged s s' := by
  refine ⟨hNext, fun i => ?_, fun i => ?_⟩
  · rw [hTable]
    exact Or.inl rfl
  · rw [hTable]
    exact Or.inl rfl

theorem Aged.trans (h : Aged s s') (h' : Aged s' s'') : Aged s s'' := by
  refine ⟨h'.nextPid.trans h.nextPid, fun i => ?_, fun i => ?_⟩
  · rcases h'.pid i with hSame | hZero
    · rw [hSame]
      exact h.pid i
    · exact Or.inr hZero
  · rcases h'.parentPid i with hSame | hNone
    · rw [hSame]
      exact h.parentPid i
    · exact Or.inr hNone

theorem Aged.setThread (h : Aged s s') (t : Option Slot) (thread : Thread) : Aged s (s'.setThread t thread) :=
  ⟨h.nextPid, h.pid, h.parentPid⟩

theorem aged_modify {i : Slot} {f : Process → Process} (hPid : ∀ p, (f p).pid = p.pid ∨ (f p).pid = 0)
    (hParent : ∀ p, (f p).parentPid = p.parentPid ∨ (f p).parentPid = -1) : Aged s (s.modify i f) := by
  refine ⟨rfl, fun j => ?_, fun j => ?_⟩
  · rw [modify_procTable, Function.update_apply]
    split
    case isTrue hEq =>
      rw [hEq]
      exact hPid _
    case isFalse => exact Or.inl rfl
  · rw [modify_procTable, Function.update_apply]
    split
    case isTrue hEq =>
      rw [hEq]
      exact hParent _
    case isFalse => exact Or.inl rfl

theorem aged_modifyOther {i : Slot} {f : Process → Process} (hPid : ∀ p, (f p).pid = p.pid)
    (hParent : ∀ p, (f p).parentPid = p.parentPid) : Aged s (s.modify i f) :=
  aged_modify (fun p => Or.inl (hPid p)) fun p => Or.inl (hParent p)

theorem aged_setState (i : Slot) (state : ProcState) : Aged s (s.setState i state) :=
  aged_modifyOther (fun _ => by rfl) fun _ => by rfl

theorem aged_switchTo (next : Option Slot) : Aged s (s.switchTo next) := by
  simp only [switchTo, saveContext]
  split
  case h_1 old _ =>
    have hSaved : Aged s (s.modify old fun p => { p with context := true }) :=
      aged_modifyOther (fun _ => by rfl) fun _ => by rfl
    exact ⟨hSaved.nextPid, hSaved.pid, hSaved.parentPid⟩
  case h_2 => exact .of_eq rfl rfl

theorem aged_dispatch (next : Slot) : Aged s (s.dispatch next) := by
  have hReady : Aged s s.deschedule := by
    simp only [deschedule]
    split
    case h_1 old _ =>
      split
      · exact aged_setState old .ready
      · exact .of_eq rfl rfl
    case h_2 => exact .of_eq rfl rfl
  exact (hReady.trans (aged_setState next .running)).trans (aged_switchTo (some next))

theorem aged_processSchedule : Aged s s.processSchedule := by
  simp only [processSchedule]
  split
  · split
    · split
      · exact .of_eq rfl rfl
      · exact aged_switchTo none
    · exact .of_eq rfl rfl
  · split
    · exact .of_eq rfl rfl
    · split
      · exact aged_setState _ .running
      · exact aged_dispatch _

theorem aged_processPreemptFromIrq : Aged s s.processPreemptFromIrq := by
  rcases processPreemptFromIrq_cases (s := s) with ⟨n, hEq⟩ | ⟨next, -, -, hEq⟩
  · rw [hEq]
    exact .of_eq rfl rfl
  · rw [hEq]
    have hTicks : Aged s { s with preemptTicks := 0 } := .of_eq rfl rfl
    exact hTicks.trans (aged_dispatch next)

theorem aged_execute (loaded : Bool) (stack : Nat) {act : Act} (hReserve : act ≠ .reserve)
    (hParent : ∀ slot, act ≠ .setParent slot) : Aged s (s.execute loaded stack act) := by
  cases act with
  | reserve => exact absurd rfl hReserve
  | setParent slot => exact absurd rfl (hParent slot)
  | setReady slot => exact (aged_setState slot .ready).setThread _ _
  | startReady slot => exact (aged_setState slot .ready).setThread _ _
  | releaseState slot => exact aged_setState slot .free
  | freeState slot => exact aged_setState slot .free
  | setExit slot | allocStack slot | releaseContext slot =>
    simp only [System.execute]
    refine Aged.setThread ?_ _ _
    exact aged_modifyOther (fun _ => by rfl) fun _ => by rfl
  | setContext slot =>
    simp only [System.execute]
    refine Aged.setThread (Aged.setThread ?_ _ _) _ _
    exact aged_modifyOther (fun _ => by rfl) fun _ => by rfl
  | releaseStack slot | releaseExit slot | stackClear slot =>
    simp only [System.execute]
    exact aged_modifyOther (fun _ => by rfl) fun _ => by rfl
  | releasePid slot | freePid slot =>
    simp only [System.execute]
    exact aged_modify (fun _ => Or.inr (by rfl)) fun _ => Or.inl (by rfl)
  | releaseParent slot =>
    simp only [System.execute]
    exact aged_modify (fun _ => Or.inl (by rfl)) fun _ => Or.inr (by rfl)
  | exitFinish status =>
    simp only [System.execute, System.exitFinish]
    split
    case h_1 => exact .of_eq rfl rfl
    case h_2 slot _ =>
      have hExited : Aged s (s.modify slot (Process.exited status)) :=
        aged_modifyOther (fun _ => by rfl) fun _ => by rfl
      exact ⟨hExited.nextPid, hExited.pid, hExited.parentPid⟩
  | yieldReady =>
    simp only [System.execute]
    split
    · exact .of_eq rfl rfl
    · exact aged_setState _ .ready
  | schedule => exact aged_processSchedule
  | _ =>
    -- the other acts only read the table
    simp only [System.execute]
    (repeat' split) <;> exact .of_eq rfl rfl

end Aged

/-! ### Steps -/

section Steps

variable {s s' : System}

theorem Climbing.of_parents (h : s.Climbing) (hNext : s'.nextPid = s.nextPid)
    (hKept : ∀ i, (s'.procTable i).pid = (s.procTable i).pid ∨ (s'.procTable i).pid = 0)
    (hParents : ∀ i, (s.procTable i).pid ≠ 0 → (s'.procTable i).parentPid + 1 < (s.procTable i).pid)
    (hBuilders : ∀ t i, ∀ act ∈ (s'.threads t).code, act.builds = some i →
      ∃ act' ∈ (s.threads t).code, act'.builds = some i) : s'.Climbing := by
  have hOld : ∀ i, (s'.procTable i).pid ≠ 0 →
      (s'.procTable i).pid = (s.procTable i).pid ∧ (s.procTable i).pid ≠ 0 := by
    intro i hPid
    have hSame := (hKept i).resolve_right hPid
    exact ⟨hSame, hSame ▸ hPid⟩
  constructor
  · intro i hPid
    rw [hNext]
    exact h.slots i (hOld i hPid).2
  · intro i hPid
    rw [(hOld i hPid).1]
    exact hParents i (hOld i hPid).2
  · intro t i act hMem hBuilds
    obtain ⟨act', hMem', hBuilds'⟩ := hBuilders _ i act hMem hBuilds
    obtain ⟨hSlot, hPid⟩ := h.builders t i act' hMem' hBuilds'
    rw [hNext]
    refine ⟨hSlot, fun hNe => ?_⟩
    rw [(hOld i hNe).1]
    exact hPid (hOld i hNe).2

theorem Climbing.aged (h : s.Climbing) (hSound : s.Sound) (hAged : Aged s s')
    (hBuilders : ∀ t i, ∀ act ∈ (s'.threads t).code, act.builds = some i →
      ∃ act' ∈ (s.threads t).code, act'.builds = some i) : s'.Climbing := by
  refine h.of_parents hAged.nextPid hAged.pid (fun i hNe => ?_) hBuilders
  have hRange := (hSound.pid_range i).1
  rcases hAged.parentPid i with hSame | hNone
  · rw [hSame]
    exact h.parents i hNe
  · rw [hNone]
    omega

theorem mem_code_of_setCode {act : Act} {rest : List Act} (hCode : s.code = act :: rest) {t : Option Slot} {act' : Act}
    (hMem : act' ∈ ((s.setCode rest).threads t).code) : act' ∈ (s.threads t).code := by
  by_cases hSelf : t = s.self
  · rw [hSelf, setCode_threads_self] at hMem
    rw [hSelf]
    show act' ∈ s.code
    rw [hCode]
    exact List.mem_cons_of_mem act hMem
  · rwa [setCode_threads_of_ne hSelf] at hMem

theorem builders_execute {act : Act} {rest : List Act} (hCode : s.code = act :: rest) (hReserve : act ≠ .reserve)
    (loaded : Bool) (stack : Nat) (t : Option Slot) (i : Slot) : ∀ act' ∈
      (((s.setCode rest).execute loaded stack act).threads t).code, act'.builds = some i →
        ∃ act'' ∈ (s.threads t).code, act''.builds = some i := by
  intro act' hMem hBuilds
  rcases builds_execute hMem hBuilds with hOld | ⟨hSelf, hHere | ⟨hHere, -⟩⟩
  · exact ⟨act', mem_code_of_setCode hCode hOld, hBuilds⟩
  · refine ⟨act, ?_, hHere⟩
    rw [show t = s.self from hSelf]
    show act ∈ s.code
    rw [hCode]
    exact List.mem_cons_self
  · exact absurd hHere hReserve

theorem Climbing.index_lt_nextPid (h : s.Climbing) (hSound : s.Sound) (hTidy : s.Tidy) {slot : Slot}
    (hFind : s.findFreeSlotUnlocked = some slot) : slot.index < s.nextPid := by
  have hNext := hSound.nextPid_pos
  by_cases hFirst : slot.val = 0
  · rw [Slot.index, hFirst]
    exact hNext
  obtain ⟨-, before, later, hSplit, hBefore⟩ := List.find?_eq_some_iff_append.mp hFind
  have hSorted := List.pairwise_lt_finRange maxProcesses
  rw [hSplit, List.pairwise_append, List.pairwise_cons] at hSorted
  have hLt := slot.isLt
  let last : Slot := ⟨slot.val - 1, by omega⟩
  have hMem : last ∈ before ++ slot :: later := by
    rw [← hSplit]
    exact List.mem_finRange last
  have hTaken : last ∈ before := by
    rcases List.mem_append.mp hMem with hIn | hIn
    · exact hIn
    · rcases List.mem_cons.mp hIn with hEq | hLater
      · have hVal : slot.val - 1 = slot.val := congrArg Fin.val hEq
        omega
      · have hAfter : slot.val < slot.val - 1 := hSorted.2.1.1 last hLater
        omega
  have hLive : (s.procTable last).state ≠ .free := by simpa using hBefore last hTaken
  have hSlot := h.slots last (hTidy last hLive)
  simp only [Slot.index, last] at hSlot ⊢
  omega

theorem Climbing.reserve (h : s.Climbing) (hSound : s.Sound) (hTidy : s.Tidy) {rest : List Act}
    (hCode : s.code = .reserve :: rest) (loaded : Bool) (stack : Nat) :
    ((s.setCode rest).execute loaded stack .reserve).Climbing := by
  have hOld : ∀ t i, ∀ act ∈ ((s.setCode rest).threads (some t)).code, act.builds = some i →
      t.index + 1 < s.nextPid ∧ ((s.procTable i).pid ≠ 0 → t.index + 1 < (s.procTable i).pid) := by
    intro t i act hMem
    exact h.builders t i act (mem_code_of_setCode hCode hMem)
  cases hFind : s.findFreeSlotUnlocked with
  | none =>
    have hSame : (s.setCode rest).execute loaded stack .reserve = (s.setCode rest).setValue (-1) := by
      simp only [System.execute, System.reserve]
      rw [show (s.setCode rest).findFreeSlotUnlocked = none from hFind]
    rw [hSame]
    exact ⟨h.slots, h.parents, fun t i act hMem => hOld t i act (mem_setValue_code hMem)⟩
  | some slot =>
    have hIndex := h.index_lt_nextPid hSound hTidy hFind
    have hNext := hSound.nextPid_pos
    have hBuilt : ∀ t i, ∀ act ∈ (((s.setCode rest).execute loaded stack .reserve).threads (some t)).code,
        act.builds = some i → act ∈ ((s.setCode rest).threads (some t)).code ∨ i = slot ∧ t.index + 1 < s.nextPid := by
      intro t i act hMem hBuilds
      rcases builds_execute hMem hBuilds with hIn | ⟨hSelf, hNone | ⟨-, hHere⟩⟩
      · exact Or.inl hIn
      · cases hNone
      · have hEq : i = slot := (Option.some.inj (hFind.symm.trans hHere)).symm
        have hProcess : s.currentProcess = some t := by
          rw [← hSound.self_eq]
          exact hSelf.symm
        exact Or.inr ⟨hEq, h.slots t (hTidy t (hSound.seated t hProcess))⟩
    have hNew : (s.setCode rest).execute loaded stack .reserve =
        { ((s.setCode rest).modify slot fun _ => reservedProcess s.nextPid).setThread (some slot) haltedThread with
          nextPid := s.nextPid + 1
          born := Function.update s.born slot s.nextPid
          creator := Function.update s.creator s.nextPid (s.self.map s.born) }.push [.load slot] := by
      simp only [System.execute, System.reserve]
      rw [show (s.setCode rest).findFreeSlotUnlocked = some slot from hFind]
      rfl
    have hNextPid : ((s.setCode rest).execute loaded stack .reserve).nextPid = s.nextPid + 1 := by
      rw [hNew]
      rfl
    have hTable : ∀ i, ((s.setCode rest).execute loaded stack .reserve).procTable i =
        if i = slot then reservedProcess s.nextPid else s.procTable i := by
      intro i
      rw [hNew]
      exact Function.update_apply ..
    constructor
    · intro i hPid
      rw [hNextPid]
      rw [hTable] at hPid
      split at hPid
      case isTrue hEq =>
        rw [hEq]
        omega
      case isFalse =>
        have hSlot := h.slots i hPid
        omega
    · intro i hPid
      rw [hTable] at hPid ⊢
      split
      case isTrue =>
        show -1 + 1 < s.nextPid
        omega
      case isFalse hNe =>
        rw [if_neg hNe] at hPid
        exact h.parents i hPid
    · intro t i act hMem hBuilds
      rw [hNextPid, hTable]
      rcases hBuilt t i act hMem hBuilds with hIn | ⟨rfl, hSlot⟩
      · obtain ⟨hSlot, hPid⟩ := hOld t i act hIn hBuilds
        refine ⟨by omega, ?_⟩
        split
        case isTrue => exact fun _ => hSlot
        case isFalse => exact hPid
      · rw [if_pos rfl]
        exact ⟨by omega, fun _ => hSlot⟩

theorem Climbing.setParent (h : s.Climbing) (hSound : s.Sound) {slot : Slot} {rest : List Act}
    (hCode : s.code = .setParent slot :: rest) (loaded : Bool) (stack : Nat) :
    ((s.setCode rest).execute loaded stack (.setParent slot)).Climbing := by
  have hTable : ∀ i, ((s.setCode rest).execute loaded stack (.setParent slot)).procTable i =
      if i = slot then { s.procTable slot with parentPid := s.currentPid } else s.procTable i := fun i =>
    Function.update_apply ..
  refine h.of_parents rfl (fun i => ?_) (fun i hNe => ?_) (builders_execute hCode (by simp) loaded stack)
  · rw [hTable]
    split
    case isTrue hEq =>
      rw [hEq]
      exact Or.inl rfl
    case isFalse => exact Or.inl rfl
  · rw [hTable]
    split
    case isTrue hEq =>
      subst hEq
      show s.currentPid + 1 < (s.procTable i).pid
      have hRange := (hSound.pid_range i).1
      rw [hSound.currentPid_eq]
      cases hProcess : s.currentProcess with
      | none =>
        show -1 + 1 < (s.procTable i).pid
        omega
      | some t =>
        have hMem : Act.setParent i ∈ (s.threads (some t)).code := by
          rw [← hProcess, ← hSound.self_eq]
          show Act.setParent i ∈ s.code
          rw [hCode]
          exact List.mem_cons_self
        exact (h.builders t i _ hMem rfl).2 hNe
    case isFalse => exact h.parents i hNe

theorem Climbing.runAct (h : s.Climbing) (hSound : s.Sound) (hTidy : s.Tidy) (loaded : Bool) (stack : Nat) :
    (s.runAct loaded stack).Climbing := by
  cases hCode : s.code with
  | nil =>
    simp only [System.runAct, hCode]
    exact h
  | cons act rest =>
    rw [runAct_eq hCode]
    by_cases hReserve : act = .reserve
    · rw [hReserve] at hCode ⊢
      exact h.reserve hSound hTidy hCode loaded stack
    by_cases hParent : ∃ slot, act = .setParent slot
    · obtain ⟨slot, rfl⟩ := hParent
      exact h.setParent hSound hCode loaded stack
    have hAged := aged_execute (s := s.setCode rest) loaded stack hReserve fun slot hEq => hParent ⟨slot, hEq⟩
    exact h.aged hSound ⟨hAged.nextPid, hAged.pid, hAged.parentPid⟩ (builders_execute hCode hReserve loaded stack)

theorem Climbing.step (h : s.Climbing) (hSound : s.Sound) (hTidy : s.Tidy) (event : Event) : (s.step event).Climbing := by
  cases event with
  | call c =>
    simp only [System.step]
    split
    · refine h.aged hSound (.of_eq rfl rfl) ?_
      intro t i act hMem hBuilds
      rcases mem_push_code hMem with hOld | ⟨-, hNew⟩
      · exact ⟨act, hOld, hBuilds⟩
      · rw [Call.builds_code c act hNew] at hBuilds
        cases hBuilds
    · exact h
  | run loaded stack => exact h.runAct hSound hTidy loaded stack
  | timer =>
    simp only [System.step]
    split
    · refine h.aged hSound aged_processPreemptFromIrq ?_
      intro t i act hMem hBuilds
      rw [processPreemptFromIrq_threads] at hMem
      exact ⟨act, hMem, hBuilds⟩
    · exact h

end Steps

end System

end UnixOS.Proc
