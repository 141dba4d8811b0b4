import UnixOS.Sched.Effects

/-! # The run queue

The queue is meant to hold exactly the tasks in state `TASK_RUNNING` other than the idle task. The
links are kept by `enqueue_task` and `dequeue_task` alone, the states by every function on its own:
`do_waitpid` and the stop signals change the state of a queued task and leave it in the queue, a
failed creation leaves a running task outside, and the idle task can be put in or taken out. In the
runs without these steps the queue is right in every state, and each of them breaks it at once.
-/

namespace UnixOS.Sched

namespace System

/-- The given tasks are those in state `TASK_RUNNING` other than the idle task. -/
def Runnable (s : System) (queue : List TaskPtr) : Prop :=
  ∀ t, t ∈ queue ↔ s.IsTask t ∧ s.stateOf t = .running ∧ t ≠ s.idle

def WellQueued (s : System) : Prop := ∃ queue, s.Linked queue ∧ s.Runnable queue

/-! ### States in order -/

structure Chained (s : System) (queue : List TaskPtr) : Prop where
  linked : s.Linked queue
  outside : ∀ t, t ∉ queue → s.next t = null ∧ s.prev t = null

structure InOrder (s : System) (queue : List TaskPtr) : Prop extends s.Chained queue where
  runnable : s.Runnable queue
  current : s.current = s.idle ∨ s.current ∈ queue

def Good (s : System) : Prop := s.Closed ∧ ∃ queue, s.InOrder queue

section Good

variable {s s' : System} {queue : List TaskPtr} {t : TaskPtr}

theorem Linked.wellQueued_iff (h : s.Linked queue) : s.WellQueued ↔ s.Runnable queue := by
  constructor
  · rintro ⟨queue', hLinked, hRunnable⟩
    rwa [h.unique hLinked]
  · intro hRunnable
    exact ⟨queue, h, hRunnable⟩

theorem Chained.congr (h : s.Chained queue) (hNext : s'.next = s.next) (hPrev : s'.prev = s.prev)
    (hHead : s'.head = s.head) (hTail : s'.tail = s.tail) (hCount : s'.nrRunning = s.nrRunning) :
    s'.Chained queue := by
  refine ⟨h.linked.congr hNext hPrev hHead hTail hCount, ?_⟩
  rw [hNext, hPrev]
  exact h.outside

theorem SameQueue.chained (hSame : s.SameQueue s') (h : s.Chained queue) : s'.Chained queue :=
  h.congr hSame.next hSame.prev hSame.head hSame.tail hSame.nrRunning

theorem Chained.setState (h : s.Chained queue) (t : TaskPtr) (state : TaskState) :
    (s.setState t state).Chained queue :=
  h.congr (setState_next ..) (setState_prev ..) rfl rfl rfl

theorem Runnable.congr (h : s.Runnable queue) (hState : s'.stateOf = s.stateOf)
    (hIdle : s'.idle = s.idle) (hIndex : s'.taskPoolIndex = s.taskPoolIndex) :
    s'.Runnable queue := by
  intro t
  rw [isTask_congr hIndex, hState, hIdle]
  exact h t

theorem SameQueue.inOrder (hSame : s.SameQueue s') (h : s.InOrder queue) : s'.InOrder queue := by
  refine ⟨hSame.chained h.toChained, ?_, ?_⟩
  · exact h.runnable.congr hSame.stateOf hSame.idle hSame.taskPoolIndex
  · rw [hSame.current, hSame.idle]
    exact h.current

theorem Chained.enqueue (h : s.Chained queue) (ht : t ≠ null) (hFree : t ∉ queue) :
    (s.enqueueTask t).Chained (queue ++ [t]) := by
  obtain ⟨hNext, hPrev, -, -, -⟩ := enqueueTask_fields s t
  refine ⟨h.linked.enqueue ht hFree, ?_⟩
  intro u hu
  obtain ⟨hOld, hNew⟩ := not_or.mp (fun hMem => hu (List.mem_append.mpr hMem))
  have hNe : u ≠ t := fun hEq => hNew (List.mem_singleton.mpr hEq)
  rw [hNext, hPrev, Function.update_of_ne hNe]
  refine ⟨?_, (h.outside u hOld).2⟩
  split
  case isTrue hEmpty => rw [Function.update_of_ne hNe, (h.outside u hOld).1]
  case isFalse hSome =>
    have hTail : u ≠ s.tail := by
      rintro rfl
      rw [h.linked.tail] at hOld
      rw [h.linked.head] at hSome
      refine hOld (DoublyLinked.getLastD_mem ?_ null)
      rintro rfl
      exact hSome rfl
    rw [Function.update_of_ne hTail, Function.update_of_ne hNe, (h.outside u hOld).1]

theorem Chained.dequeue {before behind : List TaskPtr} (h : s.Chained (before ++ t :: behind)) :
    (s.dequeueTask t).Chained (before ++ behind) := by
  obtain ⟨hNext, hPrev, -, -, -⟩ := dequeueTask_fields s t
  obtain ⟨hBack, hForth⟩ := h.linked.seg.at_split
  refine ⟨h.linked.dequeue, ?_⟩
  intro u hu
  rw [hNext, hPrev]
  rcases Decidable.eq_or_ne u t with rfl | hNe
  · rw [Function.update_self, Function.update_self]
    exact ⟨rfl, rfl⟩
  · have hOut : u ∉ before ++ t :: behind := by
      intro hMem
      rcases List.mem_append.mp hMem with hIn | hIn
      · exact hu (List.mem_append_left _ hIn)
      · exact hu (List.mem_append_right _ ((List.mem_cons.mp hIn).resolve_left hNe))
    rw [Function.update_of_ne hNe, Function.update_of_ne hNe]
    constructor
    · split
      case isTrue hSome =>
        rw [Function.update_of_ne, (h.outside u hOut).1]
        rintro rfl
        rw [hBack] at hu hSome
        exact hu (List.mem_append_left _
          ((DoublyLinked.getLastD_eq_or_mem before null).resolve_left hSome))
      case isFalse hNone => exact (h.outside u hOut).1
    · split
      case isTrue hSome =>
        rw [Function.update_of_ne, (h.outside u hOut).2]
        rintro rfl
        rw [hForth] at hu hSome
        exact hu (List.mem_append_right _
          ((DoublyLinked.headD_eq_or_mem behind null).resolve_left hSome))
      case isFalse hNone => exact (h.outside u hOut).2

theorem Linked.pickNextTask (h : s.Linked queue) :
    s.pickNextTask = s.idle ∨ s.pickNextTask ∈ queue := by
  unfold System.pickNextTask
  split
  case isTrue hEmpty => exact Or.inl rfl
  case isFalse hSome =>
    rw [h.head] at hSome ⊢
    exact Or.inr ((DoublyLinked.headD_eq_or_mem queue null).resolve_left hSome)

theorem Chained.switch (h : s.Chained queue) (hRun : s.Runnable queue)
    (ht : t = s.idle ∨ t ∈ queue) : { s with current := t }.InOrder queue :=
  ⟨h.congr rfl rfl rfl rfl rfl, hRun.congr rfl rfl rfl, ht⟩

theorem Chained.schedule (h : s.Chained queue) (hClosed : s.Closed) (hRun : s.Runnable queue) :
    ∃ queue', s.schedule.InOrder queue' ∧ (queue' = queue ∨
      s.pickNextTask ≠ s.current ∧ ∃ before behind, queue = before ++ s.current :: behind ∧
        queue' = before ++ behind ++ [s.current]) := by
  have hPick := h.linked.pickNextTask
  obtain ⟨hStay, hEq⟩ | ⟨-, -, hEq⟩ | ⟨hSwitch, hState, hIdle, hEq⟩ := schedule_cases s
  · rw [hEq]
    rw [hStay] at hPick
    exact ⟨queue, ⟨h, hRun, hPick⟩, Or.inl rfl⟩
  · rw [hEq]
    exact ⟨queue, h.switch hRun hPick, Or.inl rfl⟩
  · have hMem : s.current ∈ queue := (hRun s.current).mpr ⟨hClosed.current, hState, hIdle⟩
    obtain ⟨before, behind, rfl⟩ := List.append_of_mem hMem
    have hPerm : (before ++ s.current :: behind).Perm (before ++ behind ++ [s.current]) :=
      List.perm_middle.trans (List.perm_append_singleton _ _).symm
    have hFree : s.current ∉ before ++ behind :=
      (List.nodup_cons.mp (List.perm_middle.nodup_iff.mp h.linked.nodup)).1
    have hKeeps := (keeps_dequeueTask s s.current).trans (keeps_enqueueTask _ s.current)
    have hStates : ((s.dequeueTask s.current).enqueueTask s.current).stateOf = s.stateOf := by
      rw [enqueueTask_stateOf, dequeueTask_stateOf, ← hState, Function.update_eq_self]
    rw [hEq]
    refine ⟨_, (h.dequeue.enqueue hClosed.current.1 hFree).switch ?_ ?_,
      Or.inr ⟨hSwitch, before, behind, rfl, rfl⟩⟩
    · intro u
      rw [← hPerm.mem_iff]
      exact (hRun.congr hStates hKeeps.idle hKeeps.taskPoolIndex) u
    · rw [← hPerm.mem_iff, hKeeps.idle]
      exact hPick

theorem Fresh.chained (hFresh : s.Fresh s') (h : s.Chained queue)
    (hNew : poolTask s.taskPoolIndex ∉ queue) : s'.Chained queue := by
  have hOld := h.outside _ hNew
  refine h.congr ?_ ?_ hFresh.head hFresh.tail hFresh.nrRunning
  · rw [hFresh.next, ← hOld.1, Function.update_eq_self]
  · rw [hFresh.prev, ← hOld.2, Function.update_eq_self]

theorem Runnable.poolTask_notMem (h : s.Runnable queue) : poolTask s.taskPoolIndex ∉ queue :=
  fun hMem => not_isTask_poolTask s ((h _).mp hMem).1

theorem Runnable.update_idle (h : s.Runnable queue) (ht : t = s.idle) (state : TaskState) :
    (s.setState t state).Runnable queue := by
  intro u
  rw [setState_stateOf]
  change u ∈ queue ↔ s.IsTask u ∧ _ ∧ u ≠ s.idle
  rw [h u, Function.update_apply]
  split
  case isTrue hHere => simp [hHere, ht]
  case isFalse hElse => rfl

theorem InOrder.created {s₁ : System} (h : s.InOrder queue) (hClosed : s.Closed)
    (hFresh : s.Fresh s₁) : (s₁.enqueueTask (poolTask s.taskPoolIndex)).InOrder
      (queue ++ [poolTask s.taskPoolIndex]) := by
  have hNew := h.runnable.poolTask_notMem
  have hKeeps := keeps_enqueueTask s₁ (poolTask s.taskPoolIndex)
  refine ⟨(hFresh.chained h.toChained hNew).enqueue (Nat.succ_ne_zero _) hNew, ?_, ?_⟩
  · intro u
    rw [List.mem_append, List.mem_singleton, isTask_congr hKeeps.taskPoolIndex, hFresh.isTask_iff,
      hKeeps.idle, hFresh.idle, enqueueTask_stateOf, hFresh.stateOf, Function.update_idem,
      Function.update_apply, h.runnable u]
    split
    case isTrue hHere =>
      rw [hHere, hClosed.idle]
      simp [(initTask_ne_poolTask _).symm]
    case isFalse hElse => simp [hElse]
  · rw [hKeeps.current, hKeeps.idle, hFresh.current, hFresh.idle]
    exact h.current.imp_right (List.mem_append_left _)

theorem InOrder.woken (h : s.InOrder queue) (hClosed : s.Closed) (ht : t ≠ null)
    (hState : s.stateOf t ≠ .running) (hIdle : t ≠ s.idle) :
    ((s.setState t .running).enqueueTask t).InOrder (queue ++ [t]) := by
  have hFree : t ∉ queue := fun hMem => hState ((h.runnable t).mp hMem).2.1
  have hKeeps := (keeps_setState s t .running).trans (keeps_enqueueTask _ t)
  have hTask := hClosed.isTask_of_not_running hState
  refine ⟨(h.toChained.setState t .running).enqueue ht hFree, ?_, ?_⟩
  · intro u
    rw [List.mem_append, List.mem_singleton, isTask_congr hKeeps.taskPoolIndex, hKeeps.idle,
      enqueueTask_stateOf, setState_stateOf, Function.update_idem, Function.update_apply,
      h.runnable u]
    split
    case isTrue hHere =>
      rw [hHere]
      simp [hTask, hIdle]
    case isFalse hElse => simp [hElse]
  · rw [hKeeps.current, hKeeps.idle]
    exact h.current.imp_right (List.mem_append_left _)

theorem InOrder.slept {state : TaskState} (h : s.InOrder queue) (hClosed : s.Closed)
    (hIdle : s.current = s.idle) :
    ∃ queue', (s.setState s.current state).schedule.InOrder queue' := by
  have hRun := h.runnable.update_idle hIdle state
  obtain ⟨queue', hOrder, -⟩ := (h.toChained.setState s.current state).schedule
    (hClosed.setState hClosed.current state) hRun
  exact ⟨queue', hOrder⟩

theorem InOrder.continued (h : s.InOrder queue) :
    (s.setState s.current .running).InOrder queue := by
  refine ⟨h.toChained.setState s.current .running, ?_, h.current⟩
  obtain hIdle | hMem := h.current
  · exact h.runnable.update_idle hIdle .running
  · refine h.runnable.congr ?_ rfl rfl
    rw [setState_stateOf, ← ((h.runnable s.current).mp hMem).2.1, Function.update_eq_self]

theorem InOrder.exited (h : s.InOrder queue) (hAlone : s.current = s.idle → s.head = null) :
    ∃ queue', ((s.setState s.current .zombie).dequeueTask s.current).Chained queue' ∧
      ((s.setState s.current .zombie).dequeueTask s.current).Runnable queue' := by
  have hKeeps := (keeps_setState s s.current .zombie).trans (keeps_dequeueTask _ s.current)
  have hChained := h.toChained.setState s.current .zombie
  rcases Decidable.eq_or_ne s.current s.idle with hIdle | hIdle
  · have hEmpty : queue = [] := by
      cases queue with
      | nil => rfl
      | cons u us => exact absurd (h.linked.head.symm.trans (hAlone hIdle)) (h.linked.tasks u List.mem_cons_self)
    subst hEmpty
    obtain ⟨hNext, hPrev, hHead, hTail, hCount⟩ :=
      dequeueTask_fields (s.setState s.current .zombie) s.current
    have hLinks := hChained.outside s.current (by simp)
    refine ⟨[], hChained.congr ?_ ?_ ?_ ?_ ?_, ?_⟩
    · rw [hNext, hLinks.2, if_neg (by simp), ← hLinks.1, Function.update_eq_self]
    · rw [hPrev, hLinks.1, if_neg (by simp), ← hLinks.2, Function.update_eq_self]
    · rw [hHead, hLinks.2, if_neg (by simp), hLinks.1]
      exact hChained.linked.head.symm
    · rw [hTail, hLinks.1, if_neg (by simp), hLinks.2]
      exact hChained.linked.tail.symm
    · rw [hCount, hChained.linked.count]
      rfl
    · exact (h.runnable.update_idle hIdle .zombie).congr (dequeueTask_stateOf ..)
        (keeps_dequeueTask ..).idle (keeps_dequeueTask ..).taskPoolIndex
  · obtain ⟨before, behind, rfl⟩ := List.append_of_mem (h.current.resolve_left hIdle)
    refine ⟨before ++ behind, hChained.dequeue, ?_⟩
    intro u
    have hFree : s.current ∉ before ++ behind :=
      (List.nodup_cons.mp (List.perm_middle.nodup_iff.mp h.linked.nodup)).1
    have hOld := h.runnable u
    rw [List.perm_middle.mem_iff, List.mem_cons] at hOld
    rw [isTask_congr hKeeps.taskPoolIndex, hKeeps.idle, dequeueTask_stateOf, setState_stateOf,
      Function.update_apply]
    split
    case isTrue hHere =>
      rw [hHere]
      simp [hFree]
    case isFalse hElse =>
      rw [← hOld]
      simp [hElse]

theorem Effect.good {P : Prop} (hEffect : Effect s s' P) (hGood : s.Good) (hP : P) : s'.Good := by
  refine ⟨hEffect.closed hGood.1, ?_⟩
  obtain ⟨hClosed, queue, h⟩ := hGood
  cases hEffect with
  | same hSame => exact ⟨queue, hSame.inOrder h⟩
  | created hFresh hSame => exact ⟨_, hSame.inOrder (h.created hClosed hFresh)⟩
  | leaked hFresh => exact hP.elim
  | scheduled =>
    obtain ⟨queue', hOrder, -⟩ := h.toChained.schedule hClosed h.runnable
    exact ⟨queue', hOrder⟩
  | woken hSame ht hState =>
    rw [← hSame.stateOf] at hState
    rw [← hSame.idle] at hP
    exact ⟨_, (hSame.inOrder h).woken (hSame.closed hClosed) ht hState hP⟩
  | slept hSame hState =>
    rw [← hSame.idle, ← hSame.current] at hP
    exact (hSame.inOrder h).slept (hSame.closed hClosed) hP
  | continued hSame => exact ⟨queue, (hSame.inOrder h).continued⟩
  | exited hSame hSame' =>
    rw [← hSame.idle, ← hSame.current, ← hSame.head] at hP
    obtain ⟨queue', hChained, hRun⟩ := (hSame.inOrder h).exited hP
    have hClosed₁ := hSame.closed hClosed
    have hClosed₂ := hSame'.closed ((hClosed₁.setState hClosed₁.current .zombie).dequeue _)
    obtain ⟨queue'', hOrder, -⟩ := (hSame'.chained hChained).schedule hClosed₂
      (hRun.congr hSame'.stateOf hSame'.idle hSame'.taskPoolIndex)
    exact ⟨queue'', hOrder⟩

theorem InOrder.slept_broken {state : TaskState} (h : s.InOrder queue) (hState : state ≠ .running)
    (hBusy : s.current ≠ s.idle) : ¬ (s.setState s.current state).schedule.WellQueued := by
  have hNow : (s.setState s.current state).stateOf s.current = state := by
    rw [setState_stateOf, Function.update_self]
  have hLinked : { s.setState s.current state with
      current := (s.setState s.current state).pickNextTask }.Linked queue :=
    (h.toChained.setState s.current state).linked.congr rfl rfl rfl rfl rfl
  rw [schedule_of_not_running (fun hEq => hState (hNow.symm.trans hEq)), hLinked.wellQueued_iff]
  intro hRun
  have hMem := (hRun s.current).mp (h.current.resolve_left hBusy)
  exact hState (hNow.symm.trans hMem.2.1)

theorem InOrder.exited_broken {s₂ : System} (h : s.InOrder queue) (hIdle : s.current = s.idle)
    (hSome : s.head ≠ null)
    (hSame : ((s.setState s.current .zombie).dequeueTask s.current).SameQueue s₂) :
    ¬ s₂.schedule.WellQueued := by
  obtain ⟨-, -, hHead, -, -⟩ := dequeueTask_fields (s.setState s.current .zombie) s.current
  have hKeeps := (keeps_setState s s.current .zombie).trans (keeps_dequeueTask _ s.current)
  have hFree : s.current ∉ queue := fun hMem => ((h.runnable _).mp hMem).2.2 hIdle
  have hLinks := (h.toChained.setState s.current .zombie).outside s.current hFree
  have hLost : s₂.head = null := by
    rw [hSame.head, hHead, hLinks.2, if_neg (by simp), hLinks.1]
  have hStay : s₂.schedule = s₂ := by
    have hPick : s₂.pickNextTask = s₂.current := by
      rw [pickNextTask, if_pos hLost, hSame.idle, hSame.current, hKeeps.idle, hKeeps.current, hIdle]
    rw [schedule, if_pos hPick]
  rw [hStay]
  rintro ⟨queue', hLinked, hRun⟩
  cases queue with
  | nil => exact hSome h.linked.head
  | cons u us =>
    obtain ⟨hTask, hState, hNe⟩ := (h.runnable u).mp List.mem_cons_self
    have hOther : u ≠ s.current := by rwa [hIdle]
    have hMem : u ∈ queue' := by
      rw [hRun u, isTask_congr hSame.taskPoolIndex, isTask_congr hKeeps.taskPoolIndex,
        hSame.stateOf, dequeueTask_stateOf, setState_stateOf, Function.update_of_ne hOther,
        hSame.idle, hKeeps.idle]
      exact ⟨hTask, hState, hNe⟩
    cases queue' with
    | nil => cases hMem
    | cons v vs => exact hLinked.tasks v List.mem_cons_self (hLinked.head.symm.trans hLost)

theorem Effect.broken {P : Prop} (hEffect : Effect s s' P) (hGood : s.Good) (hP : ¬ P) :
    ¬ s'.WellQueued := by
  obtain ⟨hClosed, queue, h⟩ := hGood
  cases hEffect with
  | same hSame => exact absurd trivial hP
  | created hFresh hSame => exact absurd trivial hP
  | leaked hFresh =>
    have hNew := h.runnable.poolTask_notMem
    rw [(hFresh.chained h.toChained hNew).linked.wellQueued_iff]
    intro hRun
    refine hNew ((hRun _).mpr ⟨hFresh.isTask_iff.mpr (Or.inr rfl), ?_, ?_⟩)
    · rw [hFresh.stateOf, Function.update_self]
    · rw [hFresh.idle, hClosed.idle]
      exact (initTask_ne_poolTask _).symm
  | scheduled => exact absurd trivial hP
  | @woken s₁ t hSame ht hState =>
    have hIdle : t = s₁.idle := (not_not.mp hP).trans hSame.idle.symm
    have hFree : t ∉ queue := fun hMem => hState ((h.runnable t).mp hMem).2.1
    have hKeeps := (keeps_setState s₁ t .running).trans (keeps_enqueueTask _ t)
    have hLinked := (((hSame.chained h.toChained).setState t .running).enqueue ht hFree).linked
    rw [hLinked.wellQueued_iff]
    intro hRun
    refine ((hRun t).mp (List.mem_append_right _ (List.mem_singleton.mpr rfl))).2.2 ?_
    rw [hKeeps.idle, hIdle]
  | slept hSame hState =>
    rw [← hSame.idle, ← hSame.current] at hP
    exact (hSame.inOrder h).slept_broken hState hP
  | continued hSame => exact absurd trivial hP
  | exited hSame hSame' =>
    rw [← hSame.idle, ← hSame.current, ← hSame.head, Classical.not_imp] at hP
    exact (hSame.inOrder h).exited_broken hP.1 hP.2 hSame'

theorem Good.wellQueued (h : s.Good) : s.WellQueued := by
  obtain ⟨-, queue, hOrder⟩ := h
  exact ⟨queue, hOrder.linked, hOrder.runnable⟩

theorem Good.next_iff (h : s.Good) (step : Step) : (step.next s).WellQueued ↔ step.Orderly s := by
  obtain ⟨P, hEffect, hP⟩ := step_effect h.1 step
  rw [← hP]
  constructor
  · intro hQueued
    by_contra hNot
    exact hEffect.broken h hNot hQueued
  · intro hOrderly
    exact (hEffect.good h hOrderly).wellQueued

theorem Good.next (h : s.Good) (step : Step) (hOrderly : step.Orderly s) : (step.next s).Good := by
  obtain ⟨P, hEffect, hP⟩ := step_effect h.1 step
  exact hEffect.good h (hP.mpr hOrderly)

end Good

theorem good_schedInit : schedInit.Good := by
  refine ⟨closed_schedInit, [], ⟨⟨trivial, rfl, rfl, List.nodup_nil, by simp, rfl⟩, ?_⟩, ?_, Or.inl rfl⟩
  · intro t _
    simp only [System.next, System.prev, schedInit, Function.update_apply]
    split <;> exact ⟨rfl, rfl⟩
  · intro t
    refine iff_of_false (by simp) ?_
    rintro ⟨hTask, -, hIdle⟩
    have hBound : @LT.lt Nat _ t 2 := hTask.2
    have hSome : @Ne Nat t 0 := hTask.1
    have hInit : @Ne Nat t 1 := hIdle
    omega

/-- Every step of the run is in order where it is taken. -/
def OrderlyRun : System → List Step → Prop
  | _, [] => True
  | s, step :: steps => step.Orderly s ∧ (step.next s).OrderlyRun steps

theorem Good.run_iff {s : System} (h : s.Good) (steps : List Step) :
    (∀ n, (s.after (steps.take n)).WellQueued) ↔ s.OrderlyRun steps := by
  induction steps generalizing s with
  | nil =>
    refine iff_of_true (fun n => ?_) trivial
    rw [List.take_nil]
    exact h.wellQueued
  | cons step steps ih =>
    constructor
    · intro hAll
      have hOrderly := (h.next_iff step).mp (hAll 1)
      exact ⟨hOrderly, (ih (h.next step hOrderly)).mp fun n => hAll (n + 1)⟩
    · rintro ⟨hOrderly, hRest⟩ n
      cases n with
      | zero => exact h.wellQueued
      | succ n => exact (ih (h.next step hOrderly)).mpr hRest n

end System

/-- In a run from `sched_init` the run queue is right in every state exactly if every step is in
order. -/
theorem run_queue_iff (steps : List Step) :
    (∀ n, (schedInit.after (steps.take n)).WellQueued) ↔ schedInit.OrderlyRun steps :=
  System.good_schedInit.run_iff steps

def waitingRun : List Step := [.createTask 0 true, .schedule, .doWaitpid]

theorem waiting_task_stays_queued :
    (schedInit.after waitingRun).head = poolTask 0 ∧
      (schedInit.after waitingRun).current = poolTask 0 ∧
      (schedInit.after waitingRun).stateOf (poolTask 0) = .interruptible ∧
      ¬ (schedInit.after waitingRun).WellQueued := by
  refine ⟨by decide, by decide, by decide, ?_⟩
  intro hQueued
  have hMade := System.good_schedInit.next (.createTask 0 true) (fun _ => rfl)
  have hIdle : poolTask 0 = initTask :=
    ((hMade.next .schedule trivial).next_iff .doWaitpid).mp hQueued
  exact absurd hIdle (by decide)

end UnixOS.Sched
