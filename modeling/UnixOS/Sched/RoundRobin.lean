import UnixOS.Sched.RunQueue

/-! # Whose turn it is

`schedule` picks the head of the queue and moves the task that ran to the end, but only where the
two differ. The head is never moved, so a task that is picked stays at the head and is picked again:
the others in the queue wait for ever.
-/

namespace UnixOS.Sched

namespace System

/-- Every runnable task gets its turn within `nr_running` calls of `schedule`, and a running task
gives way to another one that is queued. -/
structure Fair (s : System) : Prop where
  turn : ∀ t, s.IsTask t → s.stateOf t = .running → t ≠ s.idle →
    ∃ k, 1 ≤ k ∧ k ≤ s.nrRunning ∧ (schedule^[k] s).current = t
  switch : ∀ queue, s.Linked queue → (∃ t ∈ queue, t ≠ s.current) →
    s.stateOf s.current = .running → s.schedule.current ≠ s.current

section Turns

variable {s : System} {t : TaskPtr} {queue : List TaskPtr}

theorem pickNextTask_cons (h : s.Linked (t :: queue)) : s.pickNextTask = t := by
  have hHead : s.head = t := h.head
  rw [pickNextTask, hHead, if_neg (h.tasks t List.mem_cons_self)]

theorem pickNextTask_schedule (h : s.Linked (t :: queue)) (hClosed : s.Closed)
    (hRun : s.Runnable (t :: queue)) : s.schedule.pickNextTask = t := by
  have hPick := pickNextTask_cons h
  obtain ⟨-, hEq⟩ | ⟨-, -, hEq⟩ | ⟨hSwitch, hState, hIdle, hEq⟩ := schedule_cases s
  · rw [hEq, hPick]
  · rw [hEq]
    exact hPick
  · have hMem : s.current ∈ t :: queue := (hRun s.current).mpr ⟨hClosed.current, hState, hIdle⟩
    obtain ⟨before, behind, hSplit⟩ := List.append_of_mem hMem
    cases before with
    | nil => exact absurd (hPick.trans (List.cons.inj hSplit).1) hSwitch
    | cons u us =>
      obtain rfl : t = u := (List.cons.inj hSplit).1
      rw [hSplit] at h
      have hFree : s.current ∉ t :: us ++ behind :=
        (List.nodup_cons.mp (List.perm_middle.nodup_iff.mp h.nodup)).1
      have hMoved := pickNextTask_cons (h.dequeue.enqueue hClosed.current.1 hFree)
      rw [hEq]
      exact hMoved

theorem current_iterate_schedule (h : s.Linked (t :: queue)) (hClosed : s.Closed)
    (hRun : s.Runnable (t :: queue)) (k : Nat) : (schedule^[k + 1] s).current = t := by
  have hCurrent : s.schedule.current = t := (schedule_current s).trans (pickNextTask_cons h)
  have hPick : s.schedule.pickNextTask = s.schedule.current :=
    (pickNextTask_schedule h hClosed hRun).trans hCurrent.symm
  have hFixed : s.schedule.schedule = s.schedule := by
    rw [schedule, if_pos hPick]
  rw [Function.iterate_succ_apply, Function.iterate_fixed hFixed, hCurrent]

theorem Fair.length_le_one (hFair : s.Fair) (h : s.Linked queue) (hClosed : s.Closed)
    (hRun : s.Runnable queue) : queue.length ≤ 1 := by
  cases queue with
  | nil => exact Nat.zero_le 1
  | cons t rest =>
    cases rest with
    | nil => exact Nat.le_refl 1
    | cons u rest =>
      obtain ⟨hTask, hState, hIdle⟩ := (hRun u).mp (List.mem_cons_of_mem t List.mem_cons_self)
      obtain ⟨k, hPos, -, hTurn⟩ := hFair.turn u hTask hState hIdle
      obtain ⟨k, rfl⟩ := Nat.exists_eq_add_of_le' hPos
      obtain rfl : t = u := (current_iterate_schedule h hClosed hRun k).symm.trans hTurn
      exact absurd List.mem_cons_self (List.nodup_cons.mp h.nodup).1

theorem Linked.fair (h : s.Linked queue) (hClosed : s.Closed) (hRun : s.Runnable queue)
    (hShort : queue.length ≤ 1) : s.Fair := by
  constructor
  · intro u hTask hState hIdle
    have hMem : u ∈ queue := (hRun u).mpr ⟨hTask, hState, hIdle⟩
    obtain ⟨t, rfl⟩ : ∃ t, queue = [t] :=
      List.length_eq_one_iff.mp (Nat.le_antisymm hShort (List.length_pos_of_mem hMem))
    obtain rfl := List.mem_singleton.mp hMem
    exact ⟨1, Nat.le_refl 1, Nat.le_of_eq h.count.symm, current_iterate_schedule h hClosed hRun 0⟩
  · rintro queue' hLinked ⟨u, hMem, hOther⟩ -
    rw [← h.unique hLinked] at hMem
    obtain ⟨t, rfl⟩ : ∃ t, queue = [t] :=
      List.length_eq_one_iff.mp (Nat.le_antisymm hShort (List.length_pos_of_mem hMem))
    obtain rfl := List.mem_singleton.mp hMem
    rw [schedule_current, pickNextTask_cons h]
    exact hOther

end Turns

end System

/-- In every state that is reached with its queue in order, the scheduler is fair exactly if at most
one task is in the queue. -/
theorem fair_iff_single (steps : List Step) (hQueued : (schedInit.after steps).WellQueued) :
    (schedInit.after steps).Fair ↔ (schedInit.after steps).nrRunning ≤ 1 := by
  have hClosed := System.closed_after System.closed_schedInit steps
  obtain ⟨queue, hLinked, hRun⟩ := hQueued
  rw [hLinked.count]
  constructor
  · intro hFair
    exact hFair.length_le_one hLinked hClosed hRun
  · intro hShort
    exact hLinked.fair hClosed hRun hShort

def twoTasks : List Step := [.createTask 0 true, .createTask 0 true, .schedule]

theorem wellQueued_twoTasks : (schedInit.after twoTasks).WellQueued :=
  (((System.good_schedInit.next (.createTask 0 true) (fun _ => rfl)).next (.createTask 0 true)
    (fun _ => rfl)).next .schedule trivial).wellQueued

theorem fair_iff_single_twoTasks : (schedInit.after twoTasks).WellQueued ∧
    ((schedInit.after twoTasks).Fair ↔ (schedInit.after twoTasks).nrRunning ≤ 1) :=
  ⟨wellQueued_twoTasks, fair_iff_single twoTasks wellQueued_twoTasks⟩

theorem second_task_starves :
    (schedInit.after twoTasks).current = poolTask 0 ∧ (schedInit.after twoTasks).nrRunning = 2 ∧
      (schedInit.after twoTasks).schedule.current = poolTask 0 ∧
      ¬ (schedInit.after twoTasks).Fair := by
  refine ⟨by decide, by decide, by decide, fun hFair => ?_⟩
  obtain ⟨queue, hLinked, hRun⟩ := wellQueued_twoTasks
  have hShort := hFair.length_le_one hLinked (System.closed_after System.closed_schedInit twoTasks) hRun
  rw [← hLinked.count] at hShort
  exact absurd hShort (by decide)

end UnixOS.Sched
