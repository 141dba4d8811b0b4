import UnixOS.Lib.DoublyLinked
import UnixOS.Sched.Sched

/-! # The links of the run queue

What `enqueue_task` and `dequeue_task` write, and that they add a task behind the last one and take
a task out of a doubly linked list.
-/

namespace UnixOS.Sched

open DoublyLinked (Seg)

namespace System

structure Linked (s : System) (queue : List TaskPtr) : Prop where
  seg : Seg s.next s.prev null queue null
  head : s.head = queue.headD null
  tail : s.tail = queue.getLastD null
  nodup : queue.Nodup
  tasks : ∀ t ∈ queue, t ≠ null
  count : s.nrRunning = queue.length

/-! ### Fields -/

section Fields

variable (s : System) (t u : TaskPtr) (task : Task)

@[simp] theorem setTask_next : (s.setTask t task).next = Function.update s.next t task.next :=
  Function.comp_update Task.next s.tasks t task

@[simp] theorem setTask_prev : (s.setTask t task).prev = Function.update s.prev t task.prev :=
  Function.comp_update Task.prev s.tasks t task

@[simp] theorem setTask_stateOf :
    (s.setTask t task).stateOf = Function.update s.stateOf t task.state :=
  Function.comp_update Task.state s.tasks t task

theorem setTask_signalsOf :
    (s.setTask t task).signalsOf = Function.update s.signalsOf t task.signals :=
  Function.comp_update Task.signals s.tasks t task

@[simp] theorem setNext_next : (s.setNext t u).next = Function.update s.next t u :=
  setTask_next s t _

@[simp] theorem setNext_prev : (s.setNext t u).prev = s.prev :=
  (setTask_prev s t _).trans (Function.update_eq_self t s.prev)

@[simp] theorem setNext_stateOf : (s.setNext t u).stateOf = s.stateOf :=
  (setTask_stateOf s t _).trans (Function.update_eq_self t s.stateOf)

@[simp] theorem setPrev_prev : (s.setPrev t u).prev = Function.update s.prev t u :=
  setTask_prev s t _

@[simp] theorem setPrev_next : (s.setPrev t u).next = s.next :=
  (setTask_next s t _).trans (Function.update_eq_self t s.next)

@[simp] theorem setPrev_stateOf : (s.setPrev t u).stateOf = s.stateOf :=
  (setTask_stateOf s t _).trans (Function.update_eq_self t s.stateOf)

variable (state : TaskState)

@[simp] theorem setState_next : (s.setState t state).next = s.next :=
  (setTask_next s t _).trans (Function.update_eq_self t s.next)

@[simp] theorem setState_prev : (s.setState t state).prev = s.prev :=
  (setTask_prev s t _).trans (Function.update_eq_self t s.prev)

@[simp] theorem setState_stateOf :
    (s.setState t state).stateOf = Function.update s.stateOf t state :=
  setTask_stateOf s t _

end Fields

structure SameQueue (s s' : System) : Prop where
  next : s'.next = s.next
  prev : s'.prev = s.prev
  stateOf : s'.stateOf = s.stateOf
  head : s'.head = s.head
  tail : s'.tail = s.tail
  nrRunning : s'.nrRunning = s.nrRunning
  current : s'.current = s.current
  idle : s'.idle = s.idle
  taskPoolIndex : s'.taskPoolIndex = s.taskPoolIndex
  pid : ∀ t, (s'.tasks t).pid = (s.tasks t).pid

section Links

variable {s s' : System} {queue : List TaskPtr} {t : TaskPtr}

theorem SameQueue.refl (s : System) : s.SameQueue s :=
  ⟨rfl, rfl, rfl, rfl, rfl, rfl, rfl, rfl, rfl, fun _ => rfl⟩

theorem sameQueue_setTask {task : Task} (hNext : task.next = s.next t) (hPrev : task.prev = s.prev t)
    (hState : task.state = s.stateOf t) (hPid : task.pid = (s.tasks t).pid) :
    s.SameQueue (s.setTask t task) := by
  refine ⟨?_, ?_, ?_, rfl, rfl, rfl, rfl, rfl, rfl, ?_⟩
  · rw [setTask_next, hNext, Function.update_eq_self]
  · rw [setTask_prev, hPrev, Function.update_eq_self]
  · rw [setTask_stateOf, hState, Function.update_eq_self]
  · intro u
    simp only [setTask, Function.update_apply]
    split
    case isTrue hHere => rw [hHere, hPid]
    case isFalse hElse => rfl

theorem Linked.congr (h : s.Linked queue) (hNext : s'.next = s.next) (hPrev : s'.prev = s.prev)
    (hHead : s'.head = s.head) (hTail : s'.tail = s.tail) (hCount : s'.nrRunning = s.nrRunning) :
    s'.Linked queue := by
  refine ⟨?_, hHead.trans h.head, hTail.trans h.tail, h.nodup, h.tasks, hCount.trans h.count⟩
  rw [hNext, hPrev]
  exact h.seg

theorem enqueueTask_fields (s : System) (t : TaskPtr) :
    (s.enqueueTask t).next = (if s.head = null then Function.update s.next t null
      else Function.update (Function.update s.next t null) s.tail t) ∧
    (s.enqueueTask t).prev = Function.update s.prev t (if s.head = null then null else s.tail) ∧
    (s.enqueueTask t).head = (if s.head = null then t else s.head) ∧
    (s.enqueueTask t).tail = t ∧ (s.enqueueTask t).nrRunning = s.nrRunning + 1 := by
  have hHead : (s.setState t .running).head = s.head := rfl
  have hNext := setState_next s t .running
  have hPrev := setState_prev s t .running
  unfold enqueueTask
  simp only [hHead]
  split
  case isTrue hEmpty =>
    refine ⟨?_, ?_, rfl, rfl, rfl⟩
    · change System.next (setNext _ t null) = _
      rw [setNext_next, setPrev_next, ← hNext]
      rfl
    · change System.prev (setNext _ t null) = _
      rw [setNext_prev, setPrev_prev, ← hPrev]
      rfl
  case isFalse hSome =>
    refine ⟨?_, ?_, rfl, rfl, rfl⟩
    · change System.next (setNext _ s.tail t) = _
      rw [setNext_next, setNext_next, setPrev_next, hNext]
    · change System.prev (setNext _ s.tail t) = _
      rw [setNext_prev, setNext_prev, setPrev_prev, hPrev]
      rfl

@[simp] theorem enqueueTask_stateOf (s : System) (t : TaskPtr) :
    (s.enqueueTask t).stateOf = Function.update s.stateOf t .running := by
  have hHead : (s.setState t .running).head = s.head := rfl
  rw [← setState_stateOf]
  unfold enqueueTask
  simp only [hHead]
  split
  case isTrue hEmpty =>
    change System.stateOf (setNext _ t null) = _
    rw [setNext_stateOf, setPrev_stateOf]
    rfl
  case isFalse hSome =>
    change System.stateOf (setNext _ s.tail t) = _
    rw [setNext_stateOf, setNext_stateOf, setPrev_stateOf]

structure Keeps (s s' : System) : Prop where
  current : s'.current = s.current
  idle : s'.idle = s.idle
  taskPoolIndex : s'.taskPoolIndex = s.taskPoolIndex
  frames : s'.frames = s.frames
  signals : ∀ t, (s'.tasks t).signals = (s.tasks t).signals
  pid : ∀ t, (s'.tasks t).pid = (s.tasks t).pid

theorem Keeps.trans {s'' : System} (h : s.Keeps s') (h' : s'.Keeps s'') : s.Keeps s'' :=
  ⟨h'.current.trans h.current, h'.idle.trans h.idle, h'.taskPoolIndex.trans h.taskPoolIndex,
    h'.frames.trans h.frames, fun t => (h'.signals t).trans (h.signals t),
    fun t => (h'.pid t).trans (h.pid t)⟩

theorem keeps_setTask {task : Task} (hSignals : task.signals = (s.tasks t).signals)
    (hPid : task.pid = (s.tasks t).pid) : s.Keeps (s.setTask t task) := by
  refine ⟨rfl, rfl, rfl, rfl, fun u => ?_, fun u => ?_⟩ <;>
    simp only [setTask, Function.update_apply] <;> split
  case refine_1.isTrue hHere => rw [hHere, hSignals]
  case refine_2.isTrue hHere => rw [hHere, hPid]
  all_goals rfl

theorem keeps_setNext (s : System) (t u : TaskPtr) : s.Keeps (s.setNext t u) :=
  keeps_setTask rfl rfl

theorem keeps_setPrev (s : System) (t u : TaskPtr) : s.Keeps (s.setPrev t u) :=
  keeps_setTask rfl rfl

theorem keeps_setState (s : System) (t : TaskPtr) (state : TaskState) :
    s.Keeps (s.setState t state) := keeps_setTask rfl rfl

theorem keeps_enqueueTask (s : System) (t : TaskPtr) : s.Keeps (s.enqueueTask t) := by
  have hState := keeps_setState s t .running
  unfold enqueueTask
  dsimp only
  split
  case isTrue hEmpty =>
    have hLinks := ((keeps_setPrev { s.setState t .running with head := t, tail := t } t null).trans
      (keeps_setNext _ t null))
    exact hState.trans ⟨hLinks.1, hLinks.2, hLinks.3, hLinks.4, hLinks.5, hLinks.6⟩
  case isFalse hSome =>
    have hLinks := ((keeps_setPrev (s.setState t .running) t s.tail).trans
      (keeps_setNext _ t null)).trans (keeps_setNext _ s.tail t)
    exact hState.trans ⟨hLinks.1, hLinks.2, hLinks.3, hLinks.4, hLinks.5, hLinks.6⟩

theorem dequeueNext_fields (s : System) (t : TaskPtr) :
    (s.dequeueNext t).next = (if s.prev t ≠ null then Function.update s.next (s.prev t) (s.next t)
      else s.next) ∧
    (s.dequeueNext t).prev = s.prev ∧ (s.dequeueNext t).stateOf = s.stateOf ∧
    (s.dequeueNext t).head = (if s.prev t ≠ null then s.head else s.next t) ∧
    (s.dequeueNext t).tail = s.tail ∧ (s.dequeueNext t).nrRunning = s.nrRunning ∧
    s.Keeps (s.dequeueNext t) := by
  unfold dequeueNext
  split
  case isTrue hSome =>
    exact ⟨setNext_next .., setNext_prev .., setNext_stateOf .., rfl, rfl, rfl, keeps_setNext ..⟩
  case isFalse hNone => exact ⟨rfl, rfl, rfl, rfl, rfl, rfl, rfl, rfl, rfl, rfl, fun _ => rfl, fun _ => rfl⟩

theorem dequeuePrev_fields (s : System) (t : TaskPtr) :
    (s.dequeuePrev t).prev = (if s.next t ≠ null then Function.update s.prev (s.next t) (s.prev t)
      else s.prev) ∧
    (s.dequeuePrev t).next = s.next ∧ (s.dequeuePrev t).stateOf = s.stateOf ∧
    (s.dequeuePrev t).tail = (if s.next t ≠ null then s.tail else s.prev t) ∧
    (s.dequeuePrev t).head = s.head ∧ (s.dequeuePrev t).nrRunning = s.nrRunning ∧
    s.Keeps (s.dequeuePrev t) := by
  unfold dequeuePrev
  split
  case isTrue hSome =>
    exact ⟨setPrev_prev .., setPrev_next .., setPrev_stateOf .., rfl, rfl, rfl, keeps_setPrev ..⟩
  case isFalse hNone => exact ⟨rfl, rfl, rfl, rfl, rfl, rfl, rfl, rfl, rfl, rfl, fun _ => rfl, fun _ => rfl⟩

theorem dequeueTask_eq (s : System) (t : TaskPtr) : s.dequeueTask t =
    { (((s.dequeueNext t).dequeuePrev t).setPrev t null).setNext t null with
      nrRunning := ((s.dequeueNext t).dequeuePrev t).nrRunning - 1 } := by
  unfold dequeueTask
  dsimp only
  split
  case isTrue hSome => rfl
  case isFalse hZero =>
    have hCount : ((s.dequeueNext t).dequeuePrev t).nrRunning = 0 := Nat.eq_zero_of_not_pos hZero
    rw [hCount, Nat.zero_sub, ← hCount]
    rfl

theorem dequeueTask_fields (s : System) (t : TaskPtr) :
    (s.dequeueTask t).next = Function.update (if s.prev t ≠ null then
      Function.update s.next (s.prev t) (s.next t) else s.next) t null ∧
    (s.dequeueTask t).prev = Function.update (if s.next t ≠ null then
      Function.update s.prev (s.next t) (s.prev t) else s.prev) t null ∧
    (s.dequeueTask t).head = (if s.prev t ≠ null then s.head else s.next t) ∧
    (s.dequeueTask t).tail = (if s.next t ≠ null then s.tail else s.prev t) ∧
    (s.dequeueTask t).nrRunning = s.nrRunning - 1 := by
  obtain ⟨hNext, hPrev, -, hHead, hTail, hCount, -⟩ := dequeueNext_fields s t
  obtain ⟨hPrev', hNext', -, hTail', hHead', hCount', -⟩ := dequeuePrev_fields (s.dequeueNext t) t
  have hSame : (s.dequeueNext t).next t = s.next t := by
    rw [hNext]
    split
    case isTrue hSome =>
      rw [Function.update_apply]
      split <;> rfl
    case isFalse hNone => rfl
  rw [hSame, hPrev] at hPrev' hTail'
  rw [dequeueTask_eq]
  refine ⟨?_, ?_, hHead'.trans hHead, ?_, ?_⟩
  · change System.next (setNext _ t null) = _
    rw [setNext_next, setPrev_next, hNext', hNext]
  · change System.prev (setNext _ t null) = _
    rw [setNext_prev, setPrev_prev, hPrev']
  · exact hTail'.trans (by rw [hTail])
  · exact congrArg (· - 1) (hCount'.trans hCount)

@[simp] theorem dequeueTask_stateOf (s : System) (t : TaskPtr) :
    (s.dequeueTask t).stateOf = s.stateOf := by
  obtain ⟨-, -, hState, -⟩ := dequeueNext_fields s t
  obtain ⟨-, -, hState', -⟩ := dequeuePrev_fields (s.dequeueNext t) t
  rw [dequeueTask_eq]
  change System.stateOf (setNext _ t null) = _
  rw [setNext_stateOf, setPrev_stateOf, hState', hState]

theorem keeps_dequeueTask (s : System) (t : TaskPtr) : s.Keeps (s.dequeueTask t) := by
  obtain ⟨-, -, -, -, -, -, hKeeps⟩ := dequeueNext_fields s t
  obtain ⟨-, -, -, -, -, -, hKeeps'⟩ := dequeuePrev_fields (s.dequeueNext t) t
  have hLinks := (hKeeps.trans hKeeps').trans
    ((keeps_setPrev _ t null).trans (keeps_setNext _ t null))
  rw [dequeueTask_eq]
  exact ⟨hLinks.1, hLinks.2, hLinks.3, hLinks.4, hLinks.5, hLinks.6⟩

theorem Linked.dequeue {before behind : List TaskPtr} (h : s.Linked (before ++ t :: behind)) :
    (s.dequeueTask t).Linked (before ++ behind) := by
  obtain ⟨hNext, hPrev, hHead, hTail, hCount⟩ := dequeueTask_fields s t
  obtain ⟨hBack, hForth⟩ := h.seg.at_split
  have hSub : (before ++ behind).Sublist (before ++ t :: behind) :=
    (List.Sublist.refl before).append (List.sublist_cons_self t behind)
  have hOther : ∀ u ∈ before ++ behind, u ≠ t := by
    rintro u hu rfl
    have hPerm : (before ++ u :: behind).Perm (u :: (before ++ behind)) := List.perm_middle
    exact (List.nodup_cons.mp (hPerm.nodup_iff.mp h.nodup)).1 hu
  have hNull : ∀ u ∈ before ++ behind, u ≠ null := fun u hu => h.tasks u (hSub.subset hu)
  have hApart : ∀ u ∈ before, ∀ v ∈ behind, u ≠ v := by
    intro u hu v hv
    exact (List.nodup_append.mp h.nodup).2.2 u hu v (List.mem_cons_of_mem t hv)
  have hFirst : s.prev t ≠ null → s.prev t ∈ before := by
    intro hSome
    rw [hBack] at hSome ⊢
    exact (DoublyLinked.getLastD_eq_or_mem before null).resolve_left hSome
  have hLast : s.next t ≠ null → s.next t ∈ behind := by
    intro hSome
    rw [hForth] at hSome ⊢
    exact (DoublyLinked.headD_eq_or_mem behind null).resolve_left hSome
  refine ⟨?_, ?_, ?_, h.nodup.sublist hSub, hNull, ?_⟩
  · refine h.seg.unlink h.nodup ?_ ?_ ?_ ?_
    · intro u hu
      have hSome : s.prev t ≠ null := by
        rw [hBack]
        exact hNull _ (List.mem_append_left _ (DoublyLinked.getLastD_mem (List.ne_nil_of_mem hu) null))
      rw [hNext, Function.update_of_ne (hOther u (List.mem_append_left _ hu)), if_pos hSome, hBack,
        hForth]
    · intro u hu
      rw [hPrev, Function.update_of_ne (hOther u (List.mem_append_left _ hu))]
      split
      case isTrue hSome => exact Function.update_of_ne (hApart u hu _ (hLast hSome)) _ _
      case isFalse hNone => rfl
    · intro u hu
      rw [hNext, Function.update_of_ne (hOther u (List.mem_append_right _ hu))]
      split
      case isTrue hSome => exact Function.update_of_ne (hApart _ (hFirst hSome) u hu).symm _ _
      case isFalse hNone => rfl
    · intro u hu
      have hSome : s.next t ≠ null := by
        rw [hForth]
        refine hNull _ (List.mem_append_right _ ?_)
        cases behind with
        | nil => cases hu
        | cons v vs => exact List.mem_cons_self
      rw [hPrev, Function.update_of_ne (hOther u (List.mem_append_right _ hu)), if_pos hSome, hBack,
        hForth]
  · rw [hHead, h.head, hBack, hForth]
    cases before with
    | nil => rfl
    | cons u us =>
      rw [if_pos (hNull _ (List.mem_append_left _
        (DoublyLinked.getLastD_mem (List.cons_ne_nil u us) null)))]
      rfl
  · rw [hTail, h.tail, hBack, hForth, DoublyLinked.getLastD_append_cons]
    cases behind with
    | nil => simp
    | cons u us =>
      rw [List.headD_cons, if_pos (hNull u (List.mem_append_right _ List.mem_cons_self)), List.getLastD_cons,
        DoublyLinked.getLastD_append_cons]
  · rw [hCount, h.count, List.length_append, List.length_append, List.length_cons]
    omega

theorem Linked.enqueue (h : s.Linked queue) (ht : t ≠ null) (hNew : t ∉ queue) :
    (s.enqueueTask t).Linked (queue ++ [t]) := by
  obtain ⟨hNext, hPrev, hHead, hTail, hCount⟩ := enqueueTask_fields s t
  have hOther : ∀ u ∈ queue, u ≠ t := by
    rintro u hu rfl
    exact hNew hu
  have hEmpty : s.head = null ↔ queue = [] := by
    rw [h.head]
    cases queue with
    | nil => exact iff_of_true rfl rfl
    | cons u us => exact iff_of_false (h.tasks u List.mem_cons_self) (List.cons_ne_nil u us)
  refine ⟨?_, ?_, ?_, ?_, ?_, ?_⟩
  · refine h.seg.push_back h.nodup ?_ ?_ ?_ ?_
    · intro u hu
      have hSome : s.head ≠ null := by
        rw [ne_eq, hEmpty]
        exact List.ne_nil_of_mem hu
      rw [hNext, if_neg hSome, h.tail]
      simp only [Function.update_apply, if_neg (hOther u hu)]
    · intro u hu
      rw [hPrev, Function.update_of_ne (hOther u hu)]
    · rw [hNext]
      split
      case isTrue hNone => exact Function.update_self ..
      case isFalse hSome =>
        have hLast : s.tail ∈ queue := by
          rw [h.tail]
          exact DoublyLinked.getLastD_mem (fun hNil => hSome (hEmpty.mpr hNil)) null
        rw [Function.update_of_ne (hOther s.tail hLast).symm, Function.update_self]
    · rw [hPrev, Function.update_self]
      split
      case isTrue hNone =>
        rw [hEmpty.mp hNone]
        rfl
      case isFalse hSome => exact h.tail
  · rw [hHead]
    cases queue with
    | nil => rw [if_pos (hEmpty.mpr rfl)]; rfl
    | cons u us =>
      rw [if_neg (fun hNone => List.cons_ne_nil u us (hEmpty.mp hNone)), h.head]
      rfl
  · rw [hTail, DoublyLinked.getLastD_append_cons]
    rfl
  · rw [List.nodup_append]
    refine ⟨h.nodup, List.nodup_singleton t, ?_⟩
    intro u hu v hv
    rw [List.mem_singleton.mp hv]
    exact hOther u hu
  · intro u hu
    rcases List.mem_append.mp hu with hOld | hLast
    · exact h.tasks u hOld
    · rw [List.mem_singleton.mp hLast]
      exact ht
  · rw [hCount, h.count, List.length_append]
    rfl

theorem Linked.unique {queue' : List TaskPtr} (h : s.Linked queue) (h' : s.Linked queue') :
    queue = queue' :=
  h.seg.unique h'.seg (h.head.symm.trans h'.head) (fun hMem => h.tasks null hMem rfl)
    (fun hMem => h'.tasks null hMem rfl)

end Links

end System

end UnixOS.Sched
