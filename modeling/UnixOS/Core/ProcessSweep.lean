import UnixOS.Core.ProcessKill
import UnixOS.Core.ProcessLinks

/-! # How long `kill_children` takes

The work stack empties, it has room for every child, and no process comes up twice: the numbers on the way down from the
process that dies get larger, so that none of them is met again.
-/

namespace UnixOS.Proc

namespace System

/-- Without a switch in between, `kill_children` returns. Whenever it finds a child there is room on the stack, and it
finds no process twice. -/
def SweepsOnce (s : System) (pid : Int) : Prop :=
  ∃ n found table, Finds s.self n found (s.seen s.procTable (killChildren pid)) (s.seen table []) ∧
    (∀ child ∈ found, child.2 < maxProcesses) ∧ (found.map Prod.fst).Nodup

section Links

variable {s : System} (h : s.Sound) (hTidy : s.Tidy) (hClimbing : s.Climbing)
include hTidy

include h in
theorem Tidy.pidOf_injective (i : Slot) (hi : i ∈ liveSlots s.procTable) (j : Slot) (_ : j ∈ liveSlots s.procTable)
    (hEq : s.pidOf i = s.pidOf j) : i = j :=
  h.pid_distinct i j hEq (hTidy i (mem_liveSlots.mp hi))

include hClimbing

theorem Climbing.parentOf_lt {i : Slot} (hi : i ∈ liveSlots s.procTable) : s.parentOf i < s.pidOf i := by
  have hParent := hClimbing.parents i (hTidy i (mem_liveSlots.mp hi))
  unfold parentOf pidOf
  omega

theorem Climbing.lt_pidOf {pid : Int} {i : Slot} (hReach : s.LinkReaches pid i) : pid < s.pidOf i := by
  induction hReach with
  | child hMem hParent =>
    rw [← hParent]
    exact hClimbing.parentOf_lt hTidy hMem
  | step _ hMem hParent ih =>
    rw [← hParent] at ih
    exact ih.trans (hClimbing.parentOf_lt hTidy hMem)

theorem Climbing.not_selfParent (pid : Int) : ¬ s.SelfParent pid := by
  rintro ⟨c, -, hReach, hParent⟩
  exact Int.ne_of_lt (hClimbing.parentOf_lt hTidy hReach.mem) hParent

end Links

/-! ### Rounds -/

structure Counted (s : System) (pid : Int) (w : Sweep) (found : List (Slot × Nat)) : Prop where
  kept : Kept s w
  fits : Worklist.Fits s.self maxProcesses w.work
  progress : ∃ done, Worklist.Progress s.parentOf s.pidOf s.self (liveSlots s.procTable) pid w.work done ∧
    Worklist.Once s.parentOf s.pidOf (liveSlots s.procTable) pid w.work done ∧
    ∀ child ∈ found, done (s.parentOf child.1)
  room : ∀ child ∈ found, child.2 < maxProcesses
  nodup : (found.map Prod.fst).Nodup

theorem counted_sweepStart (s : System) (pid : Int) : Counted s pid (s.sweepStart pid) [] where
  kept := (swept_sweepStart s pid).kept
  fits := (swept_sweepStart s pid).fits
  progress := ⟨_, Worklist.Progress.init _ pid, Worklist.Once.init _ pid, fun _ hMem => absurd hMem List.not_mem_nil⟩
  room := fun _ hMem => absurd hMem List.not_mem_nil
  nodup := List.nodup_nil

section Rounds

variable {s : System} (h : s.Sound) (hTidy : s.Tidy) (hClimbing : s.Climbing)
include h hTidy hClimbing

theorem Counted.sweepStep {pid : Int} {w : Sweep} {found : List (Slot × Nat)} (hCounted : Counted s pid w found) :
    Counted s pid (sweepStep s.currentPid w) (found ++ sweepFound s.currentPid w) := by
  cases hStack : w.stack with
  | nil =>
    have hSame : System.sweepStep s.currentPid w = w := by
      simp only [System.sweepStep, hStack]
    have hNone : sweepFound s.currentPid w = [] := by
      simp only [sweepFound, hStack]
    rw [hSame, hNone, List.append_nil]
    exact hCounted
  | cons k rest =>
    obtain ⟨hKept, pushed, hPops⟩ := hCounted.kept.pops h hStack hCounted.fits
    obtain ⟨done, hProgress, hOnce, hDone⟩ := hCounted.progress
    have hFound : sweepFound s.currentPid w =
        visited s.currentPid k (List.finRange maxProcesses) { w with stack := rest } := by
      simp only [sweepFound, hStack]
    obtain ⟨hTaken, hPlaces⟩ := visited_eq s.currentPid k (List.nodup_finRange maxProcesses) { w with stack := rest }
      (hCounted.kept.room hStack hCounted.fits)
    rw [← hFound] at hTaken hPlaces
    have hParent : ∀ child ∈ sweepFound s.currentPid w, s.parentOf child.1 = k := by
      intro child hMem
      have hIn : child.1 ∈ (sweepFound s.currentPid w).map Prod.fst := List.mem_map_of_mem hMem
      rw [hTaken, List.mem_filter] at hIn
      have hChild := of_decide_eq_true hIn.2
      rw [parentOf, ← hCounted.kept.eq_of_live hChild.1]
      exact hChild.2
    have hTop : ¬ done k := by
      apply hOnce.fresh
      rw [hPops.before]
      exact List.mem_cons_self
    have hKeys := hTidy.pidOf_injective h
    have hRoot : ∀ i, s.LinkReaches pid i → s.pidOf i ≠ pid := fun i hReach =>
      Int.ne_of_gt (hClimbing.lt_pidOf hTidy hReach)
    refine ⟨hKept, hPops.fits hCounted.fits, ⟨_, hProgress.pop hPops, hOnce.pop hProgress hKeys hRoot hPops, ?_⟩, ?_, ?_⟩
    · intro child hMem
      rcases List.mem_append.mp hMem with hOld | hNew
      · exact Or.inl (hDone child hOld)
      · exact Or.inr (hParent child hNew)
    · intro child hMem
      rcases List.mem_append.mp hMem with hOld | hNew
      · exact hCounted.room child hOld
      · exact hPlaces child hNew
    · rw [List.map_append, List.nodup_append]
      refine ⟨hCounted.nodup, ?_, ?_⟩
      · rw [hTaken]
        exact (List.nodup_finRange maxProcesses).filter _
      · rintro _ hOld _ hNew rfl
        obtain ⟨child, hMem, hSlot⟩ := List.mem_map.mp hOld
        obtain ⟨child', hMem', hSlot'⟩ := List.mem_map.mp hNew
        apply hTop
        rw [← hParent child' hMem', hSlot', ← hSlot]
        exact hDone child hMem

theorem Counted.iterate (pid : Int) (n : Nat) :
    Counted s pid ((System.sweepStep s.currentPid)^[n] (s.sweepStart pid)) (sweepsFound s.currentPid (s.sweepStart pid) n) := by
  induction n with
  | zero => exact counted_sweepStart s pid
  | succ n ih =>
    rw [Function.iterate_succ_apply']
    exact ih.sweepStep h hTidy hClimbing

theorem Climbing.sweepsOnce (pid : Int) : s.SweepsOnce pid := by
  have hEnds := (swept_sweepStart s pid).ends h (hClimbing.not_selfParent hTidy pid)
  classical
  let n := Nat.find hEnds
  have hEmpty : ((System.sweepStep s.currentPid)^[n] (s.sweepStart pid)).stack = [] := Nat.find_spec hEnds
  have hCounted := Counted.iterate h hTidy hClimbing pid n
  obtain ⟨k, -, hFinds⟩ := finds_sweeps s (s.sweepStart pid) [] n fun m hm => Nat.find_min hEnds hm
  rw [hEmpty] at hFinds
  have hPop : Finds s.self 1 [] (s.seen ((System.sweepStep s.currentPid)^[n] (s.sweepStart pid)).table [.popParent []])
      (s.seen ((System.sweepStep s.currentPid)^[n] (s.sweepStart pid)).table []) :=
    seen_finds s _ _ (by simp) rfl rfl (.refl _)
  have hAll := hFinds.trans hPop
  rw [List.append_nil] at hAll
  exact ⟨_, _, _, hAll, hCounted.room, hCounted.nodup⟩

end Rounds

theorem Sound.not_sweepsOnce {s : System} (h : s.Sound) {pid : Int} (hLoop : s.SelfParent pid) : ¬ s.SweepsOnce pid := by
  rintro ⟨n, found, table, hFinds, -, -⟩
  have hLeft : (s.seen table []).Left s.self := Or.inl (seen_code s table [])
  have hEnd := hFinds.acts.finish_some hLeft
  rw [show killChildren pid = killChildren pid ++ [] from rfl, h.finish_killChildren pid [] hLoop] at hEnd
  cases hEnd

/-! ### Runs -/

theorem Climbing.after {s : System} (h : s.Sound) (hTidy : s.Tidy) (hClimbing : s.Climbing) (events : List Event)
    (hOrderly : s.OrderlyRun events) : (s.after events).Sound ∧ (s.after events).Tidy ∧ (s.after events).Climbing := by
  induction events generalizing s with
  | nil => exact ⟨h, hTidy, hClimbing⟩
  | cons event events ih =>
    exact ih (h.step event) ((hTidy.step_iff h event).mpr hOrderly.1) (hClimbing.step h hTidy event) hOrderly.2

theorem orderlyRun_take {s : System} {events : List Event} (hOrderly : s.OrderlyRun events) (n : Nat) :
    s.OrderlyRun (events.take n) := by
  induction events generalizing s n with
  | nil =>
    rw [List.take_nil]
    exact trivial
  | cons event events ih =>
    cases n with
    | zero => exact trivial
    | succ n => exact ⟨hOrderly.1, ih hOrderly.2 n⟩

end System

/-- In a run from `process_init` whose steps are in order, `kill_children` ends from every state, for every process that
dies. -/
theorem kill_children_once {events : List Event} (hOrderly : processInit.OrderlyRun events) (n : Nat) (pid : Int) :
    (processInit.after (events.take n)).SweepsOnce pid := by
  obtain ⟨hSound, hTidy, hClimbing⟩ := System.climbing_processInit.after System.sound_processInit
    System.tidy_processInit (events.take n) (System.orderlyRun_take hOrderly n)
  exact hClimbing.sweepsOnce hSound hTidy pid

instance System.decidableActInOrder (s : System) (act : Act) : Decidable (s.ActInOrder act) := by
  cases act <;>
    first | exact instDecidableTrue | exact inferInstanceAs (Decidable (_ = _)) | exact inferInstanceAs (Decidable (_ ≠ _))

instance System.decidableInOrder (s : System) (event : Event) : Decidable (s.InOrder event) := by
  cases event with
  | run => exact inferInstanceAs (Decidable (∀ act ∈ s.code.head?, s.ActInOrder act))
  | _ => exact instDecidableTrue

instance System.decidableOrderlyRun (s : System) : (events : List Event) → Decidable (s.OrderlyRun events)
  | [] => instDecidableTrue
  | event :: events =>
    let _ := System.decidableOrderlyRun (s.step event) events
    inferInstanceAs (Decidable (_ ∧ _))

theorem kill_children_once_nested : thirdSlot ∈ System.liveSlots (processInit.after (nestedRun.take 35)).procTable ∧
    (processInit.after (nestedRun.take 35)).parentOf thirdSlot = 1 ∧
    (processInit.after (nestedRun.take 35)).SweepsOnce 1 := by
  have hOrderly : processInit.OrderlyRun nestedRun := by decide +kernel
  exact ⟨by decide +kernel, by decide +kernel, kill_children_once hOrderly 35 1⟩

/-! ### A process without a number -/

def ticks : List Event := List.replicate 20 .timer

/-- Two processes run, and the second fails to load a third: the timer stops it when it has freed the slot, but not
cleared its number. -/
def releaseRun : List Event :=
  createEvents ++ createEvents ++ [.call .schedule, .run true 0] ++ ticks ++
    [.call .create, .run true 0, .run false 0, .run true 0] ++ ticks

def ghostEvents : List Event := createEvents ++ ticks ++ [.run true 0] ++ ticks

def ghostRun : List Event := releaseRun ++ ghostEvents

def releasing : System where
  procTable := fun i =>
    if i = firstSlot then ⟨1, .running, 4096, true, 0, -1⟩
    else if i = secondSlot then ⟨2, .ready, 4096, true, 0, -1⟩
    else if i = thirdSlot then ⟨3, .free, 0, false, 0, -1⟩
    else processInit.procTable i
  currentPid := firstSlot.index
  currentProcess := some firstSlot
  nextPid := 4
  preemptTicks := 0
  irq := true
  threads := fun t =>
    if t = none then ⟨[], 2⟩
    else if t = some firstSlot then freshThread
    else if t = some secondSlot then ⟨(releaseReservedSlotUnlocked thirdSlot).tail, 0⟩
    else haltedThread
  born := fun i => if i = firstSlot then 1 else if i = secondSlot then 2 else if i = thirdSlot then 3 else 0
  creator := (processInit.after releaseRun).creator

theorem creator_releasing : releasing.creator = (processInit.after releaseRun).creator := by
  rw [releasing]

theorem after_releaseRun : processInit.after releaseRun = releasing :=
  System.Agrees.eq (by decide +kernel) creator_releasing.symm

/-- The third process has no number, and the slot zero for a parent: its `process_exit` does not end. -/
theorem ghost_not_once : (processInit.after ghostRun).self = some thirdSlot ∧
    (processInit.after ghostRun).pidOf thirdSlot = 0 ∧ ¬ (processInit.after ghostRun).SweepsOnce 0 := by
  have hRun : processInit.after ghostRun = releasing.after ghostEvents := by
    rw [ghostRun, System.after, List.foldl_append, ← after_releaseRun]
    rfl
  have hGhost : (releasing.after ghostEvents).self = some thirdSlot ∧
      (releasing.after ghostEvents).procTable thirdSlot = ⟨0, .running, 4096, true, 0, 0⟩ := by
    decide +kernel
  obtain ⟨hSelf, hProcess⟩ := hGhost
  have hSound := System.sound_processInit.after ghostRun
  rw [hRun] at hSound ⊢
  have hPid : (releasing.after ghostEvents).pidOf thirdSlot = 0 := congrArg Process.pid hProcess
  have hParent : (releasing.after ghostEvents).parentOf thirdSlot = 0 := congrArg Process.parentPid hProcess
  have hLive : thirdSlot ∈ System.liveSlots (releasing.after ghostEvents).procTable := by
    rw [System.mem_liveSlots, hProcess]
    decide
  refine ⟨hSelf, hPid, hSound.not_sweepsOnce ?_⟩
  exact ⟨thirdSlot, hSelf, .child hLive hParent, hParent.trans hPid.symm⟩

end UnixOS.Proc
