import UnixOS.Core.ProcessTable
import UnixOS.Lib.Worklist

/-! # What a kill and an exit remove

`process_create` records in `parent_pid` the slot of the process that is running, `kill_children`
looks for the process number of the one that dies. A kill that the timer leaves alone removes what
these numbers lead to; that is the subtree of the process only where the two happen to agree.
-/

namespace UnixOS.Proc

namespace System

/-! ### Calls that are not interrupted -/

def Left (t : Option Slot) (s : System) : Prop :=
  (s.threads t).code = [] ∨ (s.threads t).code = [.halted]

instance (t : Option Slot) (s : System) : Decidable (Left t s) :=
  inferInstanceAs (Decidable (_ ∨ _))

/-- The running thread goes on until thread `t` has left its call. -/
def finish (t : Option Slot) : Nat → System → Option System
  | 0, _ => none
  | fuel + 1, s => if s.Left t then some s else finish t fuel (s.runAct false 0)

inductive Acts (t : Option Slot) : Nat → System → System → Prop
  | refl (s : System) : Acts t 0 s s
  | act {n : Nat} {s s' : System} : ¬ s.Left t → Acts t n (s.runAct false 0) s' → Acts t (n + 1) s s'

section Acts

variable {t : Option Slot} {s s' s'' : System} {n m : Nat}

theorem Acts.trans (h : Acts t n s s') (h' : Acts t m s' s'') : Acts t (n + m) s s'' := by
  induction h with
  | refl _ => simpa using h'
  | @act n _ _ hLeft _ ih =>
    rw [Nat.add_right_comm]
    exact .act hLeft (ih h')

theorem Acts.finish_eq (h : Acts t n s s') (fuel : Nat) : finish t (n + fuel) s = finish t fuel s' := by
  induction h with
  | refl _ => rw [Nat.zero_add]
  | act hLeft _ ih =>
    rw [Nat.add_right_comm, finish, if_neg hLeft]
    exact ih

theorem Acts.finish_none (h : Acts t n s s') {fuel : Nat} (hFuel : fuel ≤ n) :
    finish t fuel s = none := by
  induction h generalizing fuel with
  | refl _ =>
    have hZero : fuel = 0 := by omega
    rw [hZero]
    rfl
  | act hLeft _ ih =>
    cases fuel with
    | zero => rfl
    | succ fuel =>
      rw [finish, if_neg hLeft]
      exact ih (by omega)

theorem Acts.finish_never (h : Acts t n s s') (hNever : ∀ fuel, finish t fuel s' = none)
    (fuel : Nat) : finish t fuel s = none := by
  by_cases hLe : fuel ≤ n
  · exact h.finish_none hLe
  · obtain ⟨k, rfl⟩ : ∃ k, fuel = n + k := ⟨fuel - n, by omega⟩
    rw [h.finish_eq, hNever]

theorem Acts.finish_some (h : Acts t n s s') (hLeft : s'.Left t) : finish t (n + 1) s = some s' := by
  rw [h.finish_eq, finish, if_pos hLeft]

theorem Acts.finish_unique (h : Acts t n s s') (hLeft : s'.Left t) {fuel : Nat}
    (hFinish : finish t fuel s = some s'') : s'' = s' := by
  have hMore : n < fuel := by
    by_contra hLe
    rw [h.finish_none (by omega)] at hFinish
    cases hFinish
  obtain ⟨k, rfl⟩ : ∃ k, fuel = n + (k + 1) := ⟨fuel - n - 1, by omega⟩
  rw [h.finish_eq, finish, if_pos hLeft] at hFinish
  exact (Option.some.inj hFinish).symm

end Acts

/-! ### The acts of `kill_children` -/

def foundBy : Act → Option (Slot × Nat)
  | .childPid _ slot stack => some (slot, stack.length)
  | _ => none

inductive Finds (t : Option Slot) : Nat → List (Slot × Nat) → System → System → Prop
  | refl (s : System) : Finds t 0 [] s s
  | act {n : Nat} {found : List (Slot × Nat)} {s s' : System} {act : Act} {rest : List Act} :
      (s.threads t).code = act :: rest → act ≠ .halted → Finds t n found (s.runAct false 0) s' →
        Finds t (n + 1) ((foundBy act).toList ++ found) s s'

section Finds

variable {t : Option Slot} {s s' s'' : System} {n m : Nat} {found found' : List (Slot × Nat)}

theorem Finds.trans (h : Finds t n found s s') (h' : Finds t m found' s' s'') :
    Finds t (n + m) (found ++ found') s s'' := by
  induction h with
  | refl _ => simpa using h'
  | @act n _ _ _ _ _ hCode hAct _ ih =>
    rw [Nat.add_right_comm, List.append_assoc]
    exact .act hCode hAct (ih h')

theorem Finds.acts (h : Finds t n found s s') : Acts t n s s' := by
  induction h with
  | refl s => exact .refl s
  | act hCode hAct _ ih =>
    refine .act ?_ ih
    simp [Left, hCode, hAct]

end Finds

/-- The same system with another table, the running thread having `code` to do. -/
def seen (s : System) (table : Slot → Process) (code : List Act) : System :=
  { s with
    procTable := table
    threads := Function.update s.threads s.self { s.threads s.self with code := code } }

section Seen

variable (s : System) (table : Slot → Process) (code : List Act)

theorem seen_self : (s.seen table code).self = s.self := rfl

@[simp] theorem seen_procTable : (s.seen table code).procTable = table := rfl
@[simp] theorem seen_currentPid : (s.seen table code).currentPid = s.currentPid := rfl

theorem seen_thread :
    (s.seen table code).threads s.self = { s.threads s.self with code := code } :=
  Function.update_self ..

theorem seen_setThread (rest : List Act) :
    (s.seen table code).setThread s.self { s.threads s.self with code := rest } =
      s.seen table rest := by
  simp [setThread, seen]

theorem seen_code : (s.seen table code).code = code := by
  rw [System.code, seen_self, seen_thread]

theorem seen_setCode (rest : List Act) : (s.seen table code).setCode rest = s.seen table rest := by
  rw [setCode, seen_self, seen_thread, seen_setThread]

@[simp] theorem seen_push (acts : List Act) : (s.seen table code).push acts = s.seen table (acts ++ code) := by
  rw [push, seen_self, seen_thread, seen_setThread]

@[simp] theorem seen_modify (i : Slot) (f : Process → Process) :
    (s.seen table code).modify i f = s.seen (Function.update table i (f (table i))) code := rfl

theorem seen_runAct (act : Act) :
    (s.seen table (act :: code)).runAct false 0 = (s.seen table code).execute false 0 act := by
  rw [runAct, seen_code]
  dsimp only
  rw [seen_setCode]

theorem not_left_seen {act : Act} (hAct : act ≠ .halted) :
    ¬ (s.seen table (act :: code)).Left s.self := by
  simp [Left, seen, hAct]

theorem seen_act {act : Act} (hAct : act ≠ .halted) {table' : Slot → Process} {code' : List Act}
    (hExecute : (s.seen table code).execute false 0 act = s.seen table' code') {n : Nat}
    {s' : System} (h : Acts s.self n (s.seen table' code') s') :
    Acts s.self (n + 1) (s.seen table (act :: code)) s' := by
  refine .act (not_left_seen s table code hAct) ?_
  rwa [seen_runAct, hExecute]

theorem seen_finds {act : Act} (hAct : act ≠ .halted) (hNothing : foundBy act = none) {table' : Slot → Process}
    {code' : List Act} (hExecute : (s.seen table code).execute false 0 act = s.seen table' code') {n : Nat}
    {found : List (Slot × Nat)} {s' : System} (h : Finds s.self n found (s.seen table' code') s') :
    Finds s.self (n + 1) found (s.seen table (act :: code)) s' := by
  rw [← seen_runAct s] at hExecute
  rw [← hExecute] at h
  have hFinds := Finds.act (seen_code s table _) hAct h
  rwa [hNothing] at hFinds

theorem seen_child {parent : Int} {i : Slot} {stack : List Int} {table' : Slot → Process} {code' : List Act}
    (hExecute : (s.seen table code).execute false 0 (.childPid parent i stack) = s.seen table' code') {n : Nat}
    {found : List (Slot × Nat)} {s' : System} (h : Finds s.self n found (s.seen table' code') s') :
    Finds s.self (n + 1) ((i, stack.length) :: found) (s.seen table (.childPid parent i stack :: code)) s' := by
  rw [← seen_runAct s] at hExecute
  rw [← hExecute] at h
  exact .act (seen_code s table _) (by simp) h

end Seen

structure Sweep where
  table : Slot → Process
  stack : List Int

def freed (p : Process) : Process := { p with stackBase := 0, state := .free, pid := 0 }

def Taken (table : Slot → Process) (parent : Int) (i : Slot) : Prop :=
  (table i).state ≠ .free ∧ (table i).parentPid = parent

instance (table : Slot → Process) (parent : Int) (i : Slot) : Decidable (Taken table parent i) :=
  inferInstanceAs (Decidable (_ ∧ _))

/-- One round of the inner loop of `kill_children`. -/
def visit (current parent : Int) (w : Sweep) (i : Slot) : Sweep :=
  if Taken w.table parent i then
    { table := if i.index ≠ current then Function.update w.table i (freed (w.table i)) else w.table
      stack := if w.stack.length < maxProcesses then (w.table i).pid :: w.stack else w.stack }
  else w

def visited (current parent : Int) : List Slot → Sweep → List (Slot × Nat)
  | [], _ => []
  | i :: slots, w =>
    (if Taken w.table parent i then [(i, w.stack.length)] else []) ++
      visited current parent slots (visit current parent w i)

/-- One round of the outer loop of `kill_children`. -/
def sweepStep (current : Int) (w : Sweep) : Sweep :=
  match w.stack with
  | [] => w
  | parent :: rest =>
    (List.finRange maxProcesses).foldl (visit current parent) { w with stack := rest }

def sweepFound (current : Int) (w : Sweep) : List (Slot × Nat) :=
  match w.stack with
  | [] => []
  | parent :: rest => visited current parent (List.finRange maxProcesses) { w with stack := rest }

section Rounds

variable (s : System)

theorem finds_stackCheck (table : Slot → Process) (i : Slot) (code : List Act) :
    ∃ n, Finds s.self n [] (s.seen table (.stackCheck i :: code))
      (s.seen (Function.update table i { table i with stackBase := 0 }) code) := by
  by_cases hZero : (table i).stackBase = 0
  · have hSame : Function.update table i { table i with stackBase := 0 } = table := by
      rw [← hZero]
      exact Function.update_eq_self i table
    rw [hSame]
    exact ⟨1, seen_finds s table code (by simp) rfl (by simp [execute, hZero]) (.refl _)⟩
  · have hCheck : (s.seen table code).execute false 0 (.stackCheck i) =
        s.seen table (.stackClear i :: code) := by
      simp [execute, hZero]
    exact ⟨2, seen_finds s table code (by simp) rfl hCheck
      (seen_finds s table code (by simp) rfl rfl (.refl _))⟩

theorem finds_freeSlot (table : Slot → Process) (i : Slot) (code : List Act) :
    ∃ n, Finds s.self n [] (s.seen table (freeSlot i ++ code))
      (s.seen (Function.update table i (freed (table i))) code) := by
  obtain ⟨n, hStack⟩ := finds_stackCheck s table i (.freeState i :: .freePid i :: code)
  refine ⟨n + 2, hStack.trans ?_⟩
  refine seen_finds s _ _ (by simp) rfl rfl (seen_finds s _ _ (by simp) rfl rfl ?_)
  simp only [seen_procTable, Function.update_self, Function.update_idem]
  exact .refl _

theorem finds_visit (w : Sweep) (parent : Int) (i : Slot) (code : List Act) :
    ∃ n, Finds s.self n (if Taken w.table parent i then [(i, w.stack.length)] else [])
      (s.seen w.table (.childState parent i.val w.stack :: code))
      (s.seen (visit s.currentPid parent w i).table
        (.childState parent (i.val + 1) (visit s.currentPid parent w i).stack :: code)) := by
  by_cases hFree : (w.table i).state = .free
  · have hTaken : ¬ Taken w.table parent i := fun hTaken => hTaken.1 hFree
    rw [visit, if_neg hTaken, if_neg hTaken]
    exact ⟨1, seen_finds s _ _ (by simp) rfl (by simp [execute, hFree]) (.refl _)⟩
  · have hState : (s.seen w.table code).execute false 0 (.childState parent i.val w.stack) =
        s.seen w.table (.childParent parent i w.stack :: code) := by
      simp [execute, hFree]
    by_cases hParent : (w.table i).parentPid = parent
    · have hTaken : Taken w.table parent i := ⟨hFree, hParent⟩
      have hLink : (s.seen w.table code).execute false 0 (.childParent parent i w.stack) =
          s.seen w.table (.childPid parent i w.stack :: code) := by
        simp [execute, hParent]
      rw [if_pos hTaken]
      by_cases hCurrent : i.index = s.currentPid
      · refine ⟨3, seen_finds s _ _ (by simp) rfl hState (seen_finds s _ _ (by simp) rfl hLink
          (seen_child s _ _ ?_ (.refl _)))⟩
        simp [execute, visit, Taken, hFree, hParent, hCurrent]
      · obtain ⟨n, hFreed⟩ := finds_freeSlot s w.table i
          (.childState parent (i.val + 1) (visit s.currentPid parent w i).stack :: code)
        have hPid : (s.seen w.table code).execute false 0 (.childPid parent i w.stack) =
            s.seen w.table (freeSlot i ++
              .childState parent (i.val + 1) (visit s.currentPid parent w i).stack :: code) := by
          simp [execute, visit, Taken, hFree, hParent, hCurrent]
        have hTable : (visit s.currentPid parent w i).table =
            Function.update w.table i (freed (w.table i)) := by
          simp [visit, Taken, hFree, hParent, hCurrent]
        rw [hTable]
        exact ⟨n + 3, seen_finds s _ _ (by simp) rfl hState (seen_finds s _ _ (by simp) rfl hLink
          (seen_child s _ _ hPid hFreed))⟩
    · have hTaken : ¬ Taken w.table parent i := fun hTaken => hParent hTaken.2
      rw [visit, if_neg hTaken, if_neg hTaken]
      exact ⟨2, seen_finds s _ _ (by simp) rfl hState
        (seen_finds s _ _ (by simp) rfl (by simp [execute, hParent]) (.refl _))⟩

theorem finds_visits (parent : Int) (code : List Act) (k : Nat) : ∀ (i : Nat) (w : Sweep),
    i + k = maxProcesses →
      ∃ n, Finds s.self n (visited s.currentPid parent ((List.finRange maxProcesses).drop i) w)
        (s.seen w.table (.childState parent i w.stack :: code))
        (s.seen (((List.finRange maxProcesses).drop i).foldl (visit s.currentPid parent) w).table
          (.popParent (((List.finRange maxProcesses).drop i).foldl (visit s.currentPid parent)
            w).stack :: code)) := by
  induction k with
  | zero =>
    intro i w hi
    have hEnd : (List.finRange maxProcesses).drop i = [] := by
      rw [List.drop_eq_nil_iff, List.length_finRange]
      omega
    have hNot : ¬ i < maxProcesses := by omega
    rw [hEnd]
    exact ⟨1, seen_finds s _ _ (by simp) rfl (by simp [execute, hNot]) (.refl _)⟩
  | succ k ih =>
    intro i w hi
    have hLt : i < maxProcesses := by omega
    have hDrop : (List.finRange maxProcesses).drop i =
        ⟨i, hLt⟩ :: (List.finRange maxProcesses).drop (i + 1) := by
      rw [List.drop_eq_getElem_cons (by rwa [List.length_finRange])]
      simp
    obtain ⟨n, hOne⟩ := finds_visit s w parent ⟨i, hLt⟩ code
    obtain ⟨m, hRest⟩ := ih (i + 1) (visit s.currentPid parent w ⟨i, hLt⟩) (by omega)
    rw [hDrop, List.foldl_cons, visited]
    exact ⟨n + m, hOne.trans hRest⟩

theorem finds_sweepStep (w : Sweep) (code : List Act) (hStack : w.stack ≠ []) :
    ∃ n, 0 < n ∧ Finds s.self n (sweepFound s.currentPid w) (s.seen w.table (.popParent w.stack :: code))
      (s.seen (sweepStep s.currentPid w).table
        (.popParent (sweepStep s.currentPid w).stack :: code)) := by
  obtain ⟨table, stack⟩ := w
  cases stack with
  | nil => exact absurd rfl hStack
  | cons parent rest =>
    obtain ⟨n, hScan⟩ := finds_visits s parent code maxProcesses 0 ⟨table, rest⟩ (by omega)
    exact ⟨n + 1, by omega, seen_finds s _ _ (by simp) rfl (by simp [execute]) hScan⟩

end Rounds

/-! ### What the rounds remove -/

theorem visit_of_not_taken {current parent : Int} {w : Sweep} {i : Slot}
    (hTaken : ¬ Taken w.table parent i) : visit current parent w i = w :=
  if_neg hTaken

theorem visit_table_of_ne (current parent : Int) (w : Sweep) {i j : Slot} (hNe : j ≠ i) :
    (visit current parent w i).table j = w.table j := by
  simp only [visit]
  split
  · dsimp only
    split
    · exact Function.update_of_ne hNe _ _
    · rfl
  · rfl

theorem visit_table_self {current parent : Int} {w : Sweep} {i : Slot}
    (hTaken : Taken w.table parent i) :
    (visit current parent w i).table i =
      if i.index ≠ current then freed (w.table i) else w.table i := by
  simp only [visit, if_pos hTaken]
  split
  · exact Function.update_self ..
  · rfl

theorem visit_stack {current parent : Int} {w : Sweep} {i : Slot} (hTaken : Taken w.table parent i)
    (hLength : w.stack.length < maxProcesses) :
    (visit current parent w i).stack = (w.table i).pid :: w.stack := by
  simp only [visit, if_pos hTaken, if_pos hLength]

theorem filter_taken_visit {current parent : Int} {w : Sweep} {j : Slot} {l : List Slot} (hNot : j ∉ l) :
    l.filter (Taken (visit current parent w j).table parent ·) = l.filter (Taken w.table parent ·) := by
  apply List.filter_congr
  intro i hMem
  have hNe : i ≠ j := fun hEq => hNot (hEq ▸ hMem)
  have hIff : Taken (visit current parent w j).table parent i ↔ Taken w.table parent i := by
    simp only [Taken, visit_table_of_ne current parent w hNe]
  simp only [hIff]

theorem room_visit {current parent : Int} {w : Sweep} {j : Slot} {l : List Slot} (hNot : j ∉ l)
    (hRoom : w.stack.length + ((j :: l).filter (Taken w.table parent ·)).length ≤ maxProcesses) :
    (visit current parent w j).stack.length +
      (l.filter (Taken (visit current parent w j).table parent ·)).length ≤ maxProcesses := by
  rw [filter_taken_visit hNot]
  by_cases hTaken : Taken w.table parent j
  · rw [List.filter_cons_of_pos (by simpa using hTaken), List.length_cons] at hRoom
    rw [visit_stack hTaken (by omega), List.length_cons]
    omega
  · rw [List.filter_cons_of_neg (by simpa using hTaken)] at hRoom
    rwa [visit_of_not_taken hTaken]

/-- With room for what they push, the rounds over some slots free the ones they take and push their
numbers. -/
theorem foldl_visit (current parent : Int) {l : List Slot} (hNodup : l.Nodup) (w : Sweep)
    (hRoom : w.stack.length + (l.filter (Taken w.table parent ·)).length ≤ maxProcesses) :
    (∀ i, (l.foldl (visit current parent) w).table i =
      if i ∈ l ∧ Taken w.table parent i ∧ i.index ≠ current then freed (w.table i)
      else w.table i) ∧
    (l.foldl (visit current parent) w).stack =
      ((l.filter (Taken w.table parent ·)).map fun i => (w.table i).pid).reverse ++ w.stack := by
  induction l generalizing w with
  | nil => simp
  | cons j l ih =>
    have hNot : j ∉ l := (List.nodup_cons.mp hNodup).1
    have hRest : l.Nodup := (List.nodup_cons.mp hNodup).2
    have hOther : ∀ i ∈ l, (visit current parent w j).table i = w.table i := by
      intro i hMem
      exact visit_table_of_ne current parent w fun hEq => hNot (hEq ▸ hMem)
    obtain ⟨hTables, hStacks⟩ := ih hRest (visit current parent w j) (room_visit hNot hRoom)
    have hFilter := @filter_taken_visit current parent w j l hNot
    have hMap : (l.filter (Taken w.table parent ·)).map
        (fun i => ((visit current parent w j).table i).pid) =
        (l.filter (Taken w.table parent ·)).map fun i => (w.table i).pid := by
      apply List.map_congr_left
      intro i hMem
      rw [hOther i (List.mem_filter.mp hMem).1]
    by_cases hTaken : Taken w.table parent j
    · rw [List.filter_cons_of_pos (by simpa using hTaken), List.length_cons] at hRoom
      have hStack : (visit current parent w j).stack = (w.table j).pid :: w.stack :=
        visit_stack hTaken (by omega)
      constructor
      · intro i
        rw [List.foldl_cons, hTables]
        by_cases hEq : i = j
        · subst hEq
          rw [if_neg (fun hAll => hNot hAll.1), visit_table_self hTaken]
          simp [hTaken]
        · by_cases hMem : i ∈ l
          · simp only [Taken, hOther i hMem, hMem, List.mem_cons, hEq, false_or, true_and]
          · have hSame := visit_table_of_ne current parent w hEq
            simp [hMem, hEq, hSame]
      · rw [List.foldl_cons, hStacks, hFilter, hMap, hStack,
          List.filter_cons_of_pos (by simpa using hTaken)]
        simp
    · have hVisit : visit current parent w j = w := visit_of_not_taken hTaken
      rw [List.filter_cons_of_neg (by simpa using hTaken)]
      rw [hVisit] at hTables hStacks
      rw [List.foldl_cons, hVisit]
      refine ⟨fun i => ?_, hStacks⟩
      rw [hTables]
      by_cases hEq : i = j
      · subst hEq
        simp [hTaken]
      · simp [hEq]

theorem visited_eq (current parent : Int) {l : List Slot} (hNodup : l.Nodup) (w : Sweep)
    (hRoom : w.stack.length + (l.filter (Taken w.table parent ·)).length ≤ maxProcesses) :
    (visited current parent l w).map Prod.fst = l.filter (Taken w.table parent ·) ∧
      ∀ child ∈ visited current parent l w, child.2 < maxProcesses := by
  induction l generalizing w with
  | nil => exact ⟨rfl, fun _ hMem => absurd hMem List.not_mem_nil⟩
  | cons j l ih =>
    obtain ⟨hNot, hRest⟩ := List.nodup_cons.mp hNodup
    obtain ⟨hFound, hPlaces⟩ := ih hRest (visit current parent w j) (room_visit hNot hRoom)
    rw [filter_taken_visit hNot] at hFound
    rw [visited, List.map_append, hFound]
    by_cases hTaken : Taken w.table parent j
    · rw [List.filter_cons_of_pos (by simpa using hTaken), List.length_cons] at hRoom
      rw [if_pos hTaken, List.filter_cons_of_pos (by simpa using hTaken)]
      refine ⟨rfl, fun child hMem => ?_⟩
      rcases List.mem_append.mp hMem with hHere | hLater
      · rw [List.mem_singleton.mp hHere]
        dsimp only
        omega
      · exact hPlaces child hLater
    · rw [if_neg hTaken, List.filter_cons_of_neg (by simpa using hTaken)]
      exact ⟨rfl, hPlaces⟩

def liveSlots (table : Slot → Process) : Finset Slot :=
  Finset.univ.filter fun i => (table i).state ≠ .free

theorem mem_liveSlots {table : Slot → Process} {i : Slot} :
    i ∈ liveSlots table ↔ (table i).state ≠ .free := by
  simp [liveSlots]

def Sweep.work (w : Sweep) : Worklist.Work Slot Int := ⟨liveSlots w.table, w.stack⟩

def parentOf (s : System) (i : Slot) : Int := (s.procTable i).parentPid
def pidOf (s : System) (i : Slot) : Int := (s.procTable i).pid

/-- Only slots that were taken and are not the running one have been freed. -/
def Kept (s : System) (w : Sweep) : Prop :=
  ∀ i, w.table i = s.procTable i ∨
    (w.table i = freed (s.procTable i) ∧ (s.procTable i).state ≠ .free ∧ s.self ≠ some i)

theorem Kept.eq_of_live {s : System} {w : Sweep} (hKept : Kept s w) {i : Slot}
    (hLive : (w.table i).state ≠ .free) : w.table i = s.procTable i := by
  rcases hKept i with hSame | ⟨hFreed, _⟩
  · exact hSame
  · rw [hFreed] at hLive
    exact absurd rfl hLive

section Sweeping

variable {s : System} (h : s.Sound) {w : Sweep} (hKept : Kept s w)
include hKept

theorem Kept.taken_iff (k : Int) (i : Slot) :
    i ∈ Worklist.taken s.parentOf w.work k ↔ Taken w.table k i := by
  simp only [Worklist.taken, Sweep.work, Finset.mem_filter, mem_liveSlots, Taken]
  constructor
  · rintro ⟨hLive, hParent⟩
    rw [hKept.eq_of_live hLive]
    exact ⟨hKept.eq_of_live hLive ▸ hLive, hParent⟩
  · rintro ⟨hLive, hParent⟩
    rw [hKept.eq_of_live hLive] at hParent
    exact ⟨hLive, hParent⟩

theorem Kept.taken_eq (k : Int) :
    Worklist.taken s.parentOf w.work k = Finset.univ.filter (Taken w.table k) := by
  ext i
  rw [hKept.taken_iff, Finset.mem_filter]
  simp

theorem Kept.taken_list (k : Int) : ((List.finRange maxProcesses).filter (Taken w.table k ·) : Multiset Slot) =
    (Worklist.taken s.parentOf w.work k).val := by
  rw [hKept.taken_eq]
  rfl

theorem Kept.room {k : Int} {rest : List Int} (hStack : w.stack = k :: rest)
    (hFits : Worklist.Fits s.self maxProcesses w.work) :
    rest.length + ((List.finRange maxProcesses).filter (Taken w.table k ·)).length ≤ maxProcesses := by
  have hCard := congrArg Multiset.card (hKept.taken_list k)
  rw [Multiset.coe_card] at hCard
  rw [hCard]
  exact hFits.room s.parentOf hStack

include h

theorem Kept.pops {k : Int} {rest : List Int} (hStack : w.stack = k :: rest)
    (hFits : Worklist.Fits s.self maxProcesses w.work) :
    Kept s (sweepStep s.currentPid w) ∧
      ∃ pushed, Worklist.Pops s.parentOf s.pidOf s.self w.work (sweepStep s.currentPid w).work k
        rest pushed := by
  have hRoom := hKept.room hStack hFits
  have hStep : sweepStep s.currentPid w =
      (List.finRange maxProcesses).foldl (visit s.currentPid k) { w with stack := rest } := by
    simp only [sweepStep, hStack]
  obtain ⟨hTable, hNewStack⟩ := foldl_visit s.currentPid k (List.nodup_finRange maxProcesses)
    { w with stack := rest } hRoom
  rw [← hStep] at hTable hNewStack
  simp only [List.mem_finRange, true_and, Ne, h.index_eq_iff] at hTable
  constructor
  · intro i
    rw [hTable i]
    split
    · next hDies =>
      have hSame := hKept.eq_of_live hDies.1.1
      rw [hSame]
      exact Or.inr ⟨rfl, hSame ▸ hDies.1.1, hDies.2⟩
    · exact hKept i
  · refine ⟨_, hStack, hNewStack, ?_, ?_⟩
    · rw [Multiset.coe_reverse, ← Multiset.map_coe, hKept.taken_list k]
      apply Multiset.map_congr rfl
      intro i hMem
      have hTaken := (hKept.taken_iff k i).mp (Finset.mem_val.mp hMem)
      rw [hKept.eq_of_live hTaken.1]
      rfl
    · ext i
      simp only [Sweep.work, mem_liveSlots, Finset.mem_filter, hTable i]
      split
      · next hDies =>
        have hParent : s.parentOf i = k := by
          rw [parentOf, ← hKept.eq_of_live hDies.1.1]
          exact hDies.1.2
        simp [freed, hParent, hDies.2]
      · next hStays =>
        constructor
        · intro hLive
          refine ⟨hLive, ?_⟩
          by_contra hNot
          push Not at hNot
          rw [parentOf, ← hKept.eq_of_live hLive] at hNot
          exact hStays ⟨⟨hLive, hNot.1⟩, hNot.2⟩
        · exact fun hLive => hLive.1

end Sweeping

def LinkReaches (s : System) (pid : Int) : Slot → Prop :=
  Worklist.Reach s.parentOf s.pidOf (liveSlots s.procTable) pid

structure Swept (s : System) (pid : Int) (w : Sweep) : Prop where
  kept : Kept s w
  fits : Worklist.Fits s.self maxProcesses w.work
  progress : ∃ done,
    Worklist.Progress s.parentOf s.pidOf s.self (liveSlots s.procTable) pid w.work done

def sweepStart (s : System) (pid : Int) : Sweep := ⟨s.procTable, [pid]⟩

theorem swept_sweepStart (s : System) (pid : Int) : Swept s pid (s.sweepStart pid) where
  kept := fun _ => Or.inl rfl
  fits := by
    have hLoose : (Worklist.loose s.self (s.sweepStart pid).work).card +
        (if s.self.isSome then 1 else 0) ≤ maxProcesses := by
      cases hSelf : s.self with
      | none =>
        have hCard := Finset.card_le_univ (Worklist.loose none (s.sweepStart pid).work)
        simpa using hCard
      | some c =>
        have hNot : c ∉ Worklist.loose (some c) (s.sweepStart pid).work := by
          simp [Worklist.loose]
        have hCard := Finset.card_lt_univ_of_notMem hNot
        simp only [Fintype.card_fin] at hCard
        simp only [Option.isSome_some, if_true]
        omega
    unfold Worklist.Fits
    change 1 + _ + _ ≤ _
    omega
  progress := ⟨_, Worklist.Progress.init _ pid⟩

section Swept

variable {s : System} (h : s.Sound) {pid : Int} {w : Sweep} (hSwept : Swept s pid w)
include h hSwept

theorem Swept.sweepStep : Swept s pid (sweepStep s.currentPid w) := by
  cases hStack : w.stack with
  | nil =>
    have hSame : System.sweepStep s.currentPid w = w := by
      simp only [System.sweepStep, hStack]
    rw [hSame]
    exact hSwept
  | cons k rest =>
    obtain ⟨hKept, pushed, hPops⟩ := hSwept.kept.pops h hStack hSwept.fits
    obtain ⟨done, hProgress⟩ := hSwept.progress
    exact ⟨hKept, hPops.fits hSwept.fits, _, hProgress.pop hPops⟩

theorem Swept.iterate (n : Nat) : Swept s pid ((System.sweepStep s.currentPid)^[n] w) := by
  induction n with
  | zero => exact hSwept
  | succ n ih =>
    rw [Function.iterate_succ_apply']
    exact ih.sweepStep h

omit h in
theorem Swept.table_eq (hEmpty : w.stack = []) (i : Slot) :
    (s.LinkReaches pid i ∧ s.self ≠ some i → w.table i = freed (s.procTable i)) ∧
      (¬ (s.LinkReaches pid i ∧ s.self ≠ some i) → w.table i = s.procTable i) := by
  obtain ⟨done, hProgress⟩ := hSwept.progress
  constructor
  · intro hDies
    have hLive := hDies.1.mem
    have hNot := (hProgress.not_mem_iff hEmpty hLive).mpr hDies
    rcases hSwept.kept i with hSame | hFreed
    · rw [Sweep.work, mem_liveSlots, hSame] at hNot
      exact absurd (mem_liveSlots.mp hLive) hNot
    · exact hFreed.1
  · intro hStays
    rcases hSwept.kept i with hSame | ⟨hFreed, hLive, _⟩
    · exact hSame
    · have hNot : i ∉ w.work.alive := by
        rw [Sweep.work, mem_liveSlots, hFreed]
        exact not_not.mpr rfl
      exact absurd ((hProgress.not_mem_iff hEmpty (mem_liveSlots.mpr hLive)).mp hNot) hStays

/-- The running process has its own number for a parent, and is among those to be killed. -/
def SelfParent (s : System) (pid : Int) : Prop :=
  ∃ c, s.self = some c ∧ s.LinkReaches pid c ∧ s.parentOf c = s.pidOf c

omit h in
theorem Swept.stack_ne_nil (hLoop : s.SelfParent pid) : w.stack ≠ [] := by
  intro hEmpty
  obtain ⟨c, hSelf, hReach, hParent⟩ := hLoop
  obtain ⟨done, hProgress⟩ := hSwept.progress
  exact hProgress.parent_ne_key hEmpty hSelf hReach hParent

theorem Swept.ends (hLoop : ¬ s.SelfParent pid) :
    ∃ n, ((System.sweepStep s.currentPid)^[n] w).stack = [] := by
  -- The size of the work goes down with every round.
  induction hSize : Worklist.size s.parentOf s.self w.work using Nat.strong_induction_on
    generalizing w with
  | _ size ih =>
    cases hStack : w.stack with
    | nil => exact ⟨0, hStack⟩
    | cons k rest =>
      obtain ⟨hKept, pushed, hPops⟩ := hSwept.kept.pops h hStack hSwept.fits
      obtain ⟨done, hProgress⟩ := hSwept.progress
      have hTaken : ∀ i ∈ Worklist.taken s.parentOf w.work k, s.self = some i →
          s.parentOf i ≠ s.pidOf i := by
        intro i hMem hSelf hParent
        apply hLoop
        exact ⟨i, hSelf, hProgress.reach_of_taken hPops.before hMem, hParent⟩
      have hLess := hPops.size_lt hTaken
      rw [hSize] at hLess
      obtain ⟨n, hEmpty⟩ := ih _ hLess (hSwept.sweepStep h) rfl
      exact ⟨n + 1, hEmpty⟩

end Swept

/-! ### The two calls -/

def sweepsFound (current : Int) (w : Sweep) : Nat → List (Slot × Nat)
  | 0 => []
  | n + 1 => sweepsFound current w n ++ sweepFound current ((sweepStep current)^[n] w)

theorem finds_sweeps (s : System) (w : Sweep) (code : List Act) (n : Nat) :
    (∀ m < n, ((sweepStep s.currentPid)^[m] w).stack ≠ []) →
      ∃ k, n ≤ k ∧ Finds s.self k (sweepsFound s.currentPid w n) (s.seen w.table (.popParent w.stack :: code))
        (s.seen ((sweepStep s.currentPid)^[n] w).table
          (.popParent ((sweepStep s.currentPid)^[n] w).stack :: code)) := by
  induction n with
  | zero => exact fun _ => ⟨0, le_refl 0, .refl _⟩
  | succ n ih =>
    intro hStack
    obtain ⟨k, hLe, hFinds⟩ := ih fun m hm => hStack m (by omega)
    obtain ⟨j, hPos, hRound⟩ := finds_sweepStep s ((sweepStep s.currentPid)^[n] w) code
      (hStack n (by omega))
    rw [Function.iterate_succ_apply', sweepsFound]
    exact ⟨k + j, by omega, hFinds.trans hRound⟩

section KillChildren

variable {s : System} (h : s.Sound) (pid : Int) (code : List Act)
include h

theorem Sound.acts_killChildren (hLoop : ¬ s.SelfParent pid) :
    ∃ n table, Acts s.self n (s.seen s.procTable (killChildren pid ++ code)) (s.seen table code) ∧
      ∀ i, (s.LinkReaches pid i ∧ s.self ≠ some i → table i = freed (s.procTable i)) ∧
        (¬ (s.LinkReaches pid i ∧ s.self ≠ some i) → table i = s.procTable i) := by
  have hStart := swept_sweepStart s pid
  have hEnds := hStart.ends h hLoop
  classical
  let n := Nat.find hEnds
  have hEmpty : ((sweepStep s.currentPid)^[n] (s.sweepStart pid)).stack = [] := Nat.find_spec hEnds
  obtain ⟨k, _, hFinds⟩ := finds_sweeps s (s.sweepStart pid) code n fun m hm => Nat.find_min hEnds hm
  have hActs := hFinds.acts
  rw [hEmpty] at hActs
  have hPop : Acts s.self 1
      (s.seen ((sweepStep s.currentPid)^[n] (s.sweepStart pid)).table (.popParent [] :: code))
      (s.seen ((sweepStep s.currentPid)^[n] (s.sweepStart pid)).table code) :=
    seen_act s _ _ (by simp) rfl (.refl _)
  exact ⟨k + 1, _, hActs.trans hPop, (hStart.iterate h n).table_eq hEmpty⟩

theorem Sound.finish_killChildren (hLoop : s.SelfParent pid) (fuel : Nat) :
    finish s.self fuel (s.seen s.procTable (killChildren pid ++ code)) = none := by
  have hStart := swept_sweepStart s pid
  obtain ⟨k, hLe, hFinds⟩ := finds_sweeps s (s.sweepStart pid) code fuel
    fun m _ => (hStart.iterate h m).stack_ne_nil hLoop
  exact hFinds.acts.finish_none hLe

end KillChildren

theorem push_eq_seen (s : System) (acts : List Act) :
    s.push acts = s.seen s.procTable (acts ++ s.code) := rfl

theorem acts_killFindPid (s : System) (pid : Int) (target : Slot) (k : Nat) : ∀ i,
    i + k = maxProcesses →
    ((List.finRange maxProcesses).drop i).find? (fun i =>
      (s.procTable i).pid = pid ∧ (s.procTable i).state ≠ .free) = some target →
    ∃ n, Acts s.self n (s.seen s.procTable [.killFindPid pid i])
      (s.seen s.procTable [.killCheck pid target]) := by
  induction k with
  | zero =>
    intro i hi hFind
    have hEnd : (List.finRange maxProcesses).drop i = [] := by
      rw [List.drop_eq_nil_iff, List.length_finRange]
      omega
    rw [hEnd] at hFind
    cases hFind
  | succ k ih =>
    intro i hi hFind
    have hLt : i < maxProcesses := by omega
    have hDrop : (List.finRange maxProcesses).drop i =
        ⟨i, hLt⟩ :: (List.finRange maxProcesses).drop (i + 1) := by
      rw [List.drop_eq_getElem_cons (by rwa [List.length_finRange])]
      simp
    rw [hDrop, List.find?_cons] at hFind
    by_cases hPid : (s.procTable ⟨i, hLt⟩).pid = pid
    · have hFindPid : (s.seen s.procTable []).execute false 0 (.killFindPid pid i) =
          s.seen s.procTable [.killFindState pid ⟨i, hLt⟩] := by
        simp [execute, hLt, hPid]
      by_cases hFree : (s.procTable ⟨i, hLt⟩).state = .free
      · simp only [hPid, hFree, ne_eq, not_true_eq_false, and_false, decide_false] at hFind
        obtain ⟨n, hActs⟩ := ih (i + 1) (by omega) (by simpa using hFind)
        have hFindState : (s.seen s.procTable []).execute false 0 (.killFindState pid ⟨i, hLt⟩) =
            s.seen s.procTable [.killFindPid pid (i + 1)] := by
          simp [execute, hFree]
        exact ⟨n + 2, seen_act s _ _ (by simp) hFindPid (seen_act s _ _ (by simp) hFindState hActs)⟩
      · have hTarget : (⟨i, hLt⟩ : Slot) = target := by
          simpa [hPid, hFree] using hFind
        have hFindState : (s.seen s.procTable []).execute false 0 (.killFindState pid ⟨i, hLt⟩) =
            s.seen s.procTable [.killCheck pid target] := by
          rw [← hTarget]
          simp [execute, hFree]
        exact ⟨2, seen_act s _ _ (by simp) hFindPid (seen_act s _ _ (by simp) hFindState (.refl _))⟩
    · have hFindPid : (s.seen s.procTable []).execute false 0 (.killFindPid pid i) =
          s.seen s.procTable [.killFindPid pid (i + 1)] := by
        simp [execute, hLt, hPid]
      obtain ⟨n, hActs⟩ := ih (i + 1) (by omega) (by simpa [hPid] using hFind)
      exact ⟨n + 1, seen_act s _ _ (by simp) hFindPid hActs⟩

/-- The process that a `process_kill` finds and may kill, or that a `process_exit` ends. -/
def target (s : System) : Call → Option Slot
  | .kill pid =>
    if pid ≤ 0 then none
    else (s.processGet pid).filter fun i => i.index ≠ s.currentPid
  | .exit _ => s.self
  | _ => none

def CreatedBy (s : System) (p q : Int) : Prop := s.creator q = some p

def Descends (s : System) (t i : Slot) : Prop := Relation.TransGen s.CreatedBy (s.born t) (s.born i)

/-- The slot of a process and those of its live descendants, the running process apart. -/
def Subtree (s : System) (t i : Slot) : Prop :=
  i = t ∨ ((s.procTable i).state ≠ .free ∧ s.self ≠ some i ∧ s.Descends t i)

/-- Without an interrupt the call comes to its end, having freed these slots and no other. -/
def Removes (s : System) (c : Call) (dies : Slot → Prop) : Prop :=
  ∃ fuel s', finish s.self fuel (s.step (.call c)) = some s' ∧
    ∀ i, (dies i → (s'.procTable i).state = .free) ∧ (¬ dies i → s'.procTable i = s.procTable i)

/-- The recorded parents, read as process numbers, lead to the descendants. -/
def LinksAgree (s : System) (t : Slot) : Prop :=
  ∀ i, i ≠ t → (s.procTable i).state ≠ .free → s.self ≠ some i →
    (s.LinkReaches (s.pidOf t) i ↔ s.Descends t i)

theorem Acts.removes_iff {s s' : System} {n : Nat} {c : Call} {t : Slot}
    (hActs : Acts s.self n (s.step (.call c)) s') (hLeft : s'.Left s.self)
    (hTarget : (s'.procTable t).state = .free)
    (hOther : ∀ i, i ≠ t →
      (s.LinkReaches (s.pidOf t) i ∧ s.self ≠ some i → (s'.procTable i).state = .free) ∧
      (¬ (s.LinkReaches (s.pidOf t) i ∧ s.self ≠ some i) → s'.procTable i = s.procTable i)) :
    s.Removes c (s.Subtree t) ↔ s.LinksAgree t := by
  constructor
  · rintro ⟨fuel, s'', hFinish, hRemoved⟩ i hNe hLive hSelf
    rw [hActs.finish_unique hLeft hFinish] at hRemoved
    constructor
    · intro hReach
      by_contra hNot
      have hStays : ¬ s.Subtree t i := by
        rintro (hEq | ⟨_, _, hDescends⟩)
        · exact hNe hEq
        · exact hNot hDescends
      have hFree := (hOther i hNe).1 ⟨hReach, hSelf⟩
      rw [(hRemoved i).2 hStays] at hFree
      exact hLive hFree
    · intro hDescends
      by_contra hNot
      have hFree := (hRemoved i).1 (Or.inr ⟨hLive, hSelf, hDescends⟩)
      rw [(hOther i hNe).2 fun hBoth => hNot hBoth.1] at hFree
      exact hLive hFree
  · intro hAgree
    refine ⟨n + 1, s', hActs.finish_some hLeft, fun i => ⟨?_, ?_⟩⟩
    · rintro (rfl | ⟨hLive, hSelf, hDescends⟩)
      · exact hTarget
      · by_cases hEq : i = t
        · rw [hEq]
          exact hTarget
        · exact (hOther i hEq).1 ⟨(hAgree i hEq hLive hSelf).mpr hDescends, hSelf⟩
    · intro hStays
      have hNe : i ≠ t := fun hEq => hStays (Or.inl hEq)
      apply (hOther i hNe).2
      rintro ⟨hReach, hSelf⟩
      have hLive := mem_liveSlots.mp hReach.mem
      exact hStays (Or.inr ⟨hLive, hSelf, (hAgree i hNe hLive hSelf).mp hReach⟩)

section Calls

variable {s : System} (h : s.Sound) (hIdle : s.code = []) {t : Slot}
include h hIdle

omit h in
theorem call_eq_seen (c : Call) : s.step (.call c) = s.seen s.procTable c.code := by
  simp only [step, hIdle, if_true, push_eq_seen, List.append_nil]

theorem Sound.kill_removes_iff {pid : Int} (hTarget : s.target (.kill pid) = some t) :
    s.Removes (.kill pid) (s.Subtree t) ↔ ¬ s.SelfParent (s.pidOf t) ∧ s.LinksAgree t := by
  simp only [target] at hTarget
  split at hTarget
  · cases hTarget
  · next hPos =>
    obtain ⟨hFind, hOther⟩ := Option.filter_eq_some_iff.mp hTarget
    have hIndex : t.index ≠ s.currentPid := by simpa using hOther
    have hSelf : s.self ≠ some t := fun hSelf => hIndex ((h.index_eq_iff t).mpr hSelf)
    have hPid : s.pidOf t = pid := by
      have hFound := List.find?_some hFind
      simp only [decide_eq_true_eq] at hFound
      exact hFound.1
    rw [hPid]
    -- The call comes to `kill_children` with the target found.
    obtain ⟨n, hSearch⟩ := acts_killFindPid s pid t maxProcesses 0 (by omega) hFind
    have hPositive : (s.seen s.procTable []).execute false 0 (.killEnter pid) =
        s.seen s.procTable [.killFindPid pid 0] := by
      simp [System.execute, hPos]
    have hCheck : (s.seen s.procTable []).execute false 0 (.killCheck pid t) =
        s.seen s.procTable (killChildren pid ++ (freeSlot t ++ [.ret 0])) := by
      simp [System.execute, hIndex]
    have hEnter : Acts s.self (n + 1 + 1) (s.step (.call (.kill pid)))
        (s.seen s.procTable (killChildren pid ++ (freeSlot t ++ [.ret 0]))) := by
      rw [call_eq_seen hIdle]
      exact seen_act s _ _ (by simp) hPositive
        (hSearch.trans (seen_act s _ _ (by simp) hCheck (.refl _)))
    by_cases hLoop : s.SelfParent pid
    · refine iff_of_false ?_ fun hBoth => hBoth.1 hLoop
      rintro ⟨fuel, s', hFinish, _⟩
      rw [hEnter.finish_never (h.finish_killChildren pid _ hLoop)] at hFinish
      cases hFinish
    · obtain ⟨m, table, hKill, hTable⟩ := h.acts_killChildren pid (freeSlot t ++ [.ret 0]) hLoop
      obtain ⟨k, hFound⟩ := finds_freeSlot s table t [.ret 0]
      have hFree := hFound.acts
      let freedTable := Function.update table t (freed (table t))
      have hRet : Acts s.self 1 (s.seen freedTable [.ret 0])
          ((s.seen freedTable []).setValue 0) := by
        refine .act (not_left_seen s _ _ (by simp)) ?_
        rw [seen_runAct]
        exact .refl _
      rw [and_iff_right hLoop]
      apply (hEnter.trans (hKill.trans (hFree.trans hRet))).removes_iff
      · apply Or.inl
        change (((s.seen freedTable []).setValue 0).threads (s.seen freedTable []).self).code = []
        simp only [System.setValue, System.setThread, Function.update_self]
        exact seen_code s freedTable []
      · change (freedTable t).state = .free
        simp [freedTable, freed]
      · intro i hNe
        change (_ → (freedTable i).state = .free) ∧ (_ → freedTable i = _)
        have hSame : freedTable i = table i := Function.update_of_ne hNe _ _
        rw [hSame, hPid]
        refine ⟨fun hDies => ?_, (hTable i).2⟩
        rw [(hTable i).1 hDies]
        rfl

theorem Sound.exit_removes_iff (status : Int) (hTarget : s.target (.exit status) = some t) :
    s.Removes (.exit status) (s.Subtree t) ↔ ¬ s.SelfParent (s.pidOf t) ∧ s.LinksAgree t := by
  have hSelf : s.self = some t := hTarget
  -- From the first act on the interrupts are off.
  let quiet : System := { s with irq := false }
  have hQuiet : quiet.Sound :=
    ⟨h.running, h.currentPid_eq, h.seated, h.nextPid_pos, h.pid_range, h.pid_distinct, h.target_ne⟩
  have hQuietSelf : quiet.self = some t := hSelf
  have hEnter : Acts s.self 1 (s.step (.call (.exit status)))
      (quiet.seen s.procTable (killChildren (s.pidOf t) ++ [.exitFinish status])) := by
    rw [call_eq_seen hIdle]
    refine .act (not_left_seen s _ _ (by simp)) ?_
    have hBegin : (s.seen s.procTable [Act.exitBegin status]).runAct false 0 =
        quiet.seen s.procTable (killChildren (s.pidOf t) ++ [.exitFinish status]) := by
      have hPush := seen_push quiet s.procTable []
        (killChildren (s.pidOf t) ++ [.exitFinish status])
      rw [List.append_nil] at hPush
      rw [seen_runAct]
      simp only [System.execute, seen_self, hSelf]
      exact hPush
    rw [Call.code, hBegin]
    exact .refl _
  by_cases hLoop : s.SelfParent (s.pidOf t)
  · refine iff_of_false ?_ fun hBoth => hBoth.1 hLoop
    rintro ⟨fuel, s', hFinish, _⟩
    rw [hEnter.finish_never (hQuiet.finish_killChildren (s.pidOf t) _ hLoop)] at hFinish
    cases hFinish
  · obtain ⟨m, table, hKill, hTable⟩ :=
      hQuiet.acts_killChildren (s.pidOf t) [.exitFinish status] hLoop
    have hFinish : Acts s.self 1 (quiet.seen table [.exitFinish status])
        ((quiet.seen table []).exitFinish status) := by
      refine .act (not_left_seen quiet _ _ (by simp)) ?_
      rw [seen_runAct]
      exact .refl _
    have hEnd : (quiet.seen table []).exitFinish status =
        { ((quiet.seen table []).modify t (Process.exited status)).setThread (some t)
            haltedThread with
          currentPid := -1, currentProcess := none, irq := true } := by
      simp only [System.exitFinish, seen_self, hQuietSelf]
    rw [and_iff_right hLoop]
    apply (hEnter.trans (Acts.trans hKill hFinish)).removes_iff
    · apply Or.inr
      rw [hEnd, hSelf]
      simp [System.setThread, haltedThread]
    · rw [hEnd]
      simp [Process.exited]
    · intro i hNe
      have hSame : ((quiet.seen table []).exitFinish status).procTable i = table i := by
        rw [hEnd]
        exact Function.update_of_ne hNe _ _
      rw [hSame]
      refine ⟨fun hDies => ?_, (hTable i).2⟩
      rw [(hTable i).1 hDies]
      rfl

end Calls

end System

/-- In every state that a run from `process_init` reaches, whatever the timer interrupted on the way,
a `process_kill` that finds its process and a `process_exit` remove exactly the subtree of the
process if and only if the recorded parents lead to the descendants and the running process is not
recorded as its own parent. -/
theorem removes_subtree_iff (events : List Event) (c : Call) (t : Slot)
    (hIdle : (processInit.after events).code = [])
    (hTarget : (processInit.after events).target c = some t) :
    (processInit.after events).Removes c ((processInit.after events).Subtree t) ↔
      ¬ (processInit.after events).SelfParent ((processInit.after events).pidOf t) ∧
        (processInit.after events).LinksAgree t := by
  have hSound := System.sound_processInit.after events
  cases c with
  | kill pid => exact hSound.kill_removes_iff hIdle hTarget
  | exit status => exact hSound.exit_removes_iff hIdle status hTarget
  | _ => cases hTarget

def firstSlot : Slot := ⟨0, maxProcesses_pos⟩
def secondSlot : Slot := ⟨1, one_lt_maxProcesses⟩

def familyRun : List Event := createEvents ++ [.call .schedule, .run true 0] ++ createEvents

def nestedRun : List Event := familyRun ++ [.call .yield, .run true 0, .run true 0] ++ createEvents

/-- The child of the first process kills it. Its own child dies too: the recorded parent, the slot of the caller, is the
number of the first process. -/
theorem removes_subtree_iff_nested :
    (processInit.after nestedRun).target (.kill 1) = some firstSlot ∧
      (processInit.after nestedRun).Subtree firstSlot thirdSlot ∧
      (processInit.after nestedRun).Removes (.kill 1) ((processInit.after nestedRun).Subtree firstSlot) := by
  have hIdle : (processInit.after nestedRun).code = [] := by decide +kernel
  have hTarget : (processInit.after nestedRun).target (.kill 1) = some firstSlot := by decide +kernel
  have hSelf : (processInit.after nestedRun).self = some secondSlot := by decide +kernel
  have hPid : (processInit.after nestedRun).pidOf firstSlot = 1 := by decide +kernel
  have hChild : ((processInit.after nestedRun).procTable thirdSlot).state ≠ .free ∧
      (processInit.after nestedRun).parentOf thirdSlot = 1 := by
    decide +kernel
  have hDescends : (processInit.after nestedRun).Descends firstSlot thirdSlot := by
    have hBorn : (processInit.after nestedRun).born firstSlot = 1 ∧ (processInit.after nestedRun).born thirdSlot = 3 ∧
        (processInit.after nestedRun).creator 2 = some 1 ∧ (processInit.after nestedRun).creator 3 = some 2 := by
      decide +kernel
    unfold System.Descends
    rw [hBorn.1, hBorn.2.1]
    exact .tail (.single hBorn.2.2.1) hBorn.2.2.2
  refine ⟨hTarget, Or.inr ⟨hChild.1, by rw [hSelf]; decide, hDescends⟩,
    (removes_subtree_iff nestedRun (.kill 1) firstSlot hIdle hTarget).mpr ⟨?_, ?_⟩⟩
  · rintro ⟨c, hc, -, hOwn⟩
    obtain rfl := Option.some.inj (hc.symm.trans hSelf)
    exact absurd hOwn (by decide +kernel)
  · intro i hNe hLive hOther
    have hSlots : ∀ i, ((processInit.after nestedRun).procTable i).state ≠ .free →
        i = firstSlot ∨ i = secondSlot ∨ i = thirdSlot := by
      decide +kernel
    obtain rfl : i = thirdSlot := by
      refine ((hSlots i hLive).resolve_left hNe).resolve_left ?_
      rintro rfl
      exact hOther hSelf
    rw [hPid]
    exact iff_of_true (.child (System.mem_liveSlots.mpr hChild.1) hChild.2) hDescends

/-- When the first process exits, the one it created lives on: its recorded parent is the slot of the
first, not its number. -/
theorem exit_leaves_child :
    (processInit.after familyRun).code = [] ∧
      (processInit.after familyRun).target (.exit 0) = some firstSlot ∧
      (processInit.after familyRun).creator 2 = some 1 ∧
      ¬ (processInit.after familyRun).Removes (.exit 0)
        ((processInit.after familyRun).Subtree firstSlot) := by
  have hIdle : (processInit.after familyRun).code = [] := by decide +kernel
  have hTarget : (processInit.after familyRun).target (.exit 0) = some firstSlot := by
    decide +kernel
  have hCreator : (processInit.after familyRun).creator 2 = some 1 := by decide +kernel
  refine ⟨hIdle, hTarget, hCreator, ?_⟩
  have hSound := System.sound_processInit.after familyRun
  rw [hSound.exit_removes_iff hIdle 0 hTarget]
  rintro ⟨_, hAgree⟩
  have hChild : ((processInit.after familyRun).procTable secondSlot).state ≠ .free ∧
      (processInit.after familyRun).self ≠ some secondSlot := by
    decide +kernel
  have hBorn : (processInit.after familyRun).born firstSlot = 1 ∧
      (processInit.after familyRun).born secondSlot = 2 ∧
      (processInit.after familyRun).pidOf firstSlot = 1 := by
    decide +kernel
  have hDescends : (processInit.after familyRun).Descends firstSlot secondSlot := by
    unfold System.Descends
    rw [hBorn.1, hBorn.2.1]
    exact .single hCreator
  have hReach := (hAgree secondSlot (by decide) hChild.1 hChild.2).mpr hDescends
  rw [hBorn.2.2] at hReach
  have hParent : ∀ i, ((processInit.after familyRun).procTable i).state ≠ .free →
      (processInit.after familyRun).parentOf i ≠ 1 := by
    decide +kernel
  -- No recorded parent is number one, so nothing is reached.
  have hNone : ∀ i, ¬ (processInit.after familyRun).LinkReaches 1 i := by
    intro i hReach
    induction hReach with
    | child hMem hEq => exact hParent _ (System.mem_liveSlots.mp hMem) hEq
    | step _ _ _ ih => exact ih
  exact hNone secondSlot hReach

end UnixOS.Proc
