import UnixOS.Core.ProcessFrame

/-! # The status that `process_exec_args` returns

`process_exec_args` knows its child by slot alone, and `process_exit` gives the slot back at once. A run is
watched with the fate of each child: how the process that a call created has ended, as the processor saw it,
against what the call returned.
-/

namespace UnixOS.Proc

inductive Fate where
  | alive
  | killed
  | exited (status : Int)
deriving DecidableEq

def Fate.isExit : Fate → Bool
  | .exited _ => true
  | _ => false

structure Watch where
  pid : Int
  slot : Slot
  fate : Fate
deriving DecidableEq

structure Return where
  pid : Int
  fate : Fate
  value : Int
deriving DecidableEq

/-- The call came back after the end of its process, and with the status it exited with. -/
def Return.Right (r : Return) : Prop :=
  r.fate ≠ .alive ∧ ∀ status, r.fate = .exited status → r.value = status

def Watch.ends (slot : Slot) (pid : Int) (fate : Fate) (w : Watch) : Watch :=
  if w.slot = slot ∧ w.pid = pid ∧ w.fate = .alive then { w with fate := fate } else w

/-- A system, the processes that its threads wait for, and the calls that have come back. -/
structure Traced where
  sys : System
  watch : Option Slot → Option Watch
  returns : List Return

def tracedInit : Traced := ⟨processInit, fun _ => none, []⟩

namespace Traced

variable (T : Traced)

def ended (slot : Slot) (fate : Fate) : Option Slot → Option Watch := fun t =>
  (T.watch t).map (Watch.ends slot (T.sys.born slot) fate)

/-- A call creates its process when it reserves the slot; a call that cannot load its program has none.
Who takes or rebuilds the slot of a thread ends the call that this thread was in. -/
def watched (loaded : Bool) (rest : List Act) : Act → Option Slot → Option Watch
  | .reserve =>
    match T.sys.findFreeSlotUnlocked with
    | none => T.watch
    | some slot =>
      let watch := Function.update T.watch (some slot) none
      if rest = [.execCreated] then
        Function.update watch T.sys.self (some ⟨T.sys.nextPid, slot, .alive⟩)
      else watch
  | .load _ => if loaded then T.watch else Function.update T.watch T.sys.self none
  | .checkStack slot =>
    if (T.sys.procTable slot).stackBase = 0 then Function.update T.watch T.sys.self none else T.watch
  | .setContext slot | .releaseContext slot => Function.update T.watch (some slot) none
  | .exitFinish status =>
    match T.sys.self with
    | none => T.watch
    | some slot => Function.update (T.ended slot (.exited status)) (some slot) none
  | .freeState slot => T.ended slot .killed
  | _ => T.watch

def collect (t : Option Slot) : Traced :=
  match T.watch t with
  | none => T
  | some w =>
    if (T.sys.threads t).code = [] then
      { T with
        watch := Function.update T.watch t none
        returns := ⟨w.pid, w.fate, (T.sys.threads t).value⟩ :: T.returns }
    else T

def step : Event → Traced
  | .run loaded stack =>
    match T.sys.code with
    | [] => T
    | act :: rest =>
      { T with sys := T.sys.runAct loaded stack, watch := T.watched loaded rest act }.collect T.sys.self
  | event => { T with sys := T.sys.step event }

def after (events : List Event) : Traced := events.foldl step T

def Settled (slot : Slot) : Prop :=
  (∀ t, ∀ w ∈ T.watch t, w.slot = slot → w.fate.isExit = false) ∧
    ∀ t, ∀ act ∈ (T.sys.threads t).code, act.builds ≠ some slot

def Found (slot : Slot) : Prop :=
  ∀ t, ∀ w ∈ T.watch t, w.slot = slot → w.fate = .killed ∨
    .execWait slot ∈ (T.sys.threads t).code ∨ .execResult slot ∈ (T.sys.threads t).code

instance (slot : Slot) : Decidable (T.Settled slot) := inferInstanceAs (Decidable (_ ∧ _))
instance (slot : Slot) : Decidable (T.Found slot) := inferInstanceAs (Decidable (∀ _, _))

/-- A slot is reserved only when it is settled, and the number of a process is taken away only after the
slot has been found. -/
def ActInTurn (act : Act) : Prop :=
  (act = .reserve → ∀ slot ∈ T.sys.findFreeSlotUnlocked, T.Settled slot) ∧
    ∀ slot, act = .freePid slot → T.Found slot

def InTurn : Event → Prop
  | .run _ _ => ∀ act ∈ T.sys.code.head?, T.ActInTurn act
  | _ => True

def InTurnAlong (T : Traced) : List Event → Prop
  | [] => True
  | event :: events => T.InTurn event ∧ (T.step event).InTurnAlong events

instance (act : Act) : Decidable (T.ActInTurn act) := inferInstanceAs (Decidable (_ ∧ _))

instance : (event : Event) → Decidable (T.InTurn event)
  | .run _ _ => inferInstanceAs (Decidable (∀ act ∈ T.sys.code.head?, T.ActInTurn act))
  | .call _ => isTrue trivial
  | .timer => isTrue trivial

instance decidableInTurnAlong (T : Traced) : (events : List Event) → Decidable (T.InTurnAlong events)
  | [] => isTrue trivial
  | event :: events =>
    have := decidableInTurnAlong (T.step event) events
    inferInstanceAs (Decidable (_ ∧ _))

end Traced

/-! ### The invariant -/

def earlyActs (slot : Slot) : List Act :=
  [.load slot, .setParent slot, .setExit slot, .allocStack slot, .checkStack slot, .setContext slot]

/-- Where a call of `process_exec_args` is with its process; until the slot is found, the number in it
counts. -/
inductive Stage (s : System) (w : Watch) : Thread → Prop
  | build {act : Act} {value : Int} (hAct : act ∈ earlyActs w.slot) (hAlive : w.fate = .alive)
      (hHalted : (s.threads (some w.slot)).code = [.halted]) (hPid : (s.procTable w.slot).pid = w.pid) :
      Stage s w ⟨[act, .execCreated], value⟩
  | ready {act : Act} {value : Int} (hAct : act = .setReady w.slot ∨ act = .readPid w.slot)
      (hPid : (s.procTable w.slot).pid = w.pid) : Stage s w ⟨[act, .execCreated], value⟩
  | created (hPid : (s.procTable w.slot).pid = w.pid) : Stage s w ⟨[.execCreated], w.pid⟩
  | start {act : Act} {value : Int}
      (hAct : act = .startGet w.pid ∨ ∃ i, act = .startCheck i ∨ act = .startReady i)
      (hPid : (s.procTable w.slot).pid = w.pid) : Stage s w ⟨[act, .execFind w.pid 0], value⟩
  | find {i : Nat} {value : Int} (hLe : i ≤ w.slot.val) (hPid : (s.procTable w.slot).pid = w.pid) :
      Stage s w ⟨[.execFind w.pid i], value⟩
  | wait {value : Int} : Stage s w ⟨[.execWait w.slot], value⟩
  | yield {value : Int} : Stage s w ⟨[.schedule, .execWait w.slot], value⟩
  | result {value : Int} (hEnded : w.fate ≠ .alive) : Stage s w ⟨[.execResult w.slot], value⟩

/-- What holds of a process that was not killed, while the call that created it has not come back. -/
structure Tracked (s : System) (t : Option Slot) (w : Watch) : Prop where
  other : t ≠ some w.slot
  born : s.born w.slot = w.pid
  pid_pos : 0 < w.pid
  alone : ∀ u, u ≠ t → ∀ act ∈ (s.threads u).code, act.builds ≠ some w.slot
  alive : w.fate = .alive → (s.procTable w.slot).state ≠ .free ∧ (s.procTable w.slot).state ≠ .zombie
  exited : ∀ status, w.fate = .exited status →
    (s.procTable w.slot).exitStatus = status ∧ (s.threads (some w.slot)).code = [.halted]
  stage : Stage s w (s.threads t)

structure Traced.Inv (T : Traced) : Prop where
  sound : T.sys.Sound
  tracked : ∀ t w, T.watch t = some w → w.fate ≠ .killed → Tracked T.sys t w
  right : ∀ r ∈ T.returns, r.Right

theorem tracedInit_inv : tracedInit.Inv where
  sound := System.sound_processInit
  tracked := by
    intro t w hWatch
    cases hWatch
  right := by
    intro r hMem
    cases hMem

section Others

variable {s s' : System} {t : Option Slot} {w : Watch}

theorem Stage.frame (h : Stage s w (s.threads t)) (hThread : s'.threads t = s.threads t)
    (hPid : (s'.procTable w.slot).pid = (s.procTable w.slot).pid ∨
      Act.execWait w.slot ∈ (s.threads t).code ∨ Act.execResult w.slot ∈ (s.threads t).code)
    (hHalted : (s.threads (some w.slot)).code = [.halted] → (s'.threads (some w.slot)).code = [.halted]) :
    Stage s' w (s'.threads t) := by
  rw [hThread]
  generalize s.threads t = thread at h hPid
  cases h with
  | build hAct hAlive hOld hAt =>
    rcases hPid with hSame | hFound
    · exact .build hAct hAlive (hHalted hOld) (hSame.trans hAt)
    · simp only [earlyActs, List.mem_cons, List.not_mem_nil, or_false] at hAct
      rcases hAct with rfl | rfl | rfl | rfl | rfl | rfl <;> simp at hFound
  | ready hAct hAt =>
    rcases hPid with hSame | hFound
    · exact .ready hAct (hSame.trans hAt)
    · rcases hAct with rfl | rfl <;> simp at hFound
  | created hAt =>
    rcases hPid with hSame | hFound
    · exact .created (hSame.trans hAt)
    · simp at hFound
  | start hAct hAt =>
    rcases hPid with hSame | hFound
    · exact .start hAct (hSame.trans hAt)
    · rcases hAct with rfl | ⟨i, rfl | rfl⟩ <;> simp at hFound
  | find hLe hAt =>
    rcases hPid with hSame | hFound
    · exact .find hLe (hSame.trans hAt)
    · simp at hFound
  | wait => exact .wait
  | yield => exact .yield
  | result hEnded => exact .result hEnded

theorem Stage.exits (h : Stage s w (s.threads t)) (status : Int)
    (hRuns : (s.threads (some w.slot)).code ≠ [.halted]) :
    Stage s { w with fate := .exited status } (s.threads t) := by
  generalize s.threads t = thread at h
  cases h with
  | build hAct hAlive hOld hAt => exact absurd hOld hRuns
  | ready hAct hAt => exact Stage.ready (w := { w with fate := .exited status }) hAct hAt
  | created hAt => exact Stage.created (w := { w with fate := .exited status }) hAt
  | start hAct hAt => exact Stage.start (w := { w with fate := .exited status }) hAct hAt
  | find hLe hAt => exact Stage.find (w := { w with fate := .exited status }) hLe hAt
  | wait => exact Stage.wait (w := { w with fate := .exited status })
  | yield => exact Stage.yield (w := { w with fate := .exited status })
  | result hEnded => exact Stage.result (w := { w with fate := .exited status }) (by simp)

theorem Tracked.frame (h : Tracked s t w) (hThread : s'.threads t = s.threads t)
    (hBorn : s'.born w.slot = s.born w.slot)
    (hPid : (s'.procTable w.slot).pid = (s.procTable w.slot).pid ∨
      Act.execWait w.slot ∈ (s.threads t).code ∨ Act.execResult w.slot ∈ (s.threads t).code)
    (hExit : (s'.procTable w.slot).exitStatus = (s.procTable w.slot).exitStatus)
    (hAlive : w.fate = .alive → (s'.procTable w.slot).state ≠ .free ∧ (s'.procTable w.slot).state ≠ .zombie)
    (hHalted : (s.threads (some w.slot)).code = [.halted] → (s'.threads (some w.slot)).code = [.halted])
    (hAlone : ∀ u, u ≠ t → ∀ act ∈ (s'.threads u).code, act.builds ≠ some w.slot) : Tracked s' t w where
  other := h.other
  born := hBorn.trans h.born
  pid_pos := h.pid_pos
  alone := hAlone
  alive := hAlive
  exited := by
    intro status hFate
    obtain ⟨hStatus, hCode⟩ := h.exited status hFate
    exact ⟨hExit.trans hStatus, hHalted hCode⟩
  stage := h.stage.frame hThread hPid hHalted

theorem halted_runAct {i : Slot} {act : Act} {rest : List Act} (hCode : s.code = act :: rest) (loaded : Bool)
    (stack : Nat) (hReplace : (s.setCode rest).replaces act ≠ some i)
    (hHalted : (s.threads (some i)).code = [.halted]) :
    (((s.setCode rest).execute loaded stack act).threads (some i)).code = [.halted] := by
  by_cases hSelf : some i = s.self
  · rw [hSelf] at hHalted ⊢
    rw [System.code, hHalted] at hCode
    cases hCode
    change (((s.setCode []).push [.halted]).threads (s.setCode []).self).code = [.halted]
    rw [System.push_threads_self, System.setCode_self, System.setCode_threads_self]
    rfl
  · rw [System.threads_execute_of_ne loaded stack (by exact hSelf), System.setCode_threads_of_ne hSelf]
    · exact hHalted
    · intro slot hSlot hEq
      exact hReplace (hSlot.trans hEq.symm)

theorem Tracked.alone_runAct (h : Tracked s t w) {act : Act} {rest : List Act} (hCode : s.code = act :: rest)
    (loaded : Bool) (stack : Nat) (hSelf : t ≠ s.self)
    (hReserve : act = .reserve → (s.setCode rest).findFreeSlotUnlocked ≠ some w.slot) :
    ∀ u, u ≠ t → ∀ act' ∈ (((s.setCode rest).execute loaded stack act).threads u).code,
      act'.builds ≠ some w.slot := by
  intro u hNe act' hMem hBuilds
  have hCodeSelf : ∀ a ∈ act :: rest, a.builds ≠ some w.slot := by
    intro a hIn
    exact h.alone s.self hSelf.symm a (hCode ▸ hIn : a ∈ s.code)
  rcases System.builds_execute hMem hBuilds with hOld | ⟨-, hAct | ⟨hAct, hFind⟩⟩
  · by_cases hU : u = s.self
    · subst hU
      rw [System.setCode_threads_self] at hOld
      exact hCodeSelf act' (List.mem_cons_of_mem act hOld) hBuilds
    · rw [System.setCode_threads_of_ne hU] at hOld
      exact h.alone u hNe act' hOld hBuilds
  · exact hCodeSelf act List.mem_cons_self hAct
  · exact hReserve hAct hFind

theorem Tracked.alive_of_untouched (h : Tracked s t w) (hUntouched : s.Untouched s' w.slot)
    (hFate : w.fate = .alive) :
    (s'.procTable w.slot).state ≠ .free ∧ (s'.procTable w.slot).state ≠ .zombie := by
  obtain ⟨hFree, hZombie⟩ := h.alive hFate
  rcases hUntouched.state with hSame | ⟨-, hReady | hRunning⟩
  · rw [hSame]
    exact ⟨hFree, hZombie⟩
  · simp [hReady]
  · simp [hRunning]

theorem Tracked.other_untouched (h : Tracked s t w) (hSound : s.Sound) {act : Act} {rest : List Act}
    (hCode : s.code = act :: rest) (loaded : Bool) (stack : Nat) (hSelf : t ≠ s.self)
    (hReplace : ∀ slot, (s.setCode rest).replaces act = some slot → t ≠ some slot)
    (hStore : (s.setCode rest).storesTo act ≠ some w.slot) :
    Tracked ((s.setCode rest).execute loaded stack act) t w := by
  have hUntouched := hSound.untouched_runAct hCode loaded stack hStore
  apply h.frame
  · rw [System.threads_execute_of_ne loaded stack (by exact hSelf) hReplace, System.setCode_threads_of_ne hSelf]
  · exact hUntouched.born
  · exact Or.inl hUntouched.pid
  · exact hUntouched.exitStatus
  · exact h.alive_of_untouched hUntouched
  · exact halted_runAct hCode loaded stack fun hEq => hStore (System.storesTo_of_replaces hEq)
  · apply h.alone_runAct hCode loaded stack hSelf
    rintro rfl hFind
    exact hStore hFind

end Others

section Steps

variable {T : Traced} {act : Act} {rest : List Act} {t : Option Slot}

theorem Watch.ends_of_ne {w : Watch} {slot : Slot} (pid : Int) (fate : Fate) (hNe : w.slot ≠ slot) :
    w.ends slot pid fate = w := by
  rw [Watch.ends, if_neg]
  rintro ⟨hEq, -⟩
  exact hNe hEq

theorem Traced.watched_of_ne {loaded : Bool} {w' : Watch} (hSelf : t ≠ T.sys.self)
    (hWatch : T.watched loaded rest act t = some w') :
    (∀ slot, (T.sys.setCode rest).replaces act = some slot → t ≠ some slot) ∧
      ∃ w, T.watch t = some w ∧
        (w' = w ∧ (∀ slot, act ≠ .freeState slot) ∧ (∀ status, act = .exitFinish status → T.sys.self = none) ∨
          (∃ status slot, act = .exitFinish status ∧ T.sys.self = some slot ∧
            w' = w.ends slot (T.sys.born slot) (.exited status)) ∨
          ∃ slot, act = .freeState slot ∧ w' = w.ends slot (T.sys.born slot) .killed) := by
  cases act with
  | reserve =>
    simp only [Traced.watched] at hWatch
    cases hFind : T.sys.findFreeSlotUnlocked with
    | none =>
      simp only [hFind] at hWatch
      refine ⟨?_, w', hWatch, Or.inl ⟨rfl, by simp, by simp⟩⟩
      intro slot hSlot
      exact absurd (hSlot.symm.trans hFind) (by simp)
    | some slot =>
      simp only [hFind] at hWatch
      have hOld : Function.update T.watch (some slot) none t = some w' := by
        split at hWatch
        · rwa [Function.update_of_ne hSelf] at hWatch
        · exact hWatch
      have hNe : t ≠ some slot := by
        rintro rfl
        simp at hOld
      rw [Function.update_of_ne hNe] at hOld
      refine ⟨?_, w', hOld, Or.inl ⟨rfl, by simp, by simp⟩⟩
      intro slot' hSlot
      rw [← hSlot.symm.trans hFind] at hNe
      exact hNe
  | load slot =>
    simp only [Traced.watched] at hWatch
    refine ⟨fun _ hSlot => (by cases hSlot), w', ?_, Or.inl ⟨rfl, by simp, by simp⟩⟩
    split at hWatch
    · exact hWatch
    · rwa [Function.update_of_ne hSelf] at hWatch
  | checkStack slot =>
    simp only [Traced.watched] at hWatch
    refine ⟨fun _ hSlot => (by cases hSlot), w', ?_, Or.inl ⟨rfl, by simp, by simp⟩⟩
    split at hWatch
    · rwa [Function.update_of_ne hSelf] at hWatch
    · exact hWatch
  | setContext slot | releaseContext slot =>
    simp only [Traced.watched] at hWatch
    have hNe : t ≠ some slot := by
      rintro rfl
      simp at hWatch
    rw [Function.update_of_ne hNe] at hWatch
    refine ⟨?_, w', hWatch, Or.inl ⟨rfl, by simp, by simp⟩⟩
    intro slot' hSlot
    cases hSlot
    exact hNe
  | exitFinish status =>
    simp only [Traced.watched] at hWatch
    cases hSome : T.sys.self with
    | none =>
      simp only [hSome] at hWatch
      refine ⟨?_, w', hWatch, Or.inl ⟨rfl, by simp, fun _ _ => rfl⟩⟩
      intro slot hSlot
      exact absurd (hSlot.symm.trans hSome) (by simp)
    | some slot =>
      simp only [hSome] at hWatch
      rw [Function.update_of_ne (hSome ▸ hSelf)] at hWatch
      obtain ⟨w, hOld, rfl⟩ := Option.map_eq_some_iff.mp hWatch
      refine ⟨?_, w, hOld, Or.inr (Or.inl ⟨status, slot, rfl, rfl, rfl⟩)⟩
      intro slot' hSlot
      rw [← hSlot]
      exact hSelf
  | freeState slot =>
    obtain ⟨w, hOld, rfl⟩ := Option.map_eq_some_iff.mp hWatch
    exact ⟨fun _ hSlot => (by cases hSlot), w, hOld, Or.inr (Or.inr ⟨slot, rfl, rfl⟩)⟩
  | _ => exact ⟨fun _ hSlot => (by cases hSlot), w', hWatch, Or.inl ⟨rfl, by simp, by simp⟩⟩

theorem Traced.Inv.other_store (h : T.Inv) (hCode : T.sys.code = act :: rest) (hTurn : T.ActInTurn act)
    (loaded : Bool) (stack : Nat) {w : Watch} (hWatch : T.watch t = some w) (hKilled : w.fate ≠ .killed)
    (hSelf : t ≠ T.sys.self) (hStore : (T.sys.setCode rest).storesTo act = some w.slot)
    (hEnds : ∀ slot, act = .freeState slot → w.fate ≠ .alive) (hExit : ∀ status, act ≠ .exitFinish status) :
    Tracked ((T.sys.setCode rest).execute loaded stack act) t w := by
  have hTracked := h.tracked t w hWatch hKilled
  have hAct : act ∈ T.sys.code := hCode ▸ List.mem_cons_self
  have hNoBuild : act.builds ≠ some w.slot := hTracked.alone _ hSelf.symm act hAct
  have hNoReserve : act ≠ .reserve := by
    rintro rfl
    have hFind : T.sys.findFreeSlotUnlocked = some w.slot := hStore
    have hFree := System.free_of_found hFind
    cases hFate : w.fate with
    | alive => exact (hTracked.alive hFate).1 hFree
    | killed => exact hKilled hFate
    | exited status =>
      have hOpen := (hTurn.1 rfl w.slot hFind).1 t w hWatch rfl
      rw [hFate] at hOpen
      cases hOpen
  have hAlone := hTracked.alone_runAct hCode loaded stack hSelf fun hEq => absurd hEq hNoReserve
  have hReplace : (T.sys.setCode rest).replaces act = none := by
    cases act with
    | reserve => exact absurd rfl hNoReserve
    | setContext slot | releaseContext slot => exact absurd hStore hNoBuild
    | exitFinish status => exact absurd rfl (hExit status)
    | _ => rfl
  have hThread : ((T.sys.setCode rest).execute loaded stack act).threads t = T.sys.threads t := by
    rw [System.threads_execute_of_ne loaded stack (by exact hSelf), System.setCode_threads_of_ne hSelf]
    intro slot hSlot
    rw [hReplace] at hSlot
    cases hSlot
  have hHalted := halted_runAct (i := w.slot) hCode loaded stack (by rw [hReplace]; simp)
  cases act with
  | startReady slot =>
    cases hStore
    apply hTracked.frame hThread rfl _ _ _ hHalted hAlone
    all_goals simp [System.execute, System.setState, System.modify_procTable]
  | stackClear slot =>
    cases hStore
    apply hTracked.frame hThread rfl _ _ _ hHalted hAlone
    all_goals simp [System.execute, System.modify_procTable]
    exact hTracked.alive
  | freeState slot =>
    cases hStore
    apply hTracked.frame hThread rfl _ _ _ hHalted hAlone
    all_goals simp [System.execute, System.setState, System.modify_procTable]
    exact hEnds _ rfl
  | freePid slot =>
    cases hStore
    apply hTracked.frame hThread rfl _ _ _ hHalted hAlone
    · exact Or.inr ((hTurn.2 w.slot rfl t w hWatch rfl).resolve_left hKilled)
    · simp [System.execute, System.modify_procTable]
    · simpa [System.execute, System.modify_procTable] using hTracked.alive
  | exitFinish status => exact absurd rfl (hExit status)
  | reserve => exact absurd rfl hNoReserve
  | _ => first | exact absurd hStore hNoBuild | cases hStore

theorem Tracked.exits {s : System} {w : Watch} (h : Tracked s t w) {status : Int}
    (hCode : s.code = .exitFinish status :: rest) (loaded : Bool) (stack : Nat) (hSelf : t ≠ s.self)
    (hSlot : s.self = some w.slot) :
    Tracked ((s.setCode rest).execute loaded stack (.exitFinish status)) t
      { w with fate := .exited status } := by
  have hRuns : (s.threads (some w.slot)).code ≠ [.halted] := by
    rw [← hSlot]
    change s.code ≠ [.halted]
    rw [hCode]
    simp
  have hAlone := h.alone_runAct hCode loaded stack hSelf fun hEq => (by cases hEq)
  have hThread : ((s.setCode rest).execute loaded stack (.exitFinish status)).threads t = s.threads t := by
    rw [System.threads_execute_of_ne loaded stack (by exact hSelf), System.setCode_threads_of_ne hSelf]
    intro slot hEq
    rw [← hEq]
    exact hSelf
  have hExecute : (s.setCode rest).execute loaded stack (.exitFinish status) =
      { ((s.setCode rest).modify w.slot (Process.exited status)).setThread (some w.slot) haltedThread with
        currentPid := -1, currentProcess := none, irq := true } := by
    simp only [System.execute, System.exitFinish, System.setCode_self, hSlot]
  have hPid : (((s.setCode rest).execute loaded stack (.exitFinish status)).procTable w.slot).pid =
      (s.procTable w.slot).pid := by
    rw [hExecute]
    simp [System.modify_procTable, Process.exited]
  constructor
  · exact h.other
  · rw [hExecute]
    exact h.born
  · exact h.pid_pos
  · exact hAlone
  · intro hFate
    cases hFate
  · intro status' hFate
    cases hFate
    rw [hExecute]
    simp [System.modify_procTable, Process.exited, System.setThread, haltedThread]
  · have hStage := h.stage.exits status hRuns
    apply hStage.frame hThread (Or.inl hPid)
    intro hHalted
    exact absurd hHalted hRuns

theorem Traced.Inv.others (h : T.Inv) (hCode : T.sys.code = act :: rest) (hTurn : T.ActInTurn act)
    {loaded : Bool} (stack : Nat) {w' : Watch} (hSelf : t ≠ T.sys.self)
    (hWatch : T.watched loaded rest act t = some w') (hKilled : w'.fate ≠ .killed) :
    Tracked ((T.sys.setCode rest).execute loaded stack act) t w' := by
  obtain ⟨hReplace, w, hOld, hChange⟩ := Traced.watched_of_ne hSelf hWatch
  have hOldKilled : w.fate ≠ .killed := by
    rcases hChange with ⟨rfl, -⟩ | ⟨status, slot, -, -, rfl⟩ | ⟨slot, -, rfl⟩
    · exact hKilled
    · intro hFate
      rw [Watch.ends, if_neg (by simp [hFate])] at hKilled
      exact hKilled hFate
    · intro hFate
      rw [Watch.ends, if_neg (by simp [hFate])] at hKilled
      exact hKilled hFate
  have hTracked := h.tracked t w hOld hOldKilled
  by_cases hStore : (T.sys.setCode rest).storesTo act = some w.slot
  case neg =>
    have hSame : w' = w := by
      rcases hChange with ⟨rfl, -⟩ | ⟨status, slot, rfl, hSome, rfl⟩ | ⟨slot, rfl, rfl⟩
      · rfl
      · apply Watch.ends_of_ne
        rintro rfl
        exact hStore hSome
      · apply Watch.ends_of_ne
        rintro rfl
        exact hStore rfl
    rw [hSame]
    exact hTracked.other_untouched h.sound hCode loaded stack hSelf hReplace hStore
  case pos =>
    rcases hChange with ⟨rfl, hFree, hExit⟩ | ⟨status, slot, rfl, hSome, rfl⟩ | ⟨slot, rfl, rfl⟩
    · apply h.other_store hCode hTurn loaded stack hOld hOldKilled hSelf hStore
      · intro slot hEq
        exact absurd hEq (hFree slot)
      · rintro status rfl
        exact absurd (hStore.symm.trans (hExit status rfl)) (by simp)
    · have hSlot : slot = w.slot := Option.some.inj (hSome.symm.trans hStore)
      subst hSlot
      cases hFate : w.fate with
      | alive =>
        rw [Watch.ends, if_pos ⟨rfl, hTracked.born.symm, hFate⟩]
        exact hTracked.exits hCode loaded stack hSelf hSome
      | killed => exact absurd hFate hOldKilled
      | exited status' =>
        have hHalted := (hTracked.exited status' hFate).2
        rw [← hSome] at hHalted
        exact absurd (hCode.symm.trans hHalted) (by simp)
    · cases hStore
      have hFate : w.fate ≠ .alive := by
        intro hFate
        rw [Watch.ends, if_pos ⟨rfl, hTracked.born.symm, hFate⟩] at hKilled
        exact hKilled rfl
      rw [Watch.ends, if_neg (fun hEq => hFate hEq.2.2)]
      exact h.other_store hCode hTurn loaded stack hOld hOldKilled hSelf rfl (fun _ _ => hFate)
        (fun _ hEq => by cases hEq)

theorem Tracked.own_frame {s s' : System} {w : Watch} (h : Tracked s s.self w) (hCode : s.code = act :: rest)
    (loaded : Bool) (stack : Nat) (hExec : (s.setCode rest).execute loaded stack act = s')
    (hBorn : s'.born w.slot = s.born w.slot)
    (hAlive : w.fate = .alive → (s'.procTable w.slot).state ≠ .free ∧ (s'.procTable w.slot).state ≠ .zombie)
    (hExited : w.fate ≠ .alive → (s.setCode rest).replaces act ≠ some w.slot ∧
      (s'.procTable w.slot).exitStatus = (s.procTable w.slot).exitStatus)
    (hStage : Stage s' w (s'.threads s.self)) : Tracked s' s.self w := by
  subst hExec
  refine ⟨h.other, hBorn.trans h.born, h.pid_pos, ?_, hAlive, ?_, hStage⟩
  · intro u hNe act' hMem hBuilds
    rcases System.builds_execute hMem hBuilds with hOld | ⟨hEq, -⟩
    · rw [System.setCode_threads_of_ne hNe] at hOld
      exact h.alone u hNe act' hOld hBuilds
    · exact hNe hEq
  · intro status hFate
    obtain ⟨hStatus, hHalted⟩ := h.exited status hFate
    obtain ⟨hReplace, hSame⟩ := hExited (by simp [hFate])
    exact ⟨hSame.trans hStatus, halted_runAct hCode loaded stack hReplace hHalted⟩

theorem Tracked.own_build {s : System} {w : Watch} (h : Tracked s s.self w) (hAct : act ∈ earlyActs w.slot)
    (hCode : s.code = [act, .execCreated]) (loaded : Bool) (stack : Nat) (hAlive : w.fate = .alive)
    (hHalted : (s.threads (some w.slot)).code = [.halted]) (hPid : (s.procTable w.slot).pid = w.pid)
    (hLoad : act = .load w.slot → loaded = true)
    (hStack : act = .checkStack w.slot → (s.procTable w.slot).stackBase ≠ 0) :
    Tracked ((s.setCode [.execCreated]).execute loaded stack act) s.self w := by
  have hSelf : (s.setCode [.execCreated]).threads s.self = ⟨[.execCreated], (s.threads s.self).value⟩ :=
    System.setCode_threads_self _
  have hThread : ∀ (X : System) (next : Act), X.self = s.self →
      X.threads s.self = (s.setCode [.execCreated]).threads s.self →
      (X.push [next]).threads s.self = ⟨[next, .execCreated], (s.threads s.self).value⟩ := by
    intro X next hX hThreads
    rw [System.push_thread hX (hThreads.trans hSelf)]
    rfl
  have hFate : w.fate ≠ .alive → ∀ P : Prop, P := fun hNe => absurd hAlive hNe
  have hLive := h.alive hAlive
  cases act with
  | load slot =>
    obtain rfl : slot = w.slot := by simpa [earlyActs] using hAct
    have hExecute : (s.setCode [.execCreated]).execute loaded stack (.load w.slot) =
        (s.setCode [.execCreated]).push [.setParent w.slot] := by
      simp only [System.execute, hLoad rfl, if_true]
    have hStill := halted_runAct (i := w.slot) hCode loaded stack (by simp [System.replaces]) hHalted
    apply h.own_frame hCode loaded stack rfl rfl (fun _ => hLive) (fun hNe => hFate hNe _)
    rw [hExecute] at hStill ⊢
    rw [hThread _ _ (by rfl) (by rfl)]
    exact .build (by simp [earlyActs]) hAlive hStill hPid
  | setParent slot | setExit slot | allocStack slot =>
    obtain rfl : slot = w.slot := by simpa [earlyActs] using hAct
    have hStill := halted_runAct (i := w.slot) hCode loaded stack (by simp [System.replaces]) hHalted
    apply h.own_frame hCode loaded stack rfl rfl _ (fun hNe => hFate hNe _)
    · simp only [System.execute] at hStill ⊢
      rw [hThread _ _ (by rfl) (by rfl)]
      exact .build (by simp [earlyActs]) hAlive hStill (by simpa [System.modify_procTable] using hPid)
    · simpa [System.execute, System.modify_procTable] using fun _ => hLive
  | checkStack slot =>
    obtain rfl : slot = w.slot := by simpa [earlyActs] using hAct
    have hExecute : (s.setCode [.execCreated]).execute loaded stack (.checkStack w.slot) =
        (s.setCode [.execCreated]).push [.setContext w.slot] := by
      simp only [System.execute, System.setCode_procTable, hStack rfl, if_false]
    have hStill := halted_runAct (i := w.slot) hCode loaded stack (by simp [System.replaces]) hHalted
    apply h.own_frame hCode loaded stack rfl rfl (fun _ => hLive) (fun hNe => hFate hNe _)
    rw [hExecute] at hStill ⊢
    rw [hThread _ _ (by rfl) (by rfl)]
    exact .build (by simp [earlyActs]) hAlive hStill hPid
  | setContext slot =>
    -- the process has a thread of its own from here on
    obtain rfl : slot = w.slot := by simpa [earlyActs] using hAct
    apply h.own_frame hCode loaded stack rfl rfl _ (fun hNe => hFate hNe _)
    · simp only [System.execute]
      rw [hThread _ _ (by rfl) (by simp [System.setThread, h.other])]
      exact .ready (Or.inl rfl) (by simpa [System.modify_procTable] using hPid)
    · simpa [System.execute, System.modify_procTable] using fun _ => hLive
  | _ => simp [earlyActs] at hAct

theorem Tracked.own_untouched {s s' : System} {w : Watch} (h : Tracked s s.self w) (hSound : s.Sound)
    (hCode : s.code = act :: rest) (loaded : Bool) (stack : Nat)
    (hExec : (s.setCode rest).execute loaded stack act = s') (hStore : (s.setCode rest).storesTo act ≠ some w.slot)
    (hStage : ((s.procTable w.slot).pid = w.pid → (s'.procTable w.slot).pid = w.pid) →
      Stage s' w (s'.threads s.self)) : Tracked s' s.self w := by
  subst hExec
  have hUntouched := hSound.untouched_runAct hCode loaded stack hStore
  apply h.own_frame hCode loaded stack rfl hUntouched.born (h.alive_of_untouched hUntouched)
  · intro _
    exact ⟨fun hEq => hStore (System.storesTo_of_replaces hEq), hUntouched.exitStatus⟩
  · exact hStage hUntouched.pid.trans

theorem Tracked.own_start {s : System} {w : Watch} (h : Tracked s s.self w) (hSound : s.Sound)
    (hCode : s.code = act :: rest) (loaded : Bool) (stack : Nat)
    (hPid : (s.procTable w.slot).pid = w.pid)
    (hWhere : (act = .setReady w.slot ∨ act = .readPid w.slot) ∧ rest = [.execCreated] ∨
      act = .execCreated ∧ rest = [] ∧ (s.threads s.self).value = w.pid ∨
      (act = .startGet w.pid ∨ ∃ i, act = .startCheck i ∨ act = .startReady i) ∧
        rest = [.execFind w.pid 0]) :
    Tracked ((s.setCode rest).execute loaded stack act) s.self w := by
  have hSelf : (s.setCode rest).threads s.self = ⟨rest, (s.threads s.self).value⟩ :=
    System.setCode_threads_self _
  rcases hWhere with ⟨rfl | rfl, rfl⟩ | ⟨rfl, rfl, hValue⟩ | ⟨rfl | ⟨i, rfl | rfl⟩, rfl⟩
  · apply h.own_frame hCode loaded stack rfl rfl
    · simp [System.execute, System.setState, System.modify_procTable]
    · simp [System.execute, System.setState, System.modify_procTable, System.replaces]
    · simp only [System.execute]
      rw [System.push_thread (by rfl) (by exact hSelf)]
      exact .ready (Or.inr rfl) (by simpa [System.setState, System.modify_procTable] using hPid)
  · apply h.own_untouched hSound hCode loaded stack rfl (by simp [System.storesTo])
    intro hSame
    have hAt := hSame hPid
    simp only [System.execute, System.setCode_procTable, hPid] at hAt ⊢
    rw [System.setValue_thread (by rfl) hSelf]
    exact .created hAt
  · apply h.own_untouched hSound hCode loaded stack rfl (by simp [System.storesTo])
    intro hSame
    have hAt := hSame hPid
    have hNew : (s.setCode []).execute loaded stack .execCreated =
        (s.setCode []).push [.startGet w.pid, .execFind w.pid 0] := by
      have hThread : (s.setCode []).threads (s.setCode []).self = ⟨[], w.pid⟩ := hSelf.trans (by rw [hValue])
      have hPos : ¬w.pid < 0 := by
        have hPid := h.pid_pos
        omega
      simp only [System.execute, hThread, hPos, if_false]
    rw [hNew] at hAt ⊢
    rw [System.push_thread (by rfl) hSelf]
    exact .start (Or.inl rfl) hAt
  · apply h.own_untouched hSound hCode loaded stack rfl (by simp [System.storesTo])
    intro hSame
    have hAt := hSame hPid
    simp only [System.execute] at hAt ⊢
    split
    · rw [System.setValue_thread (by rfl) hSelf]
      exact .find (Nat.zero_le _) hPid
    · rw [System.push_thread (by rfl) hSelf]
      exact .start (Or.inr ⟨_, Or.inl rfl⟩) hPid
  · apply h.own_untouched hSound hCode loaded stack rfl (by simp [System.storesTo])
    intro hSame
    simp only [System.execute]
    split
    · rw [System.setValue_thread (by rfl) hSelf]
      exact .find (Nat.zero_le _) hPid
    · rw [System.push_thread (by rfl) hSelf]
      exact .start (Or.inr ⟨_, Or.inr rfl⟩) hPid
  · have hThread : ((s.setCode [.execFind w.pid 0]).execute loaded stack (.startReady i)).threads s.self =
        ⟨[.execFind w.pid 0], 0⟩ := by
      simp only [System.execute]
      rw [System.setValue_thread (by rfl) (by exact hSelf)]
    by_cases hEq : i = w.slot
    · subst hEq
      apply h.own_frame hCode loaded stack rfl rfl
      · simp [System.execute, System.setState, System.modify_procTable]
      · simp [System.execute, System.setState, System.modify_procTable, System.replaces]
      · rw [hThread]
        exact .find (Nat.zero_le _) (by simpa [System.execute, System.setState, System.modify_procTable] using hPid)
    · apply h.own_untouched hSound hCode loaded stack rfl (by simpa [System.storesTo] using hEq)
      intro hSame
      rw [hThread]
      exact .find (Nat.zero_le _) (hSame hPid)

theorem Tracked.own_find {s : System} {w : Watch} (h : Tracked s s.self w) (hSound : s.Sound) {i : Nat}
    (hCode : s.code = [.execFind w.pid i]) (loaded : Bool) (stack : Nat)
    (hPid : (s.procTable w.slot).pid = w.pid) (hLe : i ≤ w.slot.val) :
    Tracked ((s.setCode []).execute loaded stack (.execFind w.pid i)) s.self w := by
  have hSelf : (s.setCode []).threads s.self = ⟨[], (s.threads s.self).value⟩ :=
    System.setCode_threads_self _
  apply h.own_untouched hSound hCode loaded stack rfl (by simp [System.storesTo])
  intro hSame
  have hLt : i < maxProcesses := lt_of_le_of_lt hLe w.slot.isLt
  have hNe : w.pid ≠ 0 := ne_of_gt h.pid_pos
  simp only [System.execute, hLt, dif_pos]
  split
  case isTrue hFound =>
    have hAt : (s.procTable ⟨i, hLt⟩).pid = w.pid := hFound
    have hEq : (⟨i, hLt⟩ : Slot) = w.slot :=
      hSound.pid_distinct _ _ (hAt.trans hPid.symm) (by rwa [hAt])
    rw [System.push_thread (by rfl) hSelf, hEq]
    exact .wait
  case isFalse hFound =>
    have hOther : i ≠ w.slot.val := by
      rintro rfl
      exact hFound hPid
    rw [System.push_thread (by rfl) hSelf]
    exact .find (by omega) hPid

theorem Tracked.own_wait {s : System} {w : Watch} (h : Tracked s s.self w) (hSound : s.Sound)
    (hCode : s.code = [.execWait w.slot]) (loaded : Bool) (stack : Nat) :
    Tracked ((s.setCode []).execute loaded stack (.execWait w.slot)) s.self w := by
  have hSelf : (s.setCode []).threads s.self = ⟨[], (s.threads s.self).value⟩ :=
    System.setCode_threads_self _
  apply h.own_untouched hSound hCode loaded stack rfl (by simp [System.storesTo])
  intro hSame
  simp only [System.execute]
  split
  case isTrue =>
    rw [System.push_thread (by rfl) hSelf]
    exact .yield
  case isFalse hGoes =>
    rw [System.push_thread (by rfl) hSelf]
    apply Stage.result
    intro hAlive
    exact hGoes (h.alive hAlive)

theorem Tracked.own_yield {s : System} {w : Watch} (h : Tracked s s.self w) (hSound : s.Sound)
    (hCode : s.code = [.schedule, .execWait w.slot]) (loaded : Bool) (stack : Nat) :
    Tracked ((s.setCode [.execWait w.slot]).execute loaded stack .schedule) s.self w := by
  apply h.own_untouched hSound hCode loaded stack rfl (by simp [System.storesTo])
  intro hSame
  simp only [System.execute, System.processSchedule_threads, System.setCode_threads_self]
  exact .wait

theorem Tracked.own_result {s : System} {w : Watch} (h : Tracked s s.self w) (loaded : Bool) (stack : Nat)
    (hEnded : w.fate ≠ .alive) :
    (((s.setCode []).execute loaded stack (.execResult w.slot)).threads s.self).code = [] ∧
      Return.Right ⟨w.pid, w.fate,
        (((s.setCode []).execute loaded stack (.execResult w.slot)).threads s.self).value⟩ := by
  have hSelf : (s.setCode []).threads s.self = ⟨[], (s.threads s.self).value⟩ :=
    System.setCode_threads_self _
  have hNew : ((s.setCode []).execute loaded stack (.execResult w.slot)).threads s.self =
      ⟨[], (s.procTable w.slot).exitStatus⟩ := by
    simp only [System.execute]
    rw [System.setValue_thread (by rfl) hSelf]
    rfl
  rw [hNew]
  refine ⟨rfl, hEnded, ?_⟩
  intro status hFate
  exact (h.exited status hFate).1

theorem Stage.code_ne_nil {s : System} {w : Watch} {thread : Thread} (h : Stage s w thread) :
    thread.code ≠ [] := by
  cases h <;> simp

theorem Stage.not_freeState {s : System} {w : Watch} {thread : Thread} (h : Stage s w thread) (slot : Slot) :
    thread.code.head? ≠ some (.freeState slot) := by
  cases h with
  | build hAct =>
    simp only [earlyActs, List.mem_cons, List.not_mem_nil, or_false] at hAct
    rcases hAct with rfl | rfl | rfl | rfl | rfl | rfl <;> simp
  | ready hAct => rcases hAct with rfl | rfl <;> simp
  | start hAct => rcases hAct with rfl | ⟨i, rfl | rfl⟩ <;> simp
  | _ => simp

theorem Tracked.own {s : System} {w : Watch} (h : Tracked s s.self w) (hSound : s.Sound)
    (hCode : s.code = act :: rest) {loaded : Bool} (stack : Nat)
    (hLoad : ∀ slot, act = .load slot → loaded = true)
    (hStack : ∀ slot, act = .checkStack slot → (s.procTable slot).stackBase ≠ 0) :
    Tracked ((s.setCode rest).execute loaded stack act) s.self w ∨
      (((s.setCode rest).execute loaded stack act).threads s.self).code = [] ∧
        Return.Right ⟨w.pid, w.fate,
          (((s.setCode rest).execute loaded stack act).threads s.self).value⟩ := by
  have hStage := h.stage
  generalize hThread : s.threads s.self = thread at hStage
  have hThreadCode : thread.code = act :: rest := by
    rw [← hThread]
    exact hCode
  cases hStage with
  | build hAct hAlive hHalted hPid =>
    cases hThreadCode
    exact Or.inl (h.own_build hAct hCode loaded stack hAlive hHalted hPid (hLoad _) (hStack _))
  | ready hAct hPid =>
    cases hThreadCode
    exact Or.inl (h.own_start hSound hCode loaded stack hPid (Or.inl ⟨hAct, rfl⟩))
  | created hPid =>
    cases hThreadCode
    exact Or.inl (h.own_start hSound hCode loaded stack hPid (Or.inr (Or.inl ⟨rfl, rfl, by rw [hThread]⟩)))
  | start hAct hPid =>
    cases hThreadCode
    exact Or.inl (h.own_start hSound hCode loaded stack hPid (Or.inr (Or.inr ⟨hAct, rfl⟩)))
  | find hLe hPid =>
    cases hThreadCode
    exact Or.inl (h.own_find hSound hCode loaded stack hPid hLe)
  | wait =>
    cases hThreadCode
    exact Or.inl (h.own_wait hSound hCode loaded stack)
  | yield =>
    cases hThreadCode
    exact Or.inl (h.own_yield hSound hCode loaded stack)
  | result hEnded =>
    cases hThreadCode
    exact Or.inr (h.own_result loaded stack hEnded)

theorem Traced.Inv.reserves (h : T.Inv) (hTurn : T.ActInTurn .reserve) (loaded : Bool) (stack : Nat) {slot : Slot}
    (hFind : T.sys.findFreeSlotUnlocked = some slot) :
    Tracked ((T.sys.setCode [.execCreated]).execute loaded stack .reserve) T.sys.self
      ⟨T.sys.nextPid, slot, .alive⟩ := by
  have hFree := System.free_of_found hFind
  have hOther : T.sys.self ≠ some slot := fun hEq =>
    h.sound.seated slot (h.sound.self_eq ▸ hEq) hFree
  have hFind' : (T.sys.setCode [.execCreated]).findFreeSlotUnlocked = some slot := hFind
  have hAlone : ∀ u, u ≠ T.sys.self →
      ∀ act ∈ (((T.sys.setCode [.execCreated]).execute loaded stack .reserve).threads u).code,
        act.builds ≠ some slot := by
    intro u hNe act hMem hBuilds
    rcases System.builds_execute hMem hBuilds with hOld | ⟨hEq, -⟩
    · rw [System.setCode_threads_of_ne hNe] at hOld
      exact (hTurn.1 rfl slot hFind).2 u act hOld hBuilds
    · exact hNe hEq
  have hSelf : (T.sys.setCode [.execCreated]).threads T.sys.self =
      ⟨[.execCreated], (T.sys.threads T.sys.self).value⟩ := System.setCode_threads_self _
  simp only [System.execute, System.reserve, hFind'] at hAlone ⊢
  constructor
  · exact hOther
  · exact Function.update_self _ _ _
  · exact h.sound.nextPid_pos
  · exact hAlone
  · simp [System.modify_procTable, reservedProcess]
  · intro status hFate
    cases hFate
  · rw [System.push_thread (by rfl) (by exact (Function.update_of_ne hOther _ _).trans hSelf)]
    refine .build (by simp [earlyActs]) rfl ?_ ?_
    · rw [System.push_threads_of_ne (by exact hOther.symm)]
      simp [System.setThread, haltedThread]
    · simp [System.modify_procTable, reservedProcess]
      rfl

theorem Traced.watched_self {loaded : Bool} {w' : Watch}
    (hWatch : T.watched loaded rest act T.sys.self = some w') :
    (∃ slot, act = .reserve ∧ rest = [.execCreated] ∧ T.sys.findFreeSlotUnlocked = some slot ∧
        w' = ⟨T.sys.nextPid, slot, .alive⟩) ∨
      (∃ w, T.watch T.sys.self = some w ∧
        (w' = w ∨ ∃ slot, act = .freeState slot ∧ w' = w.ends slot (T.sys.born slot) .killed)) ∧
      (∀ slot, act = .load slot → loaded = true) ∧
      ∀ slot, act = .checkStack slot → (T.sys.procTable slot).stackBase ≠ 0 := by
  cases act with
  | reserve =>
    simp only [Traced.watched] at hWatch
    cases hFind : T.sys.findFreeSlotUnlocked with
    | none =>
      simp only [hFind] at hWatch
      exact Or.inr ⟨⟨w', hWatch, Or.inl rfl⟩, by simp, by simp⟩
    | some slot =>
      simp only [hFind] at hWatch
      split at hWatch
      case isTrue hRest =>
        rw [Function.update_self] at hWatch
        exact Or.inl ⟨slot, rfl, hRest, rfl, (Option.some.inj hWatch).symm⟩
      case isFalse =>
        rw [Function.update_apply] at hWatch
        split at hWatch
        · cases hWatch
        · exact Or.inr ⟨⟨w', hWatch, Or.inl rfl⟩, by simp, by simp⟩
  | load slot =>
    simp only [Traced.watched] at hWatch
    cases loaded with
    | false => simp at hWatch
    | true => exact Or.inr ⟨⟨w', hWatch, Or.inl rfl⟩, by simp, by simp⟩
  | checkStack slot =>
    simp only [Traced.watched] at hWatch
    split at hWatch
    case isTrue => simp at hWatch
    case isFalse hStack =>
      refine Or.inr ⟨⟨w', hWatch, Or.inl rfl⟩, by simp, ?_⟩
      intro slot' hEq
      cases hEq
      exact hStack
  | setContext slot | releaseContext slot =>
    simp only [Traced.watched, Function.update_apply] at hWatch
    split at hWatch
    · cases hWatch
    · exact Or.inr ⟨⟨w', hWatch, Or.inl rfl⟩, by simp, by simp⟩
  | exitFinish status =>
    simp only [Traced.watched] at hWatch
    cases hSome : T.sys.self with
    | none =>
      simp only [hSome] at hWatch
      exact Or.inr ⟨⟨w', hWatch, Or.inl rfl⟩, by simp, by simp⟩
    | some slot =>
      simp only [hSome, Function.update_self] at hWatch
      cases hWatch
  | freeState slot =>
    obtain ⟨w, hOld, rfl⟩ := Option.map_eq_some_iff.mp hWatch
    exact Or.inr ⟨⟨w, hOld, Or.inr ⟨slot, rfl, rfl⟩⟩, by simp, by simp⟩
  | _ => exact Or.inr ⟨⟨w', hWatch, Or.inl rfl⟩, by simp, by simp⟩

/-! ### Steps and runs -/

theorem Traced.Inv.own (h : T.Inv) (hCode : T.sys.code = act :: rest) (hTurn : T.ActInTurn act)
    {loaded : Bool} (stack : Nat) {w' : Watch} (hWatch : T.watched loaded rest act T.sys.self = some w')
    (hKilled : w'.fate ≠ .killed) :
    Tracked ((T.sys.setCode rest).execute loaded stack act) T.sys.self w' ∨
      (((T.sys.setCode rest).execute loaded stack act).threads T.sys.self).code = [] ∧
        Return.Right ⟨w'.pid, w'.fate,
          (((T.sys.setCode rest).execute loaded stack act).threads T.sys.self).value⟩ := by
  rcases Traced.watched_self hWatch with
    ⟨slot, rfl, rfl, hFind, rfl⟩ | ⟨⟨w, hOld, hChange⟩, hLoad, hStack⟩
  · exact Or.inl (h.reserves hTurn loaded stack hFind)
  · have hOldKilled : w.fate ≠ .killed := by
      rcases hChange with rfl | ⟨slot, -, rfl⟩
      · exact hKilled
      · intro hFate
        rw [Watch.ends, if_neg (by simp [hFate])] at hKilled
        exact hKilled hFate
    have hTracked := h.tracked _ w hOld hOldKilled
    have hSame : w' = w := by
      rcases hChange with hEq | ⟨slot, rfl, -⟩
      · exact hEq
      · have hHead := hTracked.stage.not_freeState slot
        change T.sys.code.head? ≠ _ at hHead
        simp [hCode] at hHead
    rw [hSame]
    exact hTracked.own h.sound hCode stack hLoad hStack

theorem Return.right_of_killed {pid value : Int} : Return.Right ⟨pid, .killed, value⟩ :=
  ⟨by simp, fun _ hFate => by cases hFate⟩

theorem Traced.Inv.runs (h : T.Inv) (hCode : T.sys.code = act :: rest) (hTurn : T.ActInTurn act)
    (loaded : Bool) (stack : Nat) : (T.step (.run loaded stack)).Inv := by
  have hSound := h.sound.runAct loaded stack
  have hEq := System.runAct_eq hCode loaded stack
  have hOthers : ∀ t w', t ≠ T.sys.self → T.watched loaded rest act t = some w' → w'.fate ≠ .killed →
      Tracked (T.sys.runAct loaded stack) t w' := by
    intro t w' hSelf hWatch hKilled
    rw [hEq]
    exact h.others hCode hTurn stack hSelf hWatch hKilled
  simp only [Traced.step, hCode, Traced.collect]
  cases hWatch : T.watched loaded rest act T.sys.self with
  | none =>
    refine ⟨hSound, ?_, h.right⟩
    intro t w' hNew hKilled
    apply hOthers t w' _ hNew hKilled
    rintro rfl
    exact absurd (hWatch.symm.trans hNew) (by simp)
  | some w =>
    have hOwn := h.own hCode hTurn stack hWatch
    rw [← hEq] at hOwn
    by_cases hBack : ((T.sys.runAct loaded stack).threads T.sys.self).code = []
    case pos =>
      simp only [hBack, if_true]
      refine ⟨hSound, ?_, ?_⟩
      · intro t w' hNew hKilled
        have hSelf : t ≠ T.sys.self := by
          rintro rfl
          simp at hNew
        exact hOthers t w' hSelf ((Function.update_of_ne hSelf _ _).symm.trans hNew) hKilled
      · intro r hMem
        rcases List.mem_cons.mp hMem with rfl | hMem
        · by_cases hKilled : w.fate = .killed
          · rw [hKilled]
            exact Return.right_of_killed
          · rcases hOwn hKilled with hTracked | ⟨-, hRight⟩
            · exact absurd hBack hTracked.stage.code_ne_nil
            · exact hRight
        · exact h.right r hMem
    case neg =>
      simp only [hBack, if_false]
      refine ⟨hSound, ?_, h.right⟩
      intro t w' hNew hKilled
      by_cases hSelf : t = T.sys.self
      · subst hSelf
        have hSame : w = w' := Option.some.inj (hWatch.symm.trans hNew)
        subst hSame
        rcases hOwn hKilled with hTracked | ⟨hBack', -⟩
        · exact hTracked
        · exact absurd hBack' hBack
      · exact hOthers t w' hSelf hNew hKilled

theorem Traced.Inv.calls (h : T.Inv) (c : Call) : (T.step (.call c)).Inv := by
  refine ⟨h.sound.step (.call c), ?_, h.right⟩
  intro t w hWatch hKilled
  have hTracked := h.tracked t w hWatch hKilled
  change Tracked (T.sys.step (.call c)) t w
  simp only [System.step]
  split
  case isFalse => exact hTracked
  case isTrue hIdle =>
    have hSelf : t ≠ T.sys.self := by
      rintro rfl
      exact hTracked.stage.code_ne_nil hIdle
    apply hTracked.frame (System.push_threads_of_ne hSelf) rfl (Or.inl rfl) rfl hTracked.alive
    · intro hHalted
      have hOther : some w.slot ≠ T.sys.self := by
        intro hEq
        rw [hEq] at hHalted
        exact absurd (hIdle.symm.trans hHalted) (by simp)
      rwa [System.push_threads_of_ne hOther]
    · intro u hNe act hMem
      rcases System.mem_push_code hMem with hOld | ⟨-, hNew⟩
      · exact hTracked.alone u hNe act hOld
      · cases c <;> simp [Call.code] at hNew <;> rcases hNew with rfl | rfl <;> simp [Act.builds]

theorem Traced.Inv.ticks (h : T.Inv) : (T.step .timer).Inv := by
  refine ⟨h.sound.step .timer, ?_, h.right⟩
  intro t w hWatch hKilled
  have hTracked := h.tracked t w hWatch hKilled
  change Tracked (T.sys.step .timer) t w
  simp only [System.step]
  split
  case isFalse => exact hTracked
  case isTrue =>
    have hUntouched : T.sys.Untouched T.sys.processPreemptFromIrq w.slot :=
      System.untouched_processPreemptFromIrq
    have hThreads := System.processPreemptFromIrq_threads (s := T.sys)
    apply hTracked.frame (congrFun hThreads t) hUntouched.born (Or.inl hUntouched.pid) hUntouched.exitStatus
      (hTracked.alive_of_untouched hUntouched)
    · rw [hThreads]
      exact id
    · rw [hThreads]
      exact hTracked.alone

theorem Traced.Inv.step (h : T.Inv) {event : Event} (hTurn : T.InTurn event) : (T.step event).Inv := by
  cases event with
  | call c => exact h.calls c
  | timer => exact h.ticks
  | run loaded stack =>
    cases hCode : T.sys.code with
    | nil =>
      have hStay : T.step (.run loaded stack) = T := by simp only [Traced.step, hCode]
      rw [hStay]
      exact h
    | cons act rest =>
      apply h.runs hCode
      apply hTurn act
      rw [hCode]
      rfl

theorem Traced.Inv.after {T : Traced} (h : T.Inv) {events : List Event} (hTurn : T.InTurnAlong events) :
    (T.after events).Inv := by
  induction events generalizing T with
  | nil => exact h
  | cons event events ih => exact ih (h.step hTurn.1) hTurn.2

end Steps

/-- In every run in which slots are reused in turn, whatever is created, killed and interrupted, the calls
of `process_exec_args` come back after the end of their processes and with their statuses. -/
theorem exec_returns_own_status (events : List Event) (h : tracedInit.InTurnAlong events) :
    ∀ r ∈ (tracedInit.after events).returns, r.Right :=
  (tracedInit_inv.after h).right

/-! ### A slot that is reused too early -/

section LateLook

def many (n : Nat) : List Event := List.replicate n (.run true 4096)

def shellSlot : Slot := ⟨0, maxProcesses_pos⟩
def childSlot : Slot := ⟨1, one_lt_maxProcesses⟩

def shellProcess (state : ProcState) : Process := ⟨1, state, 4096, true, 0, -1⟩

/-- A process in each of the first two slots; the kernel has called `process_exec_args` for process 2 and
looks at the second slot next. -/
structure Scene where
  shell : ProcState
  child : Process
  current : Option Slot
  nextPid : Int
  irq : Bool
  value : Int
  thread : Thread
  fate : Fate

def Scene.toTraced (c : Scene) (T : Traced) : Traced where
  sys :=
    { procTable := fun i =>
        if i = shellSlot then shellProcess c.shell
        else if i = childSlot then c.child
        else processInit.procTable i
      currentPid := (c.current.map Slot.index).getD (-1)
      currentProcess := c.current
      nextPid := c.nextPid
      preemptTicks := 0
      irq := c.irq
      threads := fun t =>
        if t = none then ⟨[.execWait childSlot], 0⟩
        else if t = some shellSlot then ⟨[], c.value⟩
        else if t = some childSlot then c.thread
        else haltedThread
      born := fun i => if i = shellSlot then 1 else if i = childSlot then c.nextPid - 1 else 0
      creator := T.sys.creator }
  watch := fun t => if t = none then some ⟨2, childSlot, c.fate⟩ else none
  returns := []

def Traced.Agrees (T T' : Traced) : Prop :=
  T.sys.Agrees T'.sys ∧ (∀ t, T.watch t = T'.watch t) ∧ T.returns = T'.returns

instance (T T' : Traced) : Decidable (T.Agrees T') := inferInstanceAs (Decidable (_ ∧ _))

theorem Scene.eq_toTraced {c : Scene} {T : Traced} (h : T.Agrees (c.toTraced T)) : T = c.toTraced T := by
  obtain ⟨hSys, hWatch, hReturns⟩ := h
  obtain ⟨sys, watch, returns⟩ := T
  exact (Traced.mk.injEq ..).mpr ⟨hSys.eq rfl, funext hWatch, hReturns⟩

theorem Traced.after_append (T : Traced) (events events' : List Event) :
    T.after (events ++ events') = (T.after events).after events' :=
  List.foldl_append

theorem Traced.inTurnAlong_append {T : Traced} {events events' : List Event} :
    T.InTurnAlong (events ++ events') ↔ T.InTurnAlong events ∧ (T.after events).InTurnAlong events' := by
  induction events generalizing T with
  | nil => exact ⟨fun h => ⟨trivial, h⟩, fun h => h.2⟩
  | cons event events ih =>
    rw [List.cons_append, Traced.InTurnAlong, ih, ← and_assoc]
    rfl

def waitEvents : List Event := createEvents ++ [.call .execArgs] ++ many 17

def exitEvents (status : Int) : List Event := [.call .yield] ++ many 2 ++ [.call (.exit status)] ++ many 2

def reuseEvents : List Event := List.replicate 20 .timer ++ createEvents

def firstChild (state : ProcState) (status : Int) : Process := ⟨2, state, 4096, true, status, -1⟩
def secondChild (state : ProcState) : Process := ⟨3, state, 4096, true, 0, 0⟩

def firstSweep (i : Nat) : Scene :=
  ⟨.ready, firstChild .running 0, some childSlot, 3, false, 0,
    ⟨[.childState 2 i [], .exitFinish 7], 0⟩, .alive⟩

def secondSweep (i : Nat) : Scene :=
  ⟨.ready, secondChild .running, some childSlot, 4, false, 3,
    ⟨[.childState 3 i [], .exitFinish 9], 0⟩, .exited 7⟩

def waiting : Traced :=
  Scene.toTraced ⟨.running, firstChild .ready 0, some shellSlot, 3, true, 0, freshThread, .alive⟩
    (tracedInit.after waitEvents)

def sweeping : Traced := (firstSweep 0).toTraced (waiting.after (exitEvents 7))
def sweepingOn : Traced := (firstSweep 8).toTraced (sweeping.after (many 10))
def swept : Traced := (firstSweep 16).toTraced (sweepingOn.after (many 8))

def exited : Traced :=
  Scene.toTraced ⟨.ready, firstChild .free 7, none, 3, true, 0, haltedThread, .exited 7⟩ (swept.after (many 3))

def reused : Traced :=
  Scene.toTraced ⟨.running, secondChild .ready, some shellSlot, 4, true, 3, freshThread, .exited 7⟩
    (exited.after reuseEvents)

def sweepingAgain : Traced := (secondSweep 0).toTraced (reused.after (exitEvents 9))
def sweepingAgainOn : Traced := (secondSweep 8).toTraced (sweepingAgain.after (many 10))
def sweptAgain : Traced := (secondSweep 16).toTraced (sweepingAgainOn.after (many 8))

theorem waitEvents_inTurn : tracedInit.InTurnAlong waitEvents ∧ tracedInit.after waitEvents = waiting :=
  ⟨by decide +kernel, Scene.eq_toTraced (by decide +kernel)⟩

/-- `process_exit` from the call on to the switch to the kernel. -/
def fullExit (status : Int) : List Event := exitEvents status ++ (many 10 ++ (many 8 ++ many 3))

theorem waiting_exits : waiting.InTurnAlong (fullExit 7) ∧ waiting.after (fullExit 7) = exited := by
  have hExit : waiting.after (exitEvents 7) = sweeping := Scene.eq_toTraced (by decide +kernel)
  have hSweep : sweeping.after (many 10) = sweepingOn := Scene.eq_toTraced (by decide +kernel)
  have hSweepOn : sweepingOn.after (many 8) = swept := Scene.eq_toTraced (by decide +kernel)
  have hSwept : swept.after (many 3) = exited := Scene.eq_toTraced (by decide +kernel)
  rw [fullExit]
  simp only [Traced.inTurnAlong_append, Traced.after_append, hExit, hSweep, hSweepOn, hSwept, and_true]
  decide +kernel

theorem exited_reused : exited.after reuseEvents = reused := Scene.eq_toTraced (by decide +kernel)

theorem reused_exits : (reused.after (fullExit 9 ++ many 2)).returns = [⟨2, .exited 7, 9⟩] := by
  have hExit : reused.after (exitEvents 9) = sweepingAgain := Scene.eq_toTraced (by decide +kernel)
  have hSweep : sweepingAgain.after (many 10) = sweepingAgainOn := Scene.eq_toTraced (by decide +kernel)
  have hSweepOn : sweepingAgainOn.after (many 8) = sweptAgain := Scene.eq_toTraced (by decide +kernel)
  rw [fullExit]
  simp only [Traced.after_append, hExit, hSweep, hSweepOn]
  decide +kernel

theorem exec_returns_own_status_seven :
    tracedInit.InTurnAlong (waitEvents ++ (fullExit 7 ++ many 2)) ∧
      (tracedInit.after (waitEvents ++ (fullExit 7 ++ many 2))).returns = [⟨2, .exited 7, 7⟩] ∧
      ∀ r ∈ (tracedInit.after (waitEvents ++ (fullExit 7 ++ many 2))).returns, r.Right := by
  have hTurn : tracedInit.InTurnAlong (waitEvents ++ (fullExit 7 ++ many 2)) := by
    rw [Traced.inTurnAlong_append, waitEvents_inTurn.2, Traced.inTurnAlong_append, waiting_exits.2]
    exact ⟨waitEvents_inTurn.1, waiting_exits.1, by decide +kernel⟩
  refine ⟨hTurn, ?_, exec_returns_own_status _ hTurn⟩
  rw [Traced.after_append, waitEvents_inTurn.2, Traced.after_append, waiting_exits.2]
  decide +kernel

/-- The shell creates a third process before the kernel looks; this one exits with 9, and the call for the
second process returns that. -/
theorem exec_returns_other_status :
    (tracedInit.after (waitEvents ++ (fullExit 7 ++ (reuseEvents ++ (fullExit 9 ++ many 2))))).returns =
        [⟨2, .exited 7, 9⟩] ∧
      ¬∀ r ∈ (tracedInit.after
        (waitEvents ++ (fullExit 7 ++ (reuseEvents ++ (fullExit 9 ++ many 2))))).returns, r.Right := by
  have hReturns : (tracedInit.after
      (waitEvents ++ (fullExit 7 ++ (reuseEvents ++ (fullExit 9 ++ many 2))))).returns =
        [⟨2, .exited 7, 9⟩] := by
    rw [Traced.after_append, waitEvents_inTurn.2, Traced.after_append, waiting_exits.2, Traced.after_append,
      exited_reused]
    exact reused_exits
  refine ⟨hReturns, ?_⟩
  rw [hReturns]
  intro hRight
  exact absurd ((hRight _ List.mem_cons_self).2 7 rfl) (by decide)

end LateLook

end UnixOS.Proc
