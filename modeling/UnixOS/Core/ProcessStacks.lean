import UnixOS.Core.ProcessFrame
import UnixOS.Lib.Ownership

/-! # The stacks of processes

`process_create` allocates a stack and records it in the slot; a kill frees what is recorded; an exit cannot
free the stack it runs on and leaves it recorded, to be freed when the slot is reused, which nobody does. A
run is watched with the heap: which stacks are allocated, for which process, and which have been freed.
-/

namespace UnixOS.Proc

structure Stacked where
  sys : System
  live : List Nat
  /-- The process a stack was allocated for. -/
  owner : Nat → Int
  /-- The processes whose stack has been freed. -/
  freed : List Int
  /-- How often `free` was called for something that is not allocated. -/
  wrongFrees : Nat

def stackedInit : Stacked := ⟨processInit, [], fun _ => 0, [], 0⟩

namespace Stacked

variable (H : Stacked)

/-- `malloc` returned `stack` to the process that a slot is reserved for. -/
def alloc (slot : Slot) (stack : Nat) : Stacked :=
  if stack = 0 then H
  else
    { H with
      live := stack :: H.live
      owner := Function.update H.owner stack (H.sys.born slot) }

def free (stack : Nat) : Stacked :=
  if stack = 0 then H
  else if stack ∈ H.live then
    { H with live := H.live.erase stack, freed := H.owner stack :: H.freed }
  else { H with wrongFrees := H.wrongFrees + 1 }

def account (stack : Nat) : Act → Stacked
  | .allocStack slot => H.alloc slot stack
  | .stackClear slot => H.free (H.sys.procTable slot).stackBase
  | _ => H

def step : Event → Stacked
  | .run loaded stack =>
    match H.sys.code with
    | [] => H
    | act :: _ => { H.account stack act with sys := H.sys.runAct loaded stack }
  | event => { H with sys := H.sys.step event }

def after (events : List Event) : Stacked := events.foldl step H

/-- The slots that are not FREE, and the FREE ones with a stack that is still recorded. -/
def slotsWithStack : Nat :=
  (List.finRange maxProcesses).countP (fun i => (H.sys.procTable i).state ≠ .free) +
    (List.finRange maxProcesses).countP fun i =>
      (H.sys.procTable i).state = .free && (H.sys.procTable i).stackBase ≠ 0

/-- No stack is freed twice, no process runs after its stack was freed, and no stack is forgotten. -/
structure Sane : Prop where
  once : H.wrongFrees = 0
  standing : ∀ i, H.sys.currentProcess = some i → H.sys.born i ∉ H.freed
  bounded : H.live.length ≤ H.slotsWithStack

end Stacked

def Act.isOpen : Act → Bool
  | .load _ | .setParent _ | .setExit _ | .allocStack _ | .checkStack _ | .setContext _ | .setReady _
  | .releaseState _ | .releasePid _ | .releaseStack _ | .releaseExit _ | .releaseParent _
  | .releaseContext _ | .startCheck _ | .startReady _
  | .popParent _ | .childState _ _ _ | .childParent _ _ _ | .childPid _ _ _
  | .stackCheck _ | .stackClear _ | .freeState _ | .freePid _ => true
  | _ => false

def Calm (code : List Act) : Prop := ∀ act ∈ code, act.isOpen = false

namespace Stacked

variable (H : Stacked)

def Fresh : Event → Prop
  | .run _ stack => ∀ slot, H.sys.code.head? = some (.allocStack slot) → stack ∉ H.live
  | _ => True

/-- A slot is reserved only without a stack in it, and the timer takes the processor from no thread that is
at work on a slot. -/
def InTurn : Event → Prop
  | .run _ _ => H.sys.code.head? = some .reserve →
    ∀ slot ∈ H.sys.findFreeSlotUnlocked, (H.sys.procTable slot).stackBase = 0
  | .timer => (H.sys.step .timer).self = H.sys.self ∨ Calm H.sys.code
  | .call _ => True

def InTurnAlong (H : Stacked) : List Event → Prop
  | [] => True
  | event :: events => (H.Fresh event ∧ H.InTurn event) ∧ (H.step event).InTurnAlong events

end Stacked

instance decidableCalm (code : List Act) : Decidable (Calm code) := inferInstanceAs (Decidable (∀ act ∈ code, _))

instance Stacked.decidableFresh (H : Stacked) : (event : Event) → Decidable (H.Fresh event)
  | .run _ _ => inferInstanceAs (Decidable (∀ _, _))
  | .timer => inferInstanceAs (Decidable True)
  | .call _ => inferInstanceAs (Decidable True)

instance Stacked.decidableInTurn (H : Stacked) : (event : Event) → Decidable (H.InTurn event)
  | .run _ _ => inferInstanceAs (Decidable (_ → _))
  | .timer => inferInstanceAs (Decidable (_ ∨ _))
  | .call _ => inferInstanceAs (Decidable True)

instance Stacked.decidableInTurnAlong (H : Stacked) : (events : List Event) → Decidable (H.InTurnAlong events)
  | [] => inferInstanceAs (Decidable True)
  | event :: events =>
    have := Stacked.decidableInTurnAlong (H.step event) events
    inferInstanceAs (Decidable (_ ∧ _))

/-! ### The invariant -/

inductive KillCode : List Act → Prop
  | done {rest : List Act} (hRest : Calm rest) : KillCode rest
  | popParent {stack : List Int} {rest : List Act} (hRest : KillCode rest) : KillCode (.popParent stack :: rest)
  | childState {parent : Int} {i : Nat} {stack : List Int} {rest : List Act} (hRest : KillCode rest) :
      KillCode (.childState parent i stack :: rest)
  | childParent {parent : Int} {slot : Slot} {stack : List Int} {rest : List Act} (hRest : KillCode rest) :
      KillCode (.childParent parent slot stack :: rest)
  | childPid {parent : Int} {slot : Slot} {stack : List Int} {rest : List Act} (hRest : KillCode rest) :
      KillCode (.childPid parent slot stack :: rest)
  | stackCheck {slot : Slot} {rest : List Act} (hRest : KillCode rest) :
      KillCode (.stackCheck slot :: .freeState slot :: rest)
  | stackClear {slot : Slot} {rest : List Act} (hRest : KillCode rest) :
      KillCode (.stackClear slot :: .freeState slot :: rest)
  | freeState {slot : Slot} {rest : List Act} (hRest : KillCode rest) : KillCode (.freeState slot :: rest)
  | freePid {slot : Slot} {rest : List Act} (hRest : KillCode rest) : KillCode (.freePid slot :: rest)

/-- What the running thread may be at, and what it relies on of the slot it works on. -/
inductive Phase (s : System) : List Act → Prop
  | build {act : Act} {slot : Slot} {rest : List Act}
      (hAct : act = .load slot ∨ act = .setParent slot ∨ act = .setExit slot ∨ act = .allocStack slot)
      (hLive : (s.procTable slot).state ≠ .free) (hStack : (s.procTable slot).stackBase = 0)
      (hRest : Calm rest) : Phase s (act :: rest)
  | ready {act : Act} {slot : Slot} {rest : List Act}
      (hAct : act = .checkStack slot ∨ act = .setContext slot ∨ act = .setReady slot)
      (hLive : (s.procTable slot).state ≠ .free) (hRest : Calm rest) : Phase s (act :: rest)
  | release {slot : Slot} {acts rest : List Act}
      (hActs : ∀ act ∈ acts, act ∈ releaseReservedSlotUnlocked slot)
      (hStack : (s.procTable slot).stackBase = 0) (hRest : Calm rest) : Phase s (acts ++ rest)
  | start {act : Act} {slot : Slot} {rest : List Act} (hAct : act = .startCheck slot ∨ act = .startReady slot)
      (hLive : (s.procTable slot).state ≠ .free) (hRest : Calm rest) : Phase s (act :: rest)
  | kill {code : List Act} (hCode : KillCode code) : Phase s code

def Records (s : System) (i : Slot) (stack : Nat) : Prop := stack ≠ 0 ∧ (s.procTable i).stackBase = stack

structure Stacked.Inv (H : Stacked) : Prop where
  sound : H.sys.Sound
  others : ∀ t, t ≠ H.sys.self → Calm (H.sys.threads t).code
  phase : Phase H.sys H.sys.code
  owned : Ownership.Exclusive (Records H.sys) (· ∈ H.live)
  owner : ∀ i stack, Records H.sys i stack → H.owner stack = H.sys.born i
  recorded : ∀ stack ∈ H.live, ∃ i, Records H.sys i stack
  nodup : H.live.Nodup
  born_lt : ∀ i, H.sys.born i < H.sys.nextPid
  born_inj : ∀ i j, H.sys.born i = H.sys.born j → H.sys.born i ≠ 0 → i = j
  born_live : ∀ i, (H.sys.procTable i).state ≠ .free → H.sys.born i ≠ 0
  freed_lt : ∀ pid ∈ H.freed, pid < H.sys.nextPid
  alive : ∀ i, (H.sys.procTable i).state ≠ .free →
    H.sys.born i ∉ H.freed ∨ H.sys.code.head? = some (.freeState i)
  once : H.wrongFrees = 0

theorem stackedInit_inv : stackedInit.Inv where
  sound := System.sound_processInit
  others := by
    intro t hSelf act hMem
    simp only [stackedInit, processInit] at hMem
    split at hMem
    · simp [freshThread] at hMem
    · simp only [haltedThread, List.mem_singleton] at hMem
      subst hMem
      rfl
  phase := .kill (.done fun _ hMem => (by cases hMem))
  owned := by
    constructor
    · rintro i j stack ⟨hNe, hEq⟩ -
      exact absurd hEq.symm hNe
    · rintro i stack ⟨hNe, hEq⟩
      exact absurd hEq.symm hNe
  owner := by
    rintro i stack ⟨hNe, hEq⟩
    exact absurd hEq.symm hNe
  recorded := by
    intro stack hMem
    cases hMem
  nodup := List.nodup_nil
  born_lt := fun _ => Int.one_pos
  born_inj := fun _ _ _ hNe => absurd rfl hNe
  born_live := fun _ hLive => absurd rfl hLive
  freed_lt := by
    intro pid hMem
    cases hMem
  alive := fun _ hLive => absurd rfl hLive
  once := rfl

section Steps

variable {H : Stacked} {act : Act} {rest : List Act}

theorem Calm.cons (hAct : act.isOpen = false) (h : Calm rest) : Calm (act :: rest) :=
  List.forall_mem_cons.mpr ⟨hAct, h⟩

theorem Phase.of_calm {s : System} (h : Calm rest) : Phase s rest := .kill (.done h)

theorem Stacked.Inv.update (h : H.Inv) {s : System} (hSound : s.Sound)
    (hOthers : ∀ t, t ≠ s.self → Calm (s.threads t).code) (hPhase : Phase s s.code)
    (hStack : ∀ i, (s.procTable i).stackBase = (H.sys.procTable i).stackBase)
    (hBorn : ∀ i, s.born i = H.sys.born i) (hNext : s.nextPid = H.sys.nextPid)
    (hState : ∀ i, (s.procTable i).state ≠ .free →
      (H.sys.procTable i).state ≠ .free ∧ H.sys.code.head? ≠ some (.freeState i)) :
    { H with sys := s }.Inv where
  sound := hSound
  others := hOthers
  phase := hPhase
  owned := by
    apply h.owned.mono _ fun _ hLive => hLive
    rintro i stack ⟨hNe, hEq⟩
    exact ⟨hNe, (hStack i).symm.trans hEq⟩
  owner := by
    rintro i stack ⟨hNe, hEq⟩
    rw [hBorn]
    exact h.owner i stack ⟨hNe, (hStack i).symm.trans hEq⟩
  recorded := by
    intro stack hMem
    obtain ⟨i, hNe, hEq⟩ := h.recorded stack hMem
    exact ⟨i, hNe, (hStack i).trans hEq⟩
  nodup := h.nodup
  born_lt := by
    intro i
    rw [hBorn, hNext]
    exact h.born_lt i
  born_inj := by
    intro i j
    rw [hBorn, hBorn]
    exact h.born_inj i j
  born_live := by
    intro i hLive
    rw [hBorn]
    exact h.born_live i (hState i hLive).1
  freed_lt := by
    intro pid hMem
    rw [hNext]
    exact h.freed_lt pid hMem
  alive := by
    intro i hLive
    obtain ⟨hOld, hHead⟩ := hState i hLive
    rw [hBorn]
    exact Or.inl ((h.alive i hOld).resolve_right hHead)
  once := h.once

theorem Stacked.Inv.others_execute (h : H.Inv) (act : Act) (rest : List Act) (loaded : Bool) (stack : Nat) :
    ∀ t, t ≠ H.sys.self → Calm (((H.sys.setCode rest).execute loaded stack act).threads t).code := by
  intro t hSelf act' hMem
  rcases System.mem_code_execute_of_ne (by exact hSelf) hMem with hOld | rfl
  · rw [System.setCode_threads_of_ne hSelf] at hOld
    exact h.others t hSelf act' hOld
  · rfl

theorem Stacked.Inv.keep (h : H.Inv) (hCode : H.sys.code = act :: rest) (loaded : Bool) (stack : Nat)
    {s' : System} (hExec : (H.sys.setCode rest).execute loaded stack act = s')
    (hSelf : s'.self = H.sys.self) (hPhase : Phase s' s'.code)
    (hStack : ∀ i, (s'.procTable i).stackBase = (H.sys.procTable i).stackBase)
    (hBorn : ∀ i, s'.born i = H.sys.born i) (hNext : s'.nextPid = H.sys.nextPid)
    (hState : ∀ i, (s'.procTable i).state ≠ .free → (H.sys.procTable i).state ≠ .free ∧ act ≠ .freeState i) :
    { H with sys := s' }.Inv := by
  subst hExec
  have hSound := h.sound.runAct loaded stack
  rw [System.runAct_eq hCode] at hSound
  apply h.update hSound _ hPhase hStack hBorn hNext
  · intro i hLive
    obtain ⟨hOld, hAct⟩ := hState i hLive
    rw [hCode]
    exact ⟨hOld, fun hEq => hAct (Option.some.inj hEq)⟩
  · rw [hSelf]
    exact h.others_execute act rest loaded stack

theorem Stacked.Inv.reads (h : H.Inv) (hCode : H.sys.code = act :: rest) (loaded : Bool) (stack : Nat)
    {s' : System} (hExec : (H.sys.setCode rest).execute loaded stack act = s')
    (hAct : ∀ i, act ≠ .freeState i) (hSelf : s'.self = H.sys.self) (hTable : s'.procTable = H.sys.procTable)
    (hBorn : s'.born = H.sys.born) (hNext : s'.nextPid = H.sys.nextPid) (hPhase : Phase s' s'.code) :
    { H with sys := s' }.Inv := by
  apply h.keep hCode loaded stack hExec hSelf hPhase
  · intro i
    rw [hTable]
  · intro i
    rw [hBorn]
  · exact hNext
  · intro i hLive
    rw [hTable] at hLive
    exact ⟨hLive, hAct i⟩

theorem Phase.of_table {s s' : System} {code : List Act} (h : Phase s code)
    (hTable : s'.procTable = s.procTable) : Phase s' code := by
  cases h with
  | build hAct hLive hStack hRest => exact .build hAct (by rwa [hTable]) (by rwa [hTable]) hRest
  | ready hAct hLive hRest => exact .ready hAct (by rwa [hTable]) hRest
  | release hActs hStack hRest => exact .release hActs (by rwa [hTable]) hRest
  | start hAct hLive hRest => exact .start hAct (by rwa [hTable]) hRest
  | kill hCode => exact .kill hCode

inductive GoesOn (s : System) (rest : List Act) : System → List Act → Prop
  | push {acts : List Act} : GoesOn s rest ((s.setCode rest).push acts) (acts ++ rest)
  | value {v : Int} : GoesOn s rest ((s.setCode rest).setValue v) rest
  | same : GoesOn s rest (s.setCode rest) rest

theorem Stacked.Inv.goesOn (h : H.Inv) (hCode : H.sys.code = act :: rest) (loaded : Bool) (stack : Nat)
    {s' : System} (hExec : (H.sys.setCode rest).execute loaded stack act = s') (hAct : ∀ i, act ≠ .freeState i)
    {code : List Act} (hGoes : GoesOn H.sys rest s' code) (hPhase : Phase H.sys code) : { H with sys := s' }.Inv := by
  apply h.reads hCode loaded stack hExec hAct
  all_goals
    clear hExec
    cases hGoes
  case hPhase.push acts =>
    rw [System.push_code, System.setCode_code]
    exact hPhase.of_table rfl
  case hPhase.value v =>
    rw [System.setValue_code, System.setCode_code]
    exact hPhase.of_table rfl
  case hPhase.same =>
    rw [System.setCode_code]
    exact hPhase.of_table rfl
  all_goals rfl

theorem Stacked.Inv.stores (h : H.Inv) (hCode : H.sys.code = act :: rest) (loaded : Bool) (stack : Nat)
    {s' : System} (hExec : (H.sys.setCode rest).execute loaded stack act = s')
    {slot : Slot} {p : Process} (hAct : ∀ i, act = .freeState i → i = slot ∧ p.state = .free)
    (hSelf : s'.self = H.sys.self) (hTable : s'.procTable = Function.update H.sys.procTable slot p)
    (hStack : p.stackBase = (H.sys.procTable slot).stackBase)
    (hLive : p.state ≠ .free → (H.sys.procTable slot).state ≠ .free)
    (hBorn : s'.born = H.sys.born) (hNext : s'.nextPid = H.sys.nextPid) (hPhase : Phase s' s'.code) :
    { H with sys := s' }.Inv := by
  apply h.keep hCode loaded stack hExec hSelf hPhase
  · intro i
    rw [hTable]
    by_cases hEq : i = slot
    · subst hEq
      rw [Function.update_self, hStack]
    · rw [Function.update_of_ne hEq]
  · intro i
    rw [hBorn]
  · exact hNext
  · intro i hNew
    rw [hTable] at hNew
    by_cases hEq : i = slot
    · subst hEq
      rw [Function.update_self] at hNew
      exact ⟨hLive hNew, fun hFree => hNew (hAct i hFree).2⟩
    · rw [Function.update_of_ne hEq] at hNew
      exact ⟨hNew, fun hFree => hEq (hAct i hFree).1⟩

theorem Stacked.Inv.builds (h : H.Inv) (hCode : H.sys.code = act :: rest) (loaded : Bool) (stack : Nat)
    {slot : Slot} (hAct : act = .load slot ∨ act = .setParent slot ∨ act = .setExit slot)
    (hLive : (H.sys.procTable slot).state ≠ .free) (hStack : (H.sys.procTable slot).stackBase = 0)
    (hRest : Calm rest) : { H with sys := (H.sys.setCode rest).execute loaded stack act }.Inv := by
  rcases hAct with rfl | rfl | rfl
  · apply h.reads hCode loaded stack rfl (by simp) rfl rfl rfl rfl
    simp only [System.execute, System.push_code, System.setCode_code]
    split
    · exact .build (Or.inr (Or.inl rfl)) hLive hStack hRest
    · exact .release (fun _ hMem => hMem) hStack hRest
  · apply h.stores hCode loaded stack rfl (by simp) rfl rfl rfl (fun _ => hLive) rfl rfl
    simp only [System.execute, System.push_code, System.modify_code, System.setCode_code]
    exact .build (Or.inr (Or.inr (Or.inl rfl))) (by simpa [System.modify_procTable] using hLive)
      (by simpa [System.modify_procTable] using hStack) hRest
  · apply h.stores hCode loaded stack rfl (by simp) rfl rfl rfl (fun _ => hLive) rfl rfl
    simp only [System.execute, System.push_code, System.modify_code, System.setCode_code]
    exact .build (Or.inr (Or.inr (Or.inr rfl))) (by simpa [System.modify_procTable] using hLive)
      (by simpa [System.modify_procTable] using hStack) hRest

theorem Stacked.Inv.readies (h : H.Inv) (hCode : H.sys.code = act :: rest) (loaded : Bool) (stack : Nat)
    {slot : Slot} (hAct : act = .checkStack slot ∨ act = .setContext slot ∨ act = .setReady slot)
    (hLive : (H.sys.procTable slot).state ≠ .free) (hRest : Calm rest) :
    { H with sys := (H.sys.setCode rest).execute loaded stack act }.Inv := by
  have hOther : H.sys.self ≠ some slot := by
    have hMem : act ∈ H.sys.code := hCode ▸ List.mem_cons_self
    apply h.sound.target_ne _ act slot hMem
    rcases hAct with rfl | rfl | rfl <;> rfl
  rcases hAct with rfl | rfl | rfl
  · apply h.reads hCode loaded stack rfl (by simp) rfl rfl rfl rfl
    simp only [System.execute, System.push_code, System.setCode_code]
    split
    case isTrue hStack => exact .release (fun _ hMem => hMem) hStack hRest
    case isFalse => exact .ready (Or.inr (Or.inl rfl)) hLive hRest
  · apply h.stores hCode loaded stack rfl (by simp) rfl rfl rfl (fun _ => hLive) rfl rfl
    simp only [System.execute, System.push_code]
    rw [System.setThread_code_of_ne (by exact hOther), System.modify_code, System.setCode_code]
    exact .ready (Or.inr (Or.inr rfl)) (by simpa [System.modify_procTable] using hLive) hRest
  · apply h.stores hCode loaded stack rfl (by simp) rfl rfl rfl (fun _ => hLive) rfl rfl
    simp only [System.execute, System.push_code, System.setState_code, System.setCode_code]
    exact .of_calm (hRest.cons rfl)

theorem Stacked.Inv.releases (h : H.Inv) {acts : List Act} (hCode : H.sys.code = act :: (acts ++ rest))
    (loaded : Bool) (stack : Nat) {slot : Slot}
    (hAct : ∀ act' ∈ act :: acts, act' ∈ releaseReservedSlotUnlocked slot)
    (hStack : (H.sys.procTable slot).stackBase = 0) (hRest : Calm rest) :
    { H with sys := (H.sys.setCode (acts ++ rest)).execute loaded stack act }.Inv := by
  have hActs : ∀ act' ∈ acts, act' ∈ releaseReservedSlotUnlocked slot := fun act' hMem =>
    hAct act' (List.mem_cons_of_mem act hMem)
  have hOther : act ≠ .ret (-1) → H.sys.self ≠ some slot := by
    intro hNe
    have hMem : act ∈ H.sys.code := hCode ▸ List.mem_cons_self
    apply h.sound.target_ne _ act slot hMem
    have hIn := hAct act List.mem_cons_self
    simp only [releaseReservedSlotUnlocked, List.mem_cons, List.not_mem_nil, or_false] at hIn
    rcases hIn with rfl | rfl | rfl | rfl | rfl | rfl | rfl <;> first | rfl | exact absurd rfl hNe
  have hIn := hAct act List.mem_cons_self
  simp only [releaseReservedSlotUnlocked, List.mem_cons, List.not_mem_nil, or_false] at hIn
  rcases hIn with rfl | rfl | rfl | rfl | rfl | rfl | rfl
  case inr.inr.inr.inr.inr.inr =>
    apply h.reads hCode loaded stack rfl (by simp) rfl rfl rfl rfl
    simp only [System.execute, System.setValue_code, System.setCode_code]
    exact .release hActs hStack hRest
  case inr.inr.inr.inr.inr.inl =>
    apply h.stores hCode loaded stack rfl (by simp) rfl rfl rfl id rfl rfl
    simp only [System.execute]
    rw [System.setThread_code_of_ne (by exact hOther (by simp)), System.modify_code, System.setCode_code]
    exact .release hActs (by simpa [System.modify_procTable] using hStack) hRest
  case inr.inr.inl =>
    apply h.stores hCode loaded stack rfl (by simp) rfl rfl hStack.symm id rfl rfl
    simp only [System.execute, System.modify_code, System.setCode_code]
    exact .release hActs (by simp [System.modify_procTable]) hRest
  case inl =>
    apply h.stores hCode loaded stack rfl (by simp) rfl rfl rfl (fun hNe => absurd rfl hNe) rfl rfl
    simp only [System.execute, System.setState_code, System.setCode_code]
    exact .release hActs (by simpa [System.setState, System.modify_procTable] using hStack) hRest
  all_goals
    apply h.stores hCode loaded stack rfl (by simp) rfl rfl rfl id rfl rfl
    simp only [System.execute, System.modify_code, System.setCode_code]
    exact .release hActs (by simpa [System.modify_procTable] using hStack) hRest

theorem Stacked.Inv.starts (h : H.Inv) (hCode : H.sys.code = act :: rest) (loaded : Bool) (stack : Nat)
    {slot : Slot} (hAct : act = .startCheck slot ∨ act = .startReady slot)
    (hLive : (H.sys.procTable slot).state ≠ .free) (hRest : Calm rest) :
    { H with sys := (H.sys.setCode rest).execute loaded stack act }.Inv := by
  rcases hAct with rfl | rfl
  · have hExecute : (H.sys.setCode rest).execute loaded stack (.startCheck slot) =
        (H.sys.setCode rest).push [.startReady slot] := by
      simp only [System.execute, System.setCode_procTable, hLive, if_false]
    apply h.reads hCode loaded stack rfl (by simp)
    all_goals rw [hExecute]
    · rfl
    · rfl
    · rfl
    · rfl
    · rw [System.push_code, System.setCode_code]
      exact .start (Or.inr rfl) hLive hRest
  · apply h.stores hCode loaded stack rfl (by simp) rfl rfl rfl (fun _ => hLive) rfl rfl
    simp only [System.execute, System.setValue_code, System.setState_code, System.setCode_code]
    exact .of_calm hRest

theorem Stacked.Inv.sweeps (h : H.Inv) (hCode : H.sys.code = act :: rest) (loaded : Bool) (stack : Nat)
    (hAct : (∃ pids, act = .popParent pids) ∨ (∃ parent i pids, act = .childState parent i pids) ∨
      (∃ parent slot pids, act = .childParent parent slot pids) ∨
        ∃ parent slot pids, act = .childPid parent slot pids)
    (hRest : KillCode rest) : { H with sys := (H.sys.setCode rest).execute loaded stack act }.Inv := by
  have hGoes : ∃ code, KillCode code ∧
      GoesOn H.sys rest ((H.sys.setCode rest).execute loaded stack act) code := by
    rcases hAct with
      ⟨pids, rfl⟩ | ⟨parent, i, pids, rfl⟩ | ⟨parent, slot, pids, rfl⟩ | ⟨parent, slot, pids, rfl⟩
    · cases pids with
      | nil => exact ⟨rest, hRest, .same⟩
      | cons parent pids => exact ⟨_, .childState hRest, .push⟩
    · simp only [System.execute]
      split
      · split
        · exact ⟨_, .childParent hRest, .push⟩
        · exact ⟨_, .childState hRest, .push⟩
      · exact ⟨_, .popParent hRest, .push⟩
    · simp only [System.execute]
      split
      · exact ⟨_, .childPid hRest, .push⟩
      · exact ⟨_, .childState hRest, .push⟩
    · refine ⟨_, ?_, .push⟩
      split
      · exact .stackCheck (.freePid (.childState hRest))
      · exact .childState hRest
  obtain ⟨code, hKill, hGoes⟩ := hGoes
  apply h.goesOn hCode loaded stack rfl _ hGoes (.kill hKill)
  rcases hAct with
    ⟨pids, rfl⟩ | ⟨parent, i, pids, rfl⟩ | ⟨parent, slot, pids, rfl⟩ | ⟨parent, slot, pids, rfl⟩ <;> simp

theorem Stacked.Inv.kills (h : H.Inv) (hCode : H.sys.code = act :: rest) (loaded : Bool) (stack : Nat)
    {slot : Slot} (hAct : act = .freeState slot ∨ act = .freePid slot) (hRest : KillCode rest) :
    { H with sys := (H.sys.setCode rest).execute loaded stack act }.Inv := by
  rcases hAct with rfl | rfl
  · have hTable : ((H.sys.setCode rest).execute loaded stack (.freeState slot)).procTable =
        Function.update H.sys.procTable slot { H.sys.procTable slot with state := .free } := rfl
    apply h.stores hCode loaded stack rfl _ rfl hTable rfl (fun hNe => absurd rfl hNe) rfl rfl
    · simp only [System.execute, System.setState_code, System.setCode_code]
      exact .kill hRest
    · intro i hEq
      cases hEq
      exact ⟨rfl, rfl⟩
  · apply h.stores hCode loaded stack rfl (by simp) rfl rfl rfl id rfl rfl
    simp only [System.execute, System.modify_code, System.setCode_code]
    exact .kill hRest

theorem Stacked.Inv.checksStack (h : H.Inv) {slot : Slot}
    (hCode : H.sys.code = .stackCheck slot :: .freeState slot :: rest) (loaded : Bool) (stack : Nat)
    (hRest : KillCode rest) :
    { H with sys := (H.sys.setCode (.freeState slot :: rest)).execute loaded stack (.stackCheck slot) }.Inv := by
  have hGoes : ∃ code, KillCode code ∧ GoesOn H.sys (.freeState slot :: rest)
      ((H.sys.setCode (.freeState slot :: rest)).execute loaded stack (.stackCheck slot)) code := by
    simp only [System.execute]
    split
    · exact ⟨_, .stackClear hRest, .push⟩
    · exact ⟨_, .freeState hRest, .same⟩
  obtain ⟨code, hKill, hGoes⟩ := hGoes
  exact h.goesOn hCode loaded stack rfl (by simp) hGoes (.kill hKill)

theorem Stacked.Inv.idles (h : H.Inv) (hCode : H.sys.code = act :: rest) (loaded : Bool) (stack : Nat)
    (hIdle : act.isOpen = false) (hRest : Calm rest) (hReserve : act ≠ .reserve) (hSchedule : act ≠ .schedule)
    (hYield : act ≠ .yieldReady) (hBegin : ∀ status, act ≠ .exitBegin status)
    (hFinish : ∀ status, act ≠ .exitFinish status) :
    { H with sys := (H.sys.setCode rest).execute loaded stack act }.Inv := by
  have hGoes : ∃ code, Phase H.sys code ∧
      GoesOn H.sys rest ((H.sys.setCode rest).execute loaded stack act) code := by
    cases act with
    | startGet pid =>
      simp only [System.execute]
      split
      · exact ⟨_, .of_calm hRest, .value⟩
      · next slot hFind =>
        exact ⟨_, .start (Or.inl rfl) (System.live_of_processGet hFind) hRest, .push⟩
    | killCheck pid slot =>
      simp only [System.execute]
      split
      · exact ⟨_, .of_calm hRest, .value⟩
      · exact ⟨_, .kill (.popParent (.stackCheck (.freePid (.done (hRest.cons rfl))))), .push⟩
    | reserve => exact absurd rfl hReserve
    | schedule => exact absurd rfl hSchedule
    | yieldReady => exact absurd rfl hYield
    | exitBegin status => exact absurd rfl (hBegin status)
    | exitFinish status => exact absurd rfl (hFinish status)
    | readPid _ | execCreated | execFind _ _ | execWait _ | execResult _ | killEnter _ | killFindPid _ _
    | killFindState _ _ | ret _ | halted =>
      simp only [System.execute]
      (repeat' split) <;>
        first
          | exact ⟨_, .of_calm hRest, .value⟩
          | exact ⟨_, .of_calm hRest, .same⟩
          | exact ⟨_, .of_calm (hRest.cons rfl), .push⟩
          | exact ⟨_, .of_calm ((hRest.cons rfl).cons rfl), .push⟩
    | _ => exact absurd hIdle (by simp [Act.isOpen])
  obtain ⟨code, hPhase, hGoes⟩ := hGoes
  refine h.goesOn hCode loaded stack rfl ?_ hGoes hPhase
  rintro i rfl
  cases hIdle

theorem Stacked.Inv.begins (h : H.Inv) {status : Int} (hCode : H.sys.code = .exitBegin status :: rest)
    (loaded : Bool) (stack : Nat) (hRest : Calm rest) :
    { H with sys := (H.sys.setCode rest).execute loaded stack (.exitBegin status) }.Inv := by
  cases hSelf : H.sys.self with
  | none =>
    have hExecute : (H.sys.setCode rest).execute loaded stack (.exitBegin status) = H.sys.setCode rest := by
      simp only [System.execute, System.setCode_self, hSelf]
    apply h.goesOn hCode loaded stack rfl (by simp) _ (.of_calm hRest)
    rw [hExecute]
    exact .same
  | some slot =>
    have hExecute : (H.sys.setCode rest).execute loaded stack (.exitBegin status) =
        { H.sys.setCode rest with irq := false }.push
          [.popParent [(H.sys.procTable slot).pid], .exitFinish status] := by
      simp only [System.execute, System.setCode_self, hSelf]
      rfl
    apply h.reads hCode loaded stack rfl (by simp)
    all_goals rw [hExecute]
    case hPhase =>
      rw [System.push_code]
      change Phase _ ([_, _] ++ (H.sys.setCode rest).code)
      rw [System.setCode_code]
      exact .kill (.popParent (.done (hRest.cons rfl)))
    all_goals rfl

theorem Stacked.Inv.yields (h : H.Inv) (hCode : H.sys.code = .yieldReady :: rest) (loaded : Bool)
    (stack : Nat) (hRest : Calm rest) :
    { H with sys := (H.sys.setCode rest).execute loaded stack .yieldReady }.Inv := by
  cases hSelf : H.sys.self with
  | none =>
    have hExecute : (H.sys.setCode rest).execute loaded stack .yieldReady = H.sys.setCode rest := by
      simp only [System.execute, System.setCode_self, hSelf]
    apply h.goesOn hCode loaded stack rfl (by simp) _ (.of_calm hRest)
    rw [hExecute]
    exact .same
  | some slot =>
    have hExecute : (H.sys.setCode rest).execute loaded stack .yieldReady =
        (H.sys.setCode rest).setState slot .ready := by
      simp only [System.execute, System.setCode_self, hSelf]
    have hTable : ((H.sys.setCode rest).execute loaded stack .yieldReady).procTable =
        Function.update H.sys.procTable slot { H.sys.procTable slot with state := .ready } := by
      rw [hExecute]
      rfl
    apply h.stores hCode loaded stack rfl (by simp) _ hTable rfl
    · intro _
      apply h.sound.seated
      rw [← h.sound.self_eq, hSelf]
    all_goals rw [hExecute]
    · rfl
    · rfl
    · rw [System.setState_code, System.setCode_code]
      exact .of_calm hRest
    · rfl

theorem Stacked.Inv.switches (h : H.Inv) {s : System} (hSound : s.Sound)
    (hHead : ∀ i, H.sys.code.head? ≠ some (.freeState i)) (hCalm : ∀ t, Calm (s.threads t).code)
    (hUntouched : ∀ i, H.sys.Untouched s i) (hNext : s.nextPid = H.sys.nextPid) :
    { H with sys := s }.Inv := by
  apply h.update hSound (fun t _ => hCalm t) (.of_calm (hCalm _))
  · intro i
    exact (hUntouched i).stackBase
  · intro i
    exact (hUntouched i).born
  · exact hNext
  · intro i hLive
    exact ⟨fun hFree => hLive ((hUntouched i).free_iff.mpr hFree), hHead i⟩

theorem Stacked.Inv.calm_setCode (h : H.Inv) (hRest : Calm rest) (t : Option Slot) :
    Calm ((H.sys.setCode rest).threads t).code := by
  by_cases hSelf : t = H.sys.self
  · rw [hSelf, System.setCode_threads_self]
    exact hRest
  · rw [System.setCode_threads_of_ne hSelf]
    exact h.others t hSelf

theorem Stacked.Inv.schedules (h : H.Inv) (hCode : H.sys.code = .schedule :: rest) (loaded : Bool)
    (stack : Nat) (hRest : Calm rest) :
    { H with sys := (H.sys.setCode rest).execute loaded stack .schedule }.Inv := by
  have hSound := h.sound.runAct loaded stack
  rw [System.runAct_eq hCode] at hSound
  apply h.switches hSound
  · simp [hCode]
  · intro t
    simp only [System.execute, System.processSchedule_threads]
    exact h.calm_setCode hRest t
  · intro i
    exact h.sound.untouched_runAct hCode loaded stack (by simp [System.storesTo])
  · exact System.processSchedule_nextPid

theorem Stacked.Inv.exits (h : H.Inv) {status : Int} (hCode : H.sys.code = .exitFinish status :: rest)
    (loaded : Bool) (stack : Nat) (hRest : Calm rest) :
    { H with sys := (H.sys.setCode rest).execute loaded stack (.exitFinish status) }.Inv := by
  have hSound := h.sound.runAct loaded stack
  rw [System.runAct_eq hCode] at hSound
  cases hSelf : H.sys.self with
  | none =>
    have hExecute : (H.sys.setCode rest).execute loaded stack (.exitFinish status) = H.sys.setCode rest := by
      simp only [System.execute, System.exitFinish, System.setCode_self, hSelf]
    apply h.goesOn hCode loaded stack rfl (by simp) _ (.of_calm hRest)
    rw [hExecute]
    exact .same
  | some slot =>
    have hExecute : (H.sys.setCode rest).execute loaded stack (.exitFinish status) =
        { ((H.sys.setCode rest).modify slot (Process.exited status)).setThread (some slot) haltedThread with
          currentPid := -1, currentProcess := none, irq := true } := by
      simp only [System.execute, System.exitFinish, System.setCode_self, hSelf]
    have hCalm : ∀ t,
        Calm (((H.sys.setCode rest).execute loaded stack (.exitFinish status)).threads t).code := by
      intro t act hMem
      rw [hExecute] at hMem
      rcases System.mem_setThread_code (Or.inl rfl) hMem with hOld | rfl
      · exact h.calm_setCode hRest t act hOld
      · rfl
    apply h.update hSound (fun t _ => hCalm t) (.of_calm (hCalm _))
    all_goals rw [hExecute]
    · intro i
      by_cases hEq : i = slot
      · simp [System.modify_procTable, hEq, Process.exited]
      · simp [System.modify_procTable, hEq]
    · intro i
      rfl
    · rfl
    · intro i hLive
      have hEq : i ≠ slot := by
        rintro rfl
        simp [System.modify_procTable, Process.exited] at hLive
      simp only [System.setThread_procTable, System.modify_procTable, Function.update_of_ne hEq] at hLive
      exact ⟨hLive, by simp [hCode]⟩

theorem Stacked.Inv.reserves (h : H.Inv) (hCode : H.sys.code = .reserve :: rest) (loaded : Bool)
    (stack : Nat) (hRest : Calm rest)
    (hTurn : ∀ slot ∈ H.sys.findFreeSlotUnlocked, (H.sys.procTable slot).stackBase = 0) :
    { H with sys := (H.sys.setCode rest).execute loaded stack .reserve }.Inv := by
  have hSound := h.sound.runAct loaded stack
  rw [System.runAct_eq hCode] at hSound
  have hOthers := h.others_execute .reserve rest loaded stack
  cases hFind : H.sys.findFreeSlotUnlocked with
  | none =>
    have hFind' : (H.sys.setCode rest).findFreeSlotUnlocked = none := hFind
    apply h.goesOn hCode loaded stack rfl (by simp) _ (.of_calm hRest)
    simp only [System.execute, System.reserve, hFind']
    exact .value
  | some slot =>
    have hFind' : (H.sys.setCode rest).findFreeSlotUnlocked = some slot := hFind
    have hStack := hTurn slot hFind
    have hFree := System.free_of_found hFind
    have hOther : H.sys.self ≠ some slot := fun hEq => h.sound.seated slot (h.sound.self_eq ▸ hEq) hFree
    have hTable : ((H.sys.setCode rest).execute loaded stack .reserve).procTable =
        Function.update H.sys.procTable slot (reservedProcess H.sys.nextPid) := by
      simp only [System.execute, System.reserve, hFind']
      rfl
    have hBorn : ((H.sys.setCode rest).execute loaded stack .reserve).born =
        Function.update H.sys.born slot H.sys.nextPid := by
      simp only [System.execute, System.reserve, hFind']
      rfl
    have hNext : ((H.sys.setCode rest).execute loaded stack .reserve).nextPid = H.sys.nextPid + 1 := by
      simp only [System.execute, System.reserve, hFind']
      rfl
    have hSelf : ((H.sys.setCode rest).execute loaded stack .reserve).self = H.sys.self := by
      simp only [System.execute, System.reserve, hFind']
      rfl
    have hNew : ((H.sys.setCode rest).execute loaded stack .reserve).code = .load slot :: rest := by
      simp only [System.execute, System.reserve, hFind', System.push_code]
      change [_] ++ (System.setThread _ (some slot) haltedThread).code = _
      rw [System.setThread_code_of_ne (by exact hOther), System.modify_code, System.setCode_code]
      rfl
    have hPos := h.sound.nextPid_pos
    generalize (H.sys.setCode rest).execute loaded stack .reserve = s' at *
    have hRecords : ∀ i b, Records s' i b ↔ Records H.sys i b := by
      intro i b
      by_cases hEq : i = slot
      · subst hEq
        simp only [Records, hTable, Function.update_self, reservedProcess, hStack]
      · simp only [Records, hTable, Function.update_of_ne hEq]
    constructor
    · exact hSound
    · rw [hSelf]
      exact hOthers
    · rw [hNew]
      exact .build (Or.inl rfl) (by simp [hTable, reservedProcess]) (by simp [hTable, reservedProcess]) hRest
    · exact h.owned.mono (fun i b hRec => (hRecords i b).mp hRec) fun _ hLive => hLive
    · intro i b hRec
      have hOld := (hRecords i b).mp hRec
      have hEq : i ≠ slot := by
        rintro rfl
        exact hOld.1 (hOld.2.symm.trans hStack)
      rw [hBorn, Function.update_of_ne hEq]
      exact h.owner i b hOld
    · intro b hMem
      obtain ⟨i, hRec⟩ := h.recorded b hMem
      exact ⟨i, (hRecords i b).mpr hRec⟩
    · exact h.nodup
    · intro i
      have hLt := h.born_lt i
      rw [hBorn, hNext, Function.update_apply]
      split <;> omega
    · intro i j
      have hI := h.born_lt i
      have hJ := h.born_lt j
      have hInj := h.born_inj i j
      simp only [hBorn, Function.update_apply]
      split_ifs with hEqI hEqJ hEqJ
      · intro _ _
        rw [hEqI, hEqJ]
      · intro hEq
        omega
      · intro hEq
        omega
      · exact hInj
    · intro i hLive
      rw [hBorn, Function.update_apply]
      split_ifs with hEq
      · omega
      · rw [hTable, Function.update_of_ne hEq] at hLive
        exact h.born_live i hLive
    · intro pid hMem
      have hLt := h.freed_lt pid hMem
      rw [hNext]
      omega
    · intro i hLive
      left
      rw [hBorn, Function.update_apply]
      split_ifs with hEq
      · intro hMem
        have hLt := h.freed_lt _ hMem
        omega
      · rw [hTable, Function.update_of_ne hEq] at hLive
        exact (h.alive i hLive).resolve_right (by simp [hCode])
    · exact h.once

theorem Stacked.Inv.allocates (h : H.Inv) {slot : Slot} (hCode : H.sys.code = .allocStack slot :: rest)
    (loaded : Bool) (stack : Nat) (hLive : (H.sys.procTable slot).state ≠ .free)
    (hStack : (H.sys.procTable slot).stackBase = 0) (hRest : Calm rest) (hFresh : stack ∉ H.live) :
    { H.alloc slot stack with
      sys := (H.sys.setCode rest).execute loaded stack (.allocStack slot) }.Inv := by
  have hTable : ((H.sys.setCode rest).execute loaded stack (.allocStack slot)).procTable =
      Function.update H.sys.procTable slot { H.sys.procTable slot with stackBase := stack } := rfl
  have hPhase : Phase ((H.sys.setCode rest).execute loaded stack (.allocStack slot))
      ((H.sys.setCode rest).execute loaded stack (.allocStack slot)).code := by
    simp only [System.execute, System.push_code, System.modify_code, System.setCode_code]
    exact .ready (Or.inl rfl) (by simpa [System.modify_procTable] using hLive) hRest
  by_cases hNull : stack = 0
  case pos =>
    rw [Stacked.alloc, if_pos hNull]
    exact h.stores hCode loaded stack rfl (by simp) rfl hTable (hNull.trans hStack.symm) (fun _ => hLive) rfl rfl
      hPhase
  case neg =>
    have hSound := h.sound.runAct loaded stack
    rw [System.runAct_eq hCode] at hSound
    have hState : ∀ i, (((H.sys.setCode rest).execute loaded stack (.allocStack slot)).procTable i).state =
        (H.sys.procTable i).state := by
      intro i
      rw [hTable, Function.update_apply]
      split_ifs with hEq
      · rw [hEq]
      · rfl
    have hRecords : ∀ i b, Records ((H.sys.setCode rest).execute loaded stack (.allocStack slot)) i b →
        Records H.sys i b ∨ i = slot ∧ b = stack := by
      rintro i b ⟨hNe, hEq⟩
      rw [hTable, Function.update_apply] at hEq
      split_ifs at hEq with hSlot
      · exact Or.inr ⟨hSlot, hEq.symm⟩
      · exact Or.inl ⟨hNe, hEq⟩
    rw [Stacked.alloc, if_neg hNull]
    constructor
    · exact hSound
    · exact h.others_execute (.allocStack slot) rest loaded stack
    · exact hPhase
    · apply h.owned.insert slot _ hRecords (fun _ hMem => List.mem_cons_of_mem stack hMem) List.mem_cons_self
      intro i hRec
      exact hFresh (h.owned.held hRec)
    · intro i b hRec
      change Function.update H.owner stack (H.sys.born slot) b = H.sys.born i
      rcases hRecords i b hRec with hOld | ⟨rfl, rfl⟩
      · have hNe : b ≠ stack := by
          rintro rfl
          exact hFresh (h.owned.held hOld)
        rw [Function.update_of_ne hNe]
        exact h.owner i b hOld
      · rw [Function.update_self]
    · intro b hMem
      rcases List.mem_cons.mp hMem with rfl | hMem
      · exact ⟨slot, hNull, by simp [hTable]⟩
      · obtain ⟨i, hNe, hEq⟩ := h.recorded b hMem
        have hSlot : i ≠ slot := by
          rintro rfl
          exact hNe (hEq.symm.trans hStack)
        exact ⟨i, hNe, by simpa [hTable, hSlot] using hEq⟩
    · exact List.nodup_cons.mpr ⟨hFresh, h.nodup⟩
    · exact h.born_lt
    · exact h.born_inj
    · intro i hNew
      exact h.born_live i (hState i ▸ hNew)
    · exact h.freed_lt
    · intro i hNew
      exact Or.inl ((h.alive i (hState i ▸ hNew)).resolve_right (by simp [hCode]))
    · exact h.once

theorem Stacked.Inv.clears (h : H.Inv) {slot : Slot}
    (hCode : H.sys.code = .stackClear slot :: .freeState slot :: rest) (loaded : Bool) (stack : Nat)
    (hRest : KillCode rest) :
    { H.free (H.sys.procTable slot).stackBase with
      sys := (H.sys.setCode (.freeState slot :: rest)).execute loaded stack (.stackClear slot) }.Inv := by
  have hTable : ((H.sys.setCode (.freeState slot :: rest)).execute loaded stack (.stackClear slot)).procTable =
      Function.update H.sys.procTable slot { H.sys.procTable slot with stackBase := 0 } := rfl
  have hNew : ((H.sys.setCode (.freeState slot :: rest)).execute loaded stack (.stackClear slot)).code =
      .freeState slot :: rest := by
    simp only [System.execute, System.modify_code, System.setCode_code]
  have hPhase : Phase ((H.sys.setCode (.freeState slot :: rest)).execute loaded stack (.stackClear slot))
      ((H.sys.setCode (.freeState slot :: rest)).execute loaded stack (.stackClear slot)).code := by
    rw [hNew]
    exact .kill (.freeState hRest)
  by_cases hNull : (H.sys.procTable slot).stackBase = 0
  case pos =>
    rw [Stacked.free, if_pos hNull]
    exact h.stores hCode loaded stack rfl (by simp) rfl hTable hNull.symm id rfl rfl hPhase
  case neg =>
    have hSound := h.sound.runAct loaded stack
    rw [System.runAct_eq hCode] at hSound
    have hState : ∀ i, (((H.sys.setCode (.freeState slot :: rest)).execute loaded stack
        (.stackClear slot)).procTable i).state = (H.sys.procTable i).state := by
      intro i
      rw [hTable, Function.update_apply]
      split_ifs with hEq
      · rw [hEq]
      · rfl
    have hHere : Records H.sys slot (H.sys.procTable slot).stackBase := ⟨hNull, rfl⟩
    have hMem := h.owned.held hHere
    have hRecords : ∀ i b, Records ((H.sys.setCode (.freeState slot :: rest)).execute loaded stack
        (.stackClear slot)) i b → i ≠ slot ∧ Records H.sys i b := by
      rintro i b ⟨hNe, hEq⟩
      rw [hTable, Function.update_apply] at hEq
      split_ifs at hEq with hSlot
      · exact absurd hEq.symm hNe
      · exact ⟨hSlot, hNe, hEq⟩
    rw [Stacked.free, if_neg hNull, if_pos hMem]
    constructor
    · exact hSound
    · exact h.others_execute (.stackClear slot) (.freeState slot :: rest) loaded stack
    · exact hPhase
    · have hDropped := h.owned.mono (fun i b hRec => (hRecords i b hRec).2) fun _ hLive => hLive
      have hUnused : ∀ i, ¬Records ((H.sys.setCode (.freeState slot :: rest)).execute loaded stack
          (.stackClear slot)) i (H.sys.procTable slot).stackBase := by
        intro i hRec
        obtain ⟨hNe, hOld⟩ := hRecords i _ hRec
        exact hNe (h.owned.unique hOld hHere)
      apply hDropped.release hUnused
      intro b hNe hLive
      exact (List.mem_erase_of_ne hNe).mpr hLive
    · intro i b hRec
      exact h.owner i b (hRecords i b hRec).2
    · intro b hErased
      have hNe : b ≠ (H.sys.procTable slot).stackBase := by
        rintro rfl
        exact h.nodup.not_mem_erase hErased
      obtain ⟨i, hNonzero, hEq⟩ := h.recorded b (List.mem_of_mem_erase hErased)
      have hSlot : i ≠ slot := by
        rintro rfl
        exact hNe hEq.symm
      exact ⟨i, hNonzero, by simpa [hTable, hSlot] using hEq⟩
    · exact h.nodup.erase _
    · exact h.born_lt
    · exact h.born_inj
    · intro i hLive
      exact h.born_live i (hState i ▸ hLive)
    · intro pid hFreed
      rcases List.mem_cons.mp hFreed with rfl | hFreed
      · rw [h.owner slot _ hHere]
        exact h.born_lt slot
      · exact h.freed_lt pid hFreed
    · intro i hLive
      have hOld : (H.sys.procTable i).state ≠ .free := hState i ▸ hLive
      by_cases hSlot : i = slot
      · subst hSlot
        exact Or.inr (congrArg List.head? hNew)
      · left
        intro hFreed
        rcases List.mem_cons.mp hFreed with hEq | hFreed
        · rw [h.owner slot _ hHere] at hEq
          exact hSlot (h.born_inj i slot hEq (h.born_live i hOld))
        · exact (h.alive i hOld).resolve_right (by simp [hCode]) hFreed
    · exact h.once

/-! ### Steps and runs -/

theorem Stacked.step_run (hCode : H.sys.code = act :: rest) (loaded : Bool) (stack : Nat) :
    H.step (.run loaded stack) =
      { H.account stack act with sys := (H.sys.setCode rest).execute loaded stack act } := by
  simp only [Stacked.step, hCode, System.runAct_eq hCode]

theorem Stacked.Inv.calmly (h : H.Inv) (hCode : H.sys.code = act :: rest) (loaded : Bool) (stack : Nat)
    (hCalm : Calm (act :: rest)) (hTurn : H.InTurn (.run loaded stack)) :
    { H.account stack act with sys := (H.sys.setCode rest).execute loaded stack act }.Inv := by
  obtain ⟨hIdle, hRest⟩ := List.forall_mem_cons.mp hCalm
  cases act with
  | reserve => exact h.reserves hCode loaded stack hRest (hTurn (by rw [hCode]; rfl))
  | schedule => exact h.schedules hCode loaded stack hRest
  | yieldReady => exact h.yields hCode loaded stack hRest
  | exitBegin status => exact h.begins hCode loaded stack hRest
  | exitFinish status => exact h.exits hCode loaded stack hRest
  | allocStack slot => cases hIdle
  | stackClear slot => cases hIdle
  | _ => exact h.idles hCode loaded stack hIdle hRest (by simp) (by simp) (by simp) (by simp) (by simp)

theorem Stacked.Inv.runs (h : H.Inv) (hCode : H.sys.code = act :: rest) (loaded : Bool) (stack : Nat)
    (hFresh : H.Fresh (.run loaded stack)) (hTurn : H.InTurn (.run loaded stack)) :
    (H.step (.run loaded stack)).Inv := by
  rw [Stacked.step_run hCode]
  have hPhase := h.phase
  generalize hWhole : H.sys.code = code at hPhase
  rw [hCode] at hWhole
  cases hPhase with
  | build hAct hLive hStack hRest =>
    cases hWhole
    rcases hAct with rfl | rfl | rfl | rfl
    · exact h.builds hCode loaded stack (Or.inl rfl) hLive hStack hRest
    · exact h.builds hCode loaded stack (Or.inr (Or.inl rfl)) hLive hStack hRest
    · exact h.builds hCode loaded stack (Or.inr (Or.inr rfl)) hLive hStack hRest
    · exact h.allocates hCode loaded stack hLive hStack hRest (hFresh _ (by rw [hCode]; rfl))
  | ready hAct hLive hRest =>
    cases hWhole
    have hInv := h.readies hCode loaded stack hAct hLive hRest
    rcases hAct with rfl | rfl | rfl <;> exact hInv
  | @release slot acts rest' hActs hStack hRest =>
    cases acts with
    | nil =>
      rw [List.nil_append] at hWhole
      subst hWhole
      exact h.calmly hCode loaded stack hRest hTurn
    | cons act' acts =>
      cases hWhole
      have hInv := h.releases hCode loaded stack hActs hStack hRest
      have hIn := hActs act List.mem_cons_self
      simp only [releaseReservedSlotUnlocked, List.mem_cons, List.not_mem_nil, or_false] at hIn
      rcases hIn with rfl | rfl | rfl | rfl | rfl | rfl | rfl <;> exact hInv
  | start hAct hLive hRest =>
    cases hWhole
    have hInv := h.starts hCode loaded stack hAct hLive hRest
    rcases hAct with rfl | rfl <;> exact hInv
  | kill hKill =>
    cases hKill with
    | done hCalm =>
      subst hWhole
      exact h.calmly hCode loaded stack hCalm hTurn
    | popParent hRest =>
      cases hWhole
      exact h.sweeps hCode loaded stack (by simp) hRest
    | childState hRest =>
      cases hWhole
      exact h.sweeps hCode loaded stack (by simp) hRest
    | childParent hRest =>
      cases hWhole
      exact h.sweeps hCode loaded stack (by simp) hRest
    | childPid hRest =>
      cases hWhole
      exact h.sweeps hCode loaded stack (by simp) hRest
    | stackCheck hRest =>
      cases hWhole
      exact h.checksStack hCode loaded stack hRest
    | stackClear hRest =>
      cases hWhole
      exact h.clears hCode loaded stack hRest
    | freeState hRest =>
      cases hWhole
      exact h.kills hCode loaded stack (Or.inl rfl) hRest
    | freePid hRest =>
      cases hWhole
      exact h.kills hCode loaded stack (Or.inr rfl) hRest

theorem Stacked.Inv.calls (h : H.Inv) (c : Call) : (H.step (.call c)).Inv := by
  have hSound := h.sound.step (.call c)
  simp only [Stacked.step, System.step] at hSound ⊢
  split at hSound
  case isFalse hBusy =>
    rw [if_neg hBusy]
    exact h
  case isTrue hIdle =>
    rw [if_pos hIdle]
    have hCalm : Calm c.code := by
      cases c <;> simp [Calm, Call.code, Act.isOpen]
    apply h.update hSound
    · intro t hSelf
      rw [System.push_threads_of_ne (by exact hSelf)]
      exact h.others t hSelf
    · rw [System.push_code, hIdle, List.append_nil]
      exact .of_calm hCalm
    · intro i
      rfl
    · intro i
      rfl
    · rfl
    · intro i hLive
      exact ⟨hLive, by simp [hIdle]⟩

theorem Stacked.Inv.ticks (h : H.Inv) (hTurn : H.InTurn .timer) : (H.step .timer).Inv := by
  have hSound := h.sound.step .timer
  have hNow : H.InTurn .timer := hTurn
  simp only [Stacked.step, Stacked.InTurn, System.step] at hSound hNow ⊢
  split at hSound
  case isFalse hOff =>
    rw [if_neg hOff]
    exact h
  case isTrue hOn =>
    rw [if_pos hOn] at hNow ⊢
    rcases System.processPreemptFromIrq_cases (s := H.sys) with ⟨n, hEq⟩ | ⟨next, hReady, hOther, hEq⟩
    · rw [hEq] at hSound ⊢
      exact ⟨hSound, h.others, h.phase.of_table rfl, h.owned, h.owner, h.recorded, h.nodup, h.born_lt, h.born_inj,
        h.born_live, h.freed_lt, h.alive, h.once⟩
    · have hSelf : H.sys.processPreemptFromIrq.self = some next := by
        rw [hEq]
        exact slotOf_index next
      have hCalm : Calm H.sys.code := by
        apply hNow.resolve_left
        rw [hSelf]
        exact hOther.symm
      apply h.switches hSound
      · intro i hHead
        have hOpen := hCalm _ (List.mem_of_head? hHead)
        cases hOpen
      · intro t
        rw [System.processPreemptFromIrq_threads]
        by_cases hT : t = H.sys.self
        · rw [hT]
          exact hCalm
        · exact h.others t hT
      · intro i
        exact System.untouched_processPreemptFromIrq
      · rw [hEq]
        exact (System.samePids_dispatch next).nextPid

theorem Stacked.Inv.step (h : H.Inv) {event : Event} (hFresh : H.Fresh event) (hTurn : H.InTurn event) :
    (H.step event).Inv := by
  cases event with
  | call c => exact h.calls c
  | timer => exact h.ticks hTurn
  | run loaded stack =>
    cases hCode : H.sys.code with
    | nil =>
      have hStay : H.step (.run loaded stack) = H := by simp only [Stacked.step, hCode]
      rw [hStay]
      exact h
    | cons act rest => exact h.runs hCode loaded stack hFresh hTurn

theorem Stacked.Inv.after {H : Stacked} (h : H.Inv) {events : List Event} (hTurn : H.InTurnAlong events) :
    (H.after events).Inv := by
  induction events generalizing H with
  | nil => exact h
  | cons event events ih => exact ih (h.step hTurn.1.1 hTurn.1.2) hTurn.2

/-! ### What the invariant gives -/

theorem countP_le_add {α : Type} (p q r : α → Bool) (h : ∀ a, p a = true → q a = true ∨ r a = true)
    (l : List α) : l.countP p ≤ l.countP q + l.countP r := by
  induction l with
  | nil => simp
  | cons a l ih =>
    have hHead := h a
    simp only [List.countP_cons]
    cases hP : p a <;> cases hQ : q a <;> cases hR : r a <;> simp_all <;> omega

theorem Stacked.Inv.sane (h : H.Inv) : H.Sane where
  once := h.once
  standing := by
    intro i hCurrent
    have hSelf : H.sys.self = some i := h.sound.self_eq.trans hCurrent
    apply (h.alive i (h.sound.seated i hCurrent)).resolve_right
    intro hHead
    exact h.sound.target_ne _ _ i (List.mem_of_head? hHead) rfl hSelf
  bounded := by
    have hSubset : H.live ⊆ ((List.finRange maxProcesses).filter fun i =>
        (H.sys.procTable i).stackBase ≠ 0).map fun i => (H.sys.procTable i).stackBase := by
      intro stack hMem
      obtain ⟨i, hNe, hEq⟩ := h.recorded stack hMem
      exact List.mem_map.mpr ⟨i, List.mem_filter.mpr ⟨List.mem_finRange i, by simpa [hEq] using hNe⟩, hEq⟩
    have hLength := (List.subperm_of_subset h.nodup hSubset).length_le
    rw [List.length_map, ← List.countP_eq_length_filter] at hLength
    apply hLength.trans
    apply countP_le_add
    intro i hStack
    by_cases hFree : (H.sys.procTable i).state = .free
    · exact Or.inr (by simpa [hFree] using hStack)
    · exact Or.inl (by simpa using hFree)

end Steps

/-- In every run in which a slot is reserved only without a stack in it, and in which the timer interrupts
nobody who is at work on a slot, stacks are freed once, after the last step of their process, and none is
forgotten. -/
theorem stacks_sane (events : List Event) (h : stackedInit.InTurnAlong events) :
    (stackedInit.after events).Sane :=
  (stackedInit_inv.after h).sane

def createWith (stack : Nat) : List Event := .call .create :: List.replicate 9 (.run true stack)

/-! ### Runs with one process -/

def onlySlot : Slot := ⟨0, maxProcesses_pos⟩

structure OneProcess where
  process : Process
  current : Option Slot
  irq : Bool
  thread : Thread
  kernel : List Act

def OneProcess.toStacked (c : OneProcess) (H : Stacked) : Stacked where
  sys :=
    { procTable := fun i => if i = onlySlot then c.process else processInit.procTable i
      currentPid := (c.current.map Slot.index).getD (-1)
      currentProcess := c.current
      nextPid := 2
      preemptTicks := 0
      irq := c.irq
      threads := fun t => if t = none then ⟨c.kernel, 1⟩ else if t = some onlySlot then c.thread else haltedThread
      born := fun i => if i = onlySlot then 1 else 0
      creator := H.sys.creator }
  live := [4096]
  owner := H.owner
  freed := []
  wrongFrees := 0

def Stacked.Agrees (H H' : Stacked) : Prop :=
  H.sys.Agrees H'.sys ∧ H.live = H'.live ∧ H.freed = H'.freed ∧ H.wrongFrees = H'.wrongFrees

instance Stacked.decidableAgrees (H H' : Stacked) : Decidable (H.Agrees H') := inferInstanceAs (Decidable (_ ∧ _))

theorem OneProcess.eq_toStacked {c : OneProcess} {H : Stacked} (h : H.Agrees (c.toStacked H)) :
    H = c.toStacked H := by
  obtain ⟨hSys, hLive, hFreed, hWrong⟩ := h
  obtain ⟨sys, live, owner, freed, wrongFrees⟩ := H
  exact (Stacked.mk.injEq ..).mpr ⟨hSys.eq rfl, hLive, rfl, hFreed, hWrong⟩

theorem Stacked.after_append (H : Stacked) (events events' : List Event) :
    H.after (events ++ events') = (H.after events).after events' :=
  List.foldl_append

theorem Stacked.inTurnAlong_append (H : Stacked) (events events' : List Event) :
    H.InTurnAlong (events ++ events') ↔ H.InTurnAlong events ∧ (H.after events).InTurnAlong events' := by
  induction events generalizing H with
  | nil => exact (iff_of_eq (true_and _)).symm
  | cons event events ih => exact (and_congr_right fun _ => ih (H.step event)).trans and_assoc.symm

def runActs (n : Nat) : List Event := List.replicate n (.run true 0)

def killCall : List Event := .call (.kill 1) :: runActs 14

/-- The kernel creates a process, kills it, and creates another one in its slot. -/
def killEvents : List Event := createWith 4096 ++ (killCall ++ (runActs 9 ++ (runActs 6 ++ createWith 4096)))

def onlyProcess (state : ProcState) : Process := ⟨1, state, 4096, true, 0, -1⟩

def created : Stacked :=
  OneProcess.toStacked ⟨onlyProcess .ready, none, true, freshThread, []⟩ (stackedInit.after (createWith 4096))

def killCode (act : Act) : List Act := [act, .stackCheck onlySlot, .freeState onlySlot, .freePid onlySlot, .ret 0]

def killing : Stacked :=
  OneProcess.toStacked ⟨onlyProcess .ready, none, true, freshThread, killCode (.childState 1 8 [])⟩
    (created.after killCall)

def killingOn : Stacked :=
  OneProcess.toStacked ⟨onlyProcess .ready, none, true, freshThread, killCode (.popParent [])⟩
    (killing.after (runActs 9))

theorem stacks_sane_reused : stackedInit.InTurnAlong killEvents ∧ (stackedInit.after killEvents).live = [4096] ∧
    (stackedInit.after killEvents).Sane := by
  have hCreated : stackedInit.after (createWith 4096) = created := OneProcess.eq_toStacked (by decide +kernel)
  have hKilling : created.after killCall = killing := OneProcess.eq_toStacked (by decide +kernel)
  have hKillingOn : killing.after (runActs 9) = killingOn := OneProcess.eq_toStacked (by decide +kernel)
  have hTurn : stackedInit.InTurnAlong killEvents := by
    rw [killEvents]
    simp only [Stacked.inTurnAlong_append, hCreated, hKilling, hKillingOn]
    decide +kernel
  refine ⟨hTurn, ?_, stacks_sane _ hTurn⟩
  rw [killEvents]
  simp only [Stacked.after_append, hCreated, hKilling, hKillingOn]
  decide +kernel

def exitCall : List Event := [.call .schedule, .run true 0, .call (.exit 0)]

/-- The kernel creates a process, which runs, exits and leaves its stack in the slot; then the kernel
creates the next one. -/
def forgetEvents : List Event :=
  createWith 4096 ++ (exitCall ++ (runActs 12 ++ (runActs 10 ++ createWith 8192)))

def exiting : Stacked :=
  OneProcess.toStacked ⟨onlyProcess .running, some onlySlot, true, ⟨[.exitBegin 0], 0⟩, []⟩ (created.after exitCall)

def exitingOn : Stacked :=
  OneProcess.toStacked ⟨onlyProcess .running, some onlySlot, false,
    ⟨[.childState 1 9 [], .exitFinish 0], 0⟩, []⟩ (exiting.after (runActs 12))

def gone : Stacked :=
  OneProcess.toStacked ⟨onlyProcess .free, none, true, haltedThread, []⟩ (exitingOn.after (runActs 10))

theorem forgetEvents_forgets : (stackedInit.after forgetEvents).live = [8192, 4096] ∧
    (stackedInit.after forgetEvents).slotsWithStack = 1 := by
  have hCreated : stackedInit.after (createWith 4096) = created := OneProcess.eq_toStacked (by decide +kernel)
  have hExiting : created.after exitCall = exiting := OneProcess.eq_toStacked (by decide +kernel)
  have hExitingOn : exiting.after (runActs 12) = exitingOn := OneProcess.eq_toStacked (by decide +kernel)
  have hGone : exitingOn.after (runActs 10) = gone := OneProcess.eq_toStacked (by decide +kernel)
  rw [forgetEvents]
  simp only [Stacked.after_append, hCreated, hExiting, hExitingOn, hGone]
  decide +kernel

theorem process_create_forgets_stack :
    (stackedInit.after forgetEvents).live = [8192, 4096] ∧ (stackedInit.after forgetEvents).slotsWithStack = 1 ∧
      ¬(stackedInit.after forgetEvents).Sane := by
  obtain ⟨hLive, hSlots⟩ := forgetEvents_forgets
  refine ⟨hLive, hSlots, ?_⟩
  intro hSane
  have hBounded := hSane.bounded
  rw [hLive, hSlots] at hBounded
  exact absurd hBounded (by decide)

end UnixOS.Proc
