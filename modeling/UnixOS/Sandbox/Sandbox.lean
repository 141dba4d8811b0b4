import Mathlib.Data.List.Nodup
import Mathlib.Logic.Function.Basic

/-! # Sandboxed calls of several processes

`sandbox_execute` and `sandbox_handle_fault` of `kernel/sandbox/sandbox.c`. Every call saves the global
`current_sandbox` on its own stack and puts it back at its end, and the timer may switch processes between any
two of the steps below. `sandbox_setjmp` and `sandbox_longjmp` are taken as their comments in the ARM64 build say:
the one saves the stack and returns 0, the other goes back to it and 1 is returned. In the x86-64 build the place saved
is before the result is cleared, and 0 is returned again.
-/

namespace UnixOS.Sandbox

inductive Stage where
  /-- `current_sandbox` is set, and the registers are not saved yet. -/
  | entered
  | running
  /-- Resumed by `sandbox_longjmp`. -/
  | faulted
deriving DecidableEq

structure Frame where
  ctx : Nat
  prevSandbox : Option Nat
  stage : Stage
deriving DecidableEq

structure Ctx where
  faulted : Bool
  faultAddr : Nat
  faultType : Nat
  /-- The stack that was saved, innermost call first. -/
  recoveryState : List Frame

structure State where
  currentSandbox : Option Nat
  ctxs : Nat → Ctx
  /-- The calls that a process is in, innermost first. -/
  frames : Nat → List Frame
  /-- The calls in progress by process and context, the last one entered first. -/
  order : List (Nat × Nat)

def stateInit : State := ⟨none, fun _ => ⟨false, 0, 0, []⟩, fun _ => [], []⟩

inductive Event where
  /-- A process, or the function that it runs in a sandbox, calls `sandbox_execute`. -/
  | execute (process ctx : Nat)
  | setjmp (process : Nat)
  | finish (process : Nat)
  | fault (process addr type : Nat)
  | unwind (process : Nat)

namespace State

variable (s : State)

def inProgress (c : Nat) : Bool := c ∈ s.order.map Prod.snd

def mayCall (p : Nat) : Bool :=
  match s.frames p with
  | [] => true
  | f :: _ => f.stage = .running

/-- `sandbox_execute` up to the first unlock, with a context that is not in use. -/
def sandboxExecute (p c : Nat) : State :=
  if s.mayCall p ∧ s.inProgress c = false then
    { s with
      currentSandbox := some c
      ctxs := Function.update s.ctxs c { s.ctxs c with faulted := false, faultType := 0 }
      frames := Function.update s.frames p (⟨c, s.currentSandbox, .entered⟩ :: s.frames p)
      order := (p, c) :: s.order }
  else s

def sandboxSetjmp (p : Nat) : State :=
  match s.frames p with
  | ⟨c, prev, .entered⟩ :: rest =>
    { s with
      ctxs := Function.update s.ctxs c { s.ctxs c with recoveryState := ⟨c, prev, .running⟩ :: rest }
      frames := Function.update s.frames p (⟨c, prev, .running⟩ :: rest) }
  | _ => s

/-- The end of a call, after the function has returned or after a fault. -/
def leave (p : Nat) (stage : Stage) : State :=
  match s.frames p with
  | f :: rest =>
    if f.stage = stage then
      { s with
        currentSandbox := f.prevSandbox
        frames := Function.update s.frames p rest
        order := s.order.erase (p, f.ctx) }
    else s
  | [] => s

/-- `sandbox_longjmp` on the processor that runs `p`. -/
def sandboxLongjmp (p : Nat) (saved : List Frame) : State :=
  match saved with
  | [] => { s with frames := Function.update s.frames p [] }
  | f :: rest => { s with frames := Function.update s.frames p ({ f with stage := .faulted } :: rest) }

/-- `sandbox_handle_fault`, while `p` runs. -/
def sandboxHandleFault (p addr type : Nat) : State :=
  match s.currentSandbox with
  | none => s
  | some c =>
    let ctx := { s.ctxs c with faulted := true, faultAddr := addr, faultType := type }
    { s with ctxs := Function.update s.ctxs c ctx }.sandboxLongjmp p ctx.recoveryState

def fault (p addr type : Nat) : State :=
  match s.frames p with
  | ⟨_, _, .running⟩ :: _ => s.sandboxHandleFault p addr type
  | _ => s

def step : Event → State
  | .execute p c => s.sandboxExecute p c
  | .setjmp p => s.sandboxSetjmp p
  | .finish p => s.leave p .running
  | .fault p addr type => s.fault p addr type
  | .unwind p => s.leave p .faulted

/-- The fault is recorded in the context of the function that raised it, and nowhere else, and its own call is
resumed. -/
def Attributed (p addr type : Nat) : Prop :=
  ∀ c prev rest, s.frames p = ⟨c, prev, .running⟩ :: rest →
    (s.fault p addr type).frames p = ⟨c, prev, .faulted⟩ :: rest ∧
      (s.fault p addr type).ctxs =
        Function.update s.ctxs c { s.ctxs c with faulted := true, faultAddr := addr, faultType := type }

def Quiet : Prop := (∀ p, s.frames p = []) → s.currentSandbox = none

/-- Every fault of a run is attributed, and in every state outside of all calls `current_sandbox` is `NULL`. -/
def RightAlong (s : State) : List Event → Prop
  | [] => s.Quiet
  | event :: events =>
    s.Quiet ∧ (∀ p addr type, event = .fault p addr type → s.Attributed p addr type) ∧
      (s.step event).RightAlong events

/-- Only the call that was entered last, over all processes, returns or faults. -/
def InOrder : Event → Prop
  | .finish p | .unwind p | .fault p _ _ => ∀ f rest, s.frames p = f :: rest → s.order.head? = some (p, f.ctx)
  | _ => True

def InOrderAlong (s : State) : List Event → Prop
  | [] => True
  | event :: events => s.InOrder event ∧ (s.step event).InOrderAlong events

end State

/-! ### The invariant -/

/-- `current_sandbox` is the context entered last; what a call has saved is the one entered before it; and the
stack of every running call is the saved one. -/
structure State.Inv (s : State) : Prop where
  current : s.currentSandbox = s.order.head?.map Prod.snd
  nodup : (s.order.map Prod.snd).Nodup
  frames : ∀ p, (s.frames p).map Frame.ctx = (s.order.filter fun e => e.1 = p).map Prod.snd
  prev : ∀ p, ∀ f ∈ s.frames p, ∀ before after, s.order = before ++ (p, f.ctx) :: after →
    f.prevSandbox = after.head?.map Prod.snd
  saved : ∀ p f rest, f :: rest <:+ s.frames p → f.stage = .running →
    (s.ctxs f.ctx).recoveryState = f :: rest

theorem inv_stateInit : stateInit.Inv where
  current := rfl
  nodup := List.nodup_nil
  frames := fun _ => rfl
  prev := nofun
  saved := by
    intro p f rest hSuffix
    have hNil := List.eq_nil_of_suffix_nil hSuffix
    cases hNil

section Steps

variable {s : State} {p : Nat}

theorem State.Inv.mem_order (h : s.Inv) {f : Frame} (hMem : f ∈ s.frames p) : (p, f.ctx) ∈ s.order := by
  have hCtx : f.ctx ∈ (s.frames p).map Frame.ctx := List.mem_map_of_mem hMem
  rw [h.frames p] at hCtx
  obtain ⟨⟨q, c⟩, hEntry, hEq⟩ := List.mem_map.mp hCtx
  obtain ⟨hOrder, hSame⟩ := List.mem_filter.mp hEntry
  simp only [decide_eq_true_eq] at hSame hEq
  rwa [← hSame, ← hEq]

theorem State.Inv.process_eq (h : s.Inv) {q : Nat} {f g : Frame} (hf : f ∈ s.frames p) (hg : g ∈ s.frames q)
    (hSame : f.ctx = g.ctx) : p = q := by
  have hEq := List.inj_on_of_nodup_map h.nodup (h.mem_order hf) (h.mem_order hg) hSame
  exact congrArg Prod.fst hEq

theorem State.Inv.nodup_frames (h : s.Inv) (p : Nat) : ((s.frames p).map Frame.ctx).Nodup := by
  rw [h.frames p]
  exact h.nodup.sublist (List.filter_sublist.map _)

theorem State.Inv.quiet (h : s.Inv) : s.Quiet := by
  intro hNone
  cases hOrder : s.order with
  | nil => rw [h.current, hOrder, List.head?_nil, Option.map_none]
  | cons e order =>
    have hFrames := h.frames e.1
    rw [hNone, hOrder, List.filter_cons_of_pos (by simp)] at hFrames
    cases hFrames

theorem State.Inv.sandboxExecute (h : s.Inv) (p c : Nat) : (s.sandboxExecute p c).Inv := by
  rw [State.sandboxExecute]
  split
  case isFalse => exact h
  case isTrue hMay =>
    have hFresh : c ∉ s.order.map Prod.snd := by
      have hFree := hMay.2
      rwa [State.inProgress, decide_eq_false_iff_not] at hFree
    have hNew : ∀ q, (q, c) ∉ s.order := fun q hMem => hFresh (List.mem_map_of_mem hMem)
    constructor
    · rfl
    · exact List.nodup_cons.mpr ⟨hFresh, h.nodup⟩
    · intro q
      by_cases hq : q = p
      · subst hq
        simp [h.frames q]
      · have hOther : p ≠ q := fun hEq => hq hEq.symm
        simp [hq, hOther, h.frames q]
    · intro q f hMem before after hOrder
      cases before with
      | nil =>
        obtain ⟨hEntry, hRest⟩ := List.cons.inj hOrder
        obtain ⟨rfl, hc⟩ := Prod.mk.inj hEntry
        subst hRest
        simp only [Function.update_self] at hMem
        rcases List.mem_cons.mp hMem with rfl | hOld
        · exact h.current
        · exact absurd (h.mem_order hOld) (hc ▸ hNew p)
      | cons e before =>
        obtain ⟨hEntry, hRest⟩ := List.cons.inj hOrder
        have hOld : f ∈ s.frames q := by
          by_cases hq : q = p
          · subst hq
            simp only [Function.update_self] at hMem
            rcases List.mem_cons.mp hMem with rfl | hOld
            · exact absurd (hRest ▸ List.mem_append_right before List.mem_cons_self) (hNew q)
            · exact hOld
          · simpa only [Function.update_of_ne hq] using hMem
        exact h.prev q f hOld before after hRest
    · intro q f rest hSuffix hStage
      have hOld : f :: rest <:+ s.frames q := by
        by_cases hq : q = p
        · subst hq
          simp only [Function.update_self] at hSuffix
          rcases List.suffix_cons_iff.mp hSuffix with hWhole | hRest
          · rw [(List.cons.inj hWhole).1] at hStage
            cases hStage
          · exact hRest
        · simpa only [Function.update_of_ne hq] using hSuffix
      have hSaved := h.saved q f rest hOld hStage
      simp only [Function.update_apply]
      split
      case isTrue hEq => rw [← hEq, hSaved]
      case isFalse => exact hSaved

theorem State.Inv.restage (h : s.Inv) {c : Nat} {prev : Option Nat} {old new : Stage} {rest : List Frame}
    (hFrames : s.frames p = ⟨c, prev, old⟩ :: rest) {ctxs : Nat → Ctx}
    (hSelf : new = .running → (ctxs c).recoveryState = ⟨c, prev, new⟩ :: rest)
    (hOthers : ∀ d, d ≠ c → (ctxs d).recoveryState = (s.ctxs d).recoveryState) :
    State.Inv { s with ctxs := ctxs, frames := Function.update s.frames p (⟨c, prev, new⟩ :: rest) } := by
  have hHere : ⟨c, prev, old⟩ ∈ s.frames p := by
    rw [hFrames]
    exact List.mem_cons_self
  constructor
  · exact h.current
  · exact h.nodup
  · intro q
    by_cases hq : q = p
    · subst hq
      simp only [Function.update_self, List.map_cons]
      rw [← h.frames q, hFrames, List.map_cons]
    · simp only [Function.update_of_ne hq]
      exact h.frames q
  · intro q k hMem before after hOrder
    by_cases hq : q = p
    · subst hq
      simp only [Function.update_self] at hMem
      rcases List.mem_cons.mp hMem with rfl | hRest
      · exact h.prev q ⟨c, prev, old⟩ hHere before after hOrder
      · exact h.prev q k (hFrames ▸ List.mem_cons_of_mem _ hRest) before after hOrder
    · simp only [Function.update_of_ne hq] at hMem
      exact h.prev q k hMem before after hOrder
  · intro q k rest' hSuffix hStage
    by_cases hq : q = p
    · subst hq
      simp only [Function.update_self] at hSuffix
      rcases List.suffix_cons_iff.mp hSuffix with hWhole | hInner
      · obtain ⟨rfl, rfl⟩ := List.cons.inj hWhole
        exact hSelf hStage
      · have hMem : k ∈ rest := hInner.subset List.mem_cons_self
        have hNodup := h.nodup_frames q
        rw [hFrames, List.map_cons, List.nodup_cons] at hNodup
        have hNe : k.ctx ≠ c := by
          intro hEq
          apply hNodup.1
          change c ∈ rest.map Frame.ctx
          rw [← hEq]
          exact List.mem_map_of_mem hMem
        simp only [hOthers _ hNe]
        exact h.saved q k rest' (hFrames ▸ hInner.trans (List.suffix_cons _ rest)) hStage
    · simp only [Function.update_of_ne hq] at hSuffix
      have hMem : k ∈ s.frames q := hSuffix.subset List.mem_cons_self
      have hNe : k.ctx ≠ c := fun hEq => hq (h.process_eq hMem hHere hEq)
      simp only [hOthers _ hNe]
      exact h.saved q k rest' hSuffix hStage

theorem State.Inv.sandboxSetjmp (h : s.Inv) (p : Nat) : (s.sandboxSetjmp p).Inv := by
  unfold State.sandboxSetjmp
  split
  case h_1 c prev rest hFrames =>
    apply h.restage hFrames
    · intro _
      simp
    · intro d hNe
      simp [hNe]
  case h_2 => exact h

theorem State.Inv.leave (h : s.Inv) {stage : Stage}
    (hTurn : ∀ f rest, s.frames p = f :: rest → s.order.head? = some (p, f.ctx)) : (s.leave p stage).Inv := by
  unfold State.leave
  split
  case h_2 => exact h
  case h_1 f rest hFrames =>
    split
    case isFalse => exact h
    case isTrue hStage =>
      obtain ⟨order, hOrder⟩ : ∃ order, s.order = (p, f.ctx) :: order := by
        have hHead := hTurn f rest hFrames
        cases hs : s.order with
        | nil => rw [hs] at hHead; cases hHead
        | cons e order =>
          rw [hs] at hHead
          exact ⟨order, by rw [Option.some.inj hHead]⟩
      have hHere : f ∈ s.frames p := by
        rw [hFrames]
        exact List.mem_cons_self
      have hErase : s.order.erase (p, f.ctx) = order := by
        rw [hOrder, List.erase_cons_head]
      have hNodup := h.nodup
      rw [hOrder, List.map_cons, List.nodup_cons] at hNodup
      rw [hErase]
      constructor
      · exact h.prev p f hHere [] order hOrder
      · exact hNodup.2
      · intro q
        have hOld := h.frames q
        rw [hOrder] at hOld
        by_cases hq : q = p
        · subst hq
          rw [hFrames, List.filter_cons_of_pos (by simp)] at hOld
          simp only [Function.update_self]
          exact (List.cons.inj hOld).2
        · have hOther : ¬p = q := fun hEq => hq hEq.symm
          rw [List.filter_cons_of_neg (by simpa using hOther)] at hOld
          simp only [Function.update_of_ne hq]
          exact hOld
      · intro q k hMem before after hAfter
        have hOld : k ∈ s.frames q := by
          by_cases hq : q = p
          · subst hq
            simp only [Function.update_self] at hMem
            exact hFrames ▸ List.mem_cons_of_mem f hMem
          · simpa only [Function.update_of_ne hq] using hMem
        apply h.prev q k hOld ((p, f.ctx) :: before) after
        rw [hOrder, List.cons_append]
        exact congrArg _ hAfter
      · intro q k rest' hSuffix hRunning
        have hOld : k :: rest' <:+ s.frames q := by
          by_cases hq : q = p
          · subst hq
            simp only [Function.update_self] at hSuffix
            exact hFrames ▸ hSuffix.trans (List.suffix_cons f rest)
          · simpa only [Function.update_of_ne hq] using hSuffix
        exact h.saved q k rest' hOld hRunning

theorem State.Inv.fault_eq (h : s.Inv) {c : Nat} {prev : Option Nat} {rest : List Frame}
    (hFrames : s.frames p = ⟨c, prev, .running⟩ :: rest) (hTurn : s.order.head? = some (p, c)) (addr type : Nat) :
    s.fault p addr type =
      { s with
        ctxs := Function.update s.ctxs c { s.ctxs c with faulted := true, faultAddr := addr, faultType := type }
        frames := Function.update s.frames p (⟨c, prev, .faulted⟩ :: rest) } := by
  have hCurrent : s.currentSandbox = some c := by
    rw [h.current, hTurn]
    rfl
  have hSaved : (s.ctxs c).recoveryState = ⟨c, prev, .running⟩ :: rest :=
    h.saved p ⟨c, prev, .running⟩ rest (hFrames ▸ List.suffix_refl _) rfl
  simp only [State.fault, hFrames, State.sandboxHandleFault, hCurrent, hSaved, State.sandboxLongjmp]

theorem State.Inv.fault (h : s.Inv) {addr type : Nat}
    (hTurn : ∀ f rest, s.frames p = f :: rest → s.order.head? = some (p, f.ctx)) :
    (s.fault p addr type).Inv ∧ s.Attributed p addr type := by
  constructor
  · by_cases hRunning : ∃ c prev rest, s.frames p = ⟨c, prev, .running⟩ :: rest
    · obtain ⟨c, prev, rest, hFrames⟩ := hRunning
      rw [h.fault_eq hFrames (hTurn _ _ hFrames)]
      apply h.restage hFrames
      · intro hStage
        cases hStage
      · intro d hNe
        simp [hNe]
    · unfold State.fault
      split
      case h_1 c prev rest hFrames => exact absurd ⟨c, prev, rest, hFrames⟩ hRunning
      case h_2 => exact h
  · intro c prev rest hFrames
    rw [h.fault_eq hFrames (hTurn _ _ hFrames)]
    exact ⟨Function.update_self _ _ _, rfl⟩

theorem State.Inv.step (h : s.Inv) {event : Event} (hTurn : s.InOrder event) : (s.step event).Inv := by
  cases event with
  | execute p c => exact h.sandboxExecute p c
  | setjmp p => exact h.sandboxSetjmp p
  | finish p => exact h.leave hTurn
  | fault p addr type => exact (h.fault hTurn).1
  | unwind p => exact h.leave hTurn

theorem State.Inv.rightAlong (h : s.Inv) {events : List Event} (hOrder : s.InOrderAlong events) :
    s.RightAlong events := by
  induction events generalizing s with
  | nil => exact h.quiet
  | cons event events ih =>
    refine ⟨h.quiet, ?_, ih (h.step hOrder.1) hOrder.2⟩
    rintro p addr type rfl
    exact (h.fault hOrder.1).2

end Steps

/-- As long as only the call that was entered last returns or faults, every fault is recorded in its own
context and resumes its own call, and outside of all calls there is no current sandbox. -/
theorem sandbox_attribution (events : List Event) (h : stateInit.InOrderAlong events) :
    stateInit.RightAlong events :=
  inv_stateInit.rightAlong h

theorem sandbox_attribution_nested :
    stateInit.InOrderAlong
        [.execute 0 10, .setjmp 0, .execute 1 11, .setjmp 1, .finish 1, .fault 0 4096 1, .unwind 0] ∧
      stateInit.RightAlong
        [.execute 0 10, .setjmp 0, .execute 1 11, .setjmp 1, .finish 1, .fault 0 4096 1, .unwind 0] := by
  have hOrder : stateInit.InOrderAlong
      [.execute 0 10, .setjmp 0, .execute 1 11, .setjmp 1, .finish 1, .fault 0 4096 1, .unwind 0] := by
    refine ⟨trivial, trivial, trivial, trivial, ?_, ?_, ?_, trivial⟩
    · rintro f rest ⟨⟩
      rfl
    · rintro f rest ⟨⟩
      rfl
    · rintro f rest ⟨⟩
      rfl
  exact ⟨hOrder, sandbox_attribution _ hOrder⟩

/-- Two processes are in a sandbox each, and the first one faults: the fault is recorded for the second, and the
first goes on in the call of the second. -/
theorem fault_attributed_to_other :
    ((stateInit.step (.execute 0 10)).step (.setjmp 0) |>.step (.execute 1 11) |>.step (.setjmp 1)
        |>.step (.fault 0 4096 1)).frames 0 = [⟨11, some 10, .faulted⟩] ∧
      ¬stateInit.RightAlong [.execute 0 10, .setjmp 0, .execute 1 11, .setjmp 1, .fault 0 4096 1] := by
  refine ⟨by decide, ?_⟩
  intro hRight
  have hFault := hRight.2.2.2.2.2.2.2.2.2.1 0 4096 1 rfl 10 none [] (by decide)
  exact absurd hFault.1 (by decide)

end UnixOS.Sandbox
