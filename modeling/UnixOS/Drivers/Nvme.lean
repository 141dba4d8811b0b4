import Mathlib.Logic.Function.Basic
import Mathlib.Tactic.IntervalCases

/-! # NVMe input and output queues

`storage_nvme_submit_io` and `storage_nvme_rw` of `kernel/drivers/storage.c`, and a controller that obeys the
queue rules: it fetches commands in order and posts one completion for each, in order, with the phase tag in
bit 0 of the status field and the status code in bits 1 to 11.
-/

namespace UnixOS.Storage.Nvme

def nvmeIoQDepth : Nat := 16
def nvmePageSize : Nat := 4096

/-- A submission queue entry; the fields that are always 0 are left out. -/
structure Sqe where
  opcode : Nat
  cid : Nat
  nsid : Nat
  prp1 : Nat
  cdw10 : Nat
  cdw11 : Nat
  cdw12 : Nat

structure Cqe where
  cid : Nat
  status : Nat

structure Ctx where
  active : Bool
  nsid : Nat
  sectorSize : Nat
  ioBuffer : Nat
  ioSq : Nat → Sqe
  ioSqTail : Nat
  ioCqHead : Nat
  ioPhase : Nat

/-- The loop that waits for the completion, over the rounds that it makes before the deadline: in each it
sees the completion queue as it is then. -/
def waitCompletion (cid : Nat) (ctx : Ctx) : List (Nat → Cqe) → Ctx × Int
  | [] => (ctx, -1)
  | cq :: rounds =>
    let entry := cq ctx.ioCqHead
    if (entry.status >>> 15) &&& 1 = ctx.ioPhase then
      if entry.cid ≠ cid ∨ (entry.status >>> 1) &&& 0x7FF ≠ 0 then (ctx, -1)
      else
        let head := (ctx.ioCqHead + 1) % nvmeIoQDepth
        ({ ctx with ioCqHead := head, ioPhase := if head = 0 then ctx.ioPhase ^^^ 1 else ctx.ioPhase }, 0)
    else waitCompletion cid ctx rounds

/-- The part of `storage_nvme_submit_io` up to the doorbell. -/
def submit (ctx : Ctx) (cmd : Sqe) : Ctx :=
  { ctx with
    ioSq := Function.update ctx.ioSq ctx.ioSqTail { cmd with cid := ctx.ioSqTail }
    ioSqTail := (ctx.ioSqTail + 1) % nvmeIoQDepth }

def storageNvmeSubmitIo (ctx : Ctx) (cmd : Sqe) (rounds : List (Nat → Cqe)) : Ctx × Int :=
  waitCompletion ctx.ioSqTail (submit ctx cmd) rounds

def rwCommand (ctx : Ctx) (lba count : Nat) (write : Bool) : Option Sqe :=
  if ctx.active = false ∨ count = 0 then none
  else if (count * ctx.sectorSize) % 2 ^ 32 > nvmePageSize then none
  else
    some
      { opcode := if write then 1 else 2, cid := 0, nsid := ctx.nsid, prp1 := ctx.ioBuffer,
        cdw10 := lba % 2 ^ 32, cdw11 := lba >>> 32, cdw12 := count - 1 }

def storageNvmeRw (ctx : Ctx) (lba count : Nat) (write : Bool) (rounds : List (Nat → Cqe)) : Ctx × Int :=
  match rwCommand ctx lba count write with
  | none => (ctx, -1)
  | some cmd => storageNvmeSubmitIo ctx cmd rounds

/-! ### The controller -/

structure Controller where
  cq : Nat → Cqe
  /-- Where it fetches the next command. -/
  fetch : Nat
  /-- Where it posts the next completion, and with which phase tag. -/
  post : Nat
  tag : Nat

/-- How a command ends: its status code and the other bits of the status field, and how often the driver looks
before and after the completion is posted. A completion that the driver never sees is posted after the
deadline. -/
structure Outcome where
  code : BitVec 11
  more : BitVec 4
  before : Nat
  after : Nat

def Outcome.status (o : Outcome) (tag : Nat) : Nat := o.more.toNat * 2 ^ 12 + o.code.toNat * 2 + tag

def Controller.complete (c : Controller) (sq : Nat → Sqe) (o : Outcome) : Controller :=
  let post := (c.post + 1) % nvmeIoQDepth
  { cq := Function.update c.cq c.post ⟨(sq c.fetch).cid, o.status c.tag⟩
    fetch := (c.fetch + 1) % nvmeIoQDepth
    post
    tag := if post = 0 then 1 - c.tag else c.tag }

structure Queues where
  ctx : Ctx
  device : Controller

structure Command where
  lba : Nat
  count : Nat
  write : Bool
  outcome : Outcome

namespace Queues

variable (s : Queues)

def completed (cmd : Sqe) (o : Outcome) : Controller := s.device.complete (submit s.ctx cmd).ioSq o

def rounds (cmd : Sqe) (o : Outcome) : List (Nat → Cqe) :=
  List.replicate o.before s.device.cq ++ List.replicate o.after (s.completed cmd o).cq

/-- A command from the call to its return; what `storage_nvme_rw` refuses does not reach the controller. -/
def run (c : Command) : Queues × Int :=
  match rwCommand s.ctx c.lba c.count c.write with
  | none => (s, -1)
  | some cmd =>
    let r := storageNvmeSubmitIo s.ctx cmd (s.rounds cmd c.outcome)
    (⟨r.1, s.completed cmd c.outcome⟩, r.2)

/-- A command that is submitted gets its own completion: the call returns 0 exactly when this was posted in
time with status code 0, the entry that the driver took, if any, is the one that the controller posted for the
command, and the driver goes on where the controller posts next. -/
structure Matched (c : Command) : Prop where
  result : (s.run c).2 = 0 ↔ 0 < c.outcome.after ∧ c.outcome.code = 0
  own : (s.run c).1.ctx.ioCqHead ≠ s.ctx.ioCqHead →
    0 < c.outcome.after ∧ s.ctx.ioCqHead = s.device.post ∧
      (s.run c).1.device.cq s.ctx.ioCqHead = ⟨s.ctx.ioSqTail, c.outcome.status s.device.tag⟩
  inStep : (s.run c).1.ctx.ioCqHead = (s.run c).1.device.post ∧
    (s.run c).1.ctx.ioPhase = (s.run c).1.device.tag

/-- Every command of a run that is submitted is matched. -/
def MatchedAlong (s : Queues) : List Command → Prop
  | [] => True
  | c :: cs =>
    ((rwCommand s.ctx c.lba c.count c.write).isSome → s.Matched c) ∧ (s.run c).1.MatchedAlong cs

def Smooth (o : Outcome) : Prop := 0 < o.after ∧ o.code = 0 ∧ (o.status s.device.tag) >>> 15 = s.device.tag

def SmoothAlong (s : Queues) : List Command → Prop
  | [] => True
  | c :: cs =>
    ((rwCommand s.ctx c.lba c.count c.write).isSome → s.Smooth c.outcome) ∧ (s.run c).1.SmoothAlong cs

end Queues

/-! ### Driver and controller in step -/

/-- The driver looks where the controller posts next, and bit 15 tells the entries of this pass over the ring
from those of the pass before. -/
structure Queues.InStep (s : Queues) : Prop where
  post_lt : s.device.post < nvmeIoQDepth
  tag_le : s.device.tag ≤ 1
  head_eq : s.ctx.ioCqHead = s.device.post
  phase_eq : s.ctx.ioPhase = s.device.tag
  fetch_eq : s.device.fetch = s.ctx.ioSqTail
  marked : ∀ i, i < nvmeIoQDepth →
    ((s.device.cq i).status >>> 15) &&& 1 = if i < s.device.post then s.device.tag else 1 - s.device.tag

section Steps

variable {s : Queues} {o : Outcome} {tag cid : Nat} {ctx : Ctx} {cq : Nat → Cqe}

theorem status_mark (hTag : tag ≤ 1) : (o.status tag >>> 15) &&& 1 = o.status tag >>> 15 := by
  have hCode := o.code.isLt
  have hMore := o.more.isLt
  rw [Nat.and_one_is_mod, Nat.shiftRight_eq_div_pow, Outcome.status]
  omega

theorem status_code (hTag : tag ≤ 1) : (o.status tag >>> 1) &&& 0x7FF = o.code.toNat := by
  have hCode := o.code.isLt
  have hMask := Nat.and_two_pow_sub_one_eq_mod (o.status tag >>> 1) 11
  rw [Nat.shiftRight_eq_div_pow] at hMask ⊢
  rw [hMask, Outcome.status]
  omega

theorem waitCompletion_skip (h : ((cq ctx.ioCqHead).status >>> 15) &&& 1 ≠ ctx.ioPhase) (n : Nat)
    (rounds : List (Nat → Cqe)) :
    waitCompletion cid ctx (List.replicate n cq ++ rounds) = waitCompletion cid ctx rounds := by
  induction n with
  | zero => rfl
  | succ n ih =>
    rw [List.replicate_succ, List.cons_append, waitCompletion, if_neg h]
    exact ih

theorem waitCompletion_take (hMark : ((cq ctx.ioCqHead).status >>> 15) &&& 1 = ctx.ioPhase)
    (hCid : (cq ctx.ioCqHead).cid = cid) (hCode : ((cq ctx.ioCqHead).status >>> 1) &&& 0x7FF = 0)
    (rounds : List (Nat → Cqe)) :
    waitCompletion cid ctx (cq :: rounds) =
      ({ ctx with
        ioCqHead := (ctx.ioCqHead + 1) % nvmeIoQDepth
        ioPhase := if (ctx.ioCqHead + 1) % nvmeIoQDepth = 0 then ctx.ioPhase ^^^ 1 else ctx.ioPhase }, 0) := by
  rw [waitCompletion, if_pos hMark, if_neg]
  rintro (hForeign | hFailed)
  · exact hForeign hCid
  · exact hFailed hCode

theorem waitCompletion_stuck
    (h : ((cq ctx.ioCqHead).status >>> 15) &&& 1 = ctx.ioPhase →
      ((cq ctx.ioCqHead).status >>> 1) &&& 0x7FF ≠ 0) (n : Nat) :
    waitCompletion cid ctx (List.replicate n cq) = (ctx, -1) := by
  induction n with
  | zero => rfl
  | succ n ih =>
    rw [List.replicate_succ, waitCompletion]
    split
    case isTrue hMark => rw [if_pos (Or.inr (h hMark))]
    case isFalse => exact ih

theorem Queues.run_eq {c : Command} {cmd : Sqe} (h : rwCommand s.ctx c.lba c.count c.write = some cmd) :
    s.run c = (⟨(storageNvmeSubmitIo s.ctx cmd (s.rounds cmd c.outcome)).1, s.completed cmd c.outcome⟩,
      (storageNvmeSubmitIo s.ctx cmd (s.rounds cmd c.outcome)).2) := by
  rw [Queues.run, h]

theorem Queues.InStep.posted (h : s.InStep) (cmd : Sqe) (o : Outcome) :
    (s.completed cmd o).cq s.ctx.ioCqHead = ⟨s.ctx.ioSqTail, o.status s.device.tag⟩ := by
  simp only [Queues.completed, Controller.complete, submit, h.head_eq, h.fetch_eq, Function.update_self]

theorem Queues.InStep.submitIo (h : s.InStep) (cmd : Sqe) (o : Outcome) :
    storageNvmeSubmitIo s.ctx cmd (s.rounds cmd o) =
      waitCompletion s.ctx.ioSqTail (submit s.ctx cmd) (List.replicate o.after (s.completed cmd o).cq) := by
  apply waitCompletion_skip
  have hStale := h.marked s.ctx.ioCqHead (h.head_eq ▸ h.post_lt)
  rw [if_neg (Nat.not_lt.mpr (Nat.le_of_eq h.head_eq.symm))] at hStale
  have hTag := h.tag_le
  have hPhase := h.phase_eq
  simp only [submit, hStale]
  omega

theorem Queues.InStep.smooth (h : s.InStep) (cmd : Sqe) (hSmooth : s.Smooth o) :
    storageNvmeSubmitIo s.ctx cmd (s.rounds cmd o) =
      ({ submit s.ctx cmd with
        ioCqHead := (s.completed cmd o).post
        ioPhase := (s.completed cmd o).tag }, 0) := by
  obtain ⟨hAfter, hCode, hMark⟩ := hSmooth
  obtain ⟨n, hn⟩ : ∃ n, o.after = n + 1 := ⟨o.after - 1, by omega⟩
  have hEntry := h.posted cmd o
  have hTag := h.tag_le
  have hFlip : s.device.tag ^^^ 1 = 1 - s.device.tag := by
    interval_cases s.device.tag <;> rfl
  rw [h.submitIo, hn, List.replicate_succ, waitCompletion_take]
  · simp only [submit, Queues.completed, Controller.complete, h.head_eq, h.phase_eq, hFlip]
  · change (((s.completed cmd o).cq s.ctx.ioCqHead).status >>> 15) &&& 1 = s.ctx.ioPhase
    rw [hEntry, status_mark hTag, hMark, h.phase_eq]
  · change ((s.completed cmd o).cq s.ctx.ioCqHead).cid = s.ctx.ioSqTail
    rw [hEntry]
  · change (((s.completed cmd o).cq s.ctx.ioCqHead).status >>> 1) &&& 0x7FF = 0
    rw [hEntry, status_code hTag, hCode]
    rfl

theorem Queues.InStep.stuck (h : s.InStep) (cmd : Sqe) (hRough : ¬s.Smooth o) :
    storageNvmeSubmitIo s.ctx cmd (s.rounds cmd o) = (submit s.ctx cmd, -1) := by
  have hEntry := h.posted cmd o
  have hTag := h.tag_le
  rw [h.submitIo]
  by_cases hAfter : 0 < o.after
  · apply waitCompletion_stuck
    simp only [submit] at hEntry ⊢
    rw [hEntry, status_mark hTag, status_code hTag, h.phase_eq]
    intro hMark hNone
    exact hRough ⟨hAfter, BitVec.eq_of_toNat_eq hNone, hMark⟩
  · rw [Nat.eq_zero_of_not_pos hAfter]
    rfl

theorem Queues.InStep.marked_completed (h : s.InStep) (cmd : Sqe)
    (hMark : o.status s.device.tag >>> 15 = s.device.tag) {i : Nat} (hi : i < nvmeIoQDepth) :
    (((s.completed cmd o).cq i).status >>> 15) &&& 1 =
      if i ≤ s.device.post then s.device.tag else 1 - s.device.tag := by
  by_cases hHere : i = s.device.post
  · rw [hHere, ← h.head_eq, h.posted, status_mark h.tag_le, hMark, h.head_eq, if_pos (Nat.le_refl _)]
  · simp only [Queues.completed, Controller.complete, Function.update_of_ne hHere, h.marked i hi]
    simp only [Nat.le_iff_lt_or_eq, hHere, or_false]

theorem Queues.InStep.advance (h : s.InStep) (cmd : Sqe) (hMark : o.status s.device.tag >>> 15 = s.device.tag) :
    Queues.InStep ⟨{ submit s.ctx cmd with
      ioCqHead := (s.completed cmd o).post
      ioPhase := (s.completed cmd o).tag }, s.completed cmd o⟩ := by
  have hPost := h.post_lt
  have hTag := h.tag_le
  have hDepth : nvmeIoQDepth = 16 := rfl
  have hNext : (s.completed cmd o).post = (s.device.post + 1) % nvmeIoQDepth := rfl
  have hNextTag : (s.completed cmd o).tag =
      if (s.completed cmd o).post = 0 then 1 - s.device.tag else s.device.tag := rfl
  constructor
  · exact Nat.mod_lt _ (by decide)
  · rw [hNextTag]
    split <;> omega
  · rfl
  · rfl
  · simp only [Queues.completed, Controller.complete, submit, h.fetch_eq]
  · intro i hi
    simp only
    rw [h.marked_completed cmd hMark hi, hNextTag, hNext]
    by_cases hWrap : s.device.post + 1 = nvmeIoQDepth
    · -- the pass is over: every entry carries the old tag
      rw [hWrap, Nat.mod_self, if_pos (by omega), if_pos rfl, if_neg (Nat.not_lt_zero i)]
      omega
    · have hPlus : (s.device.post + 1) % nvmeIoQDepth = s.device.post + 1 := Nat.mod_eq_of_lt (by omega)
      rw [hPlus, if_neg (Nat.succ_ne_zero _)]
      simp only [Nat.lt_succ_iff]

theorem Queues.InStep.matched_iff (h : s.InStep) {c : Command} {cmd : Sqe}
    (hCmd : rwCommand s.ctx c.lba c.count c.write = some cmd) : s.Matched c ↔ s.Smooth c.outcome := by
  have hPost := h.post_lt
  constructor
  · intro hMatched
    by_contra hRough
    have hHead := hMatched.inStep.1
    rw [Queues.run_eq hCmd, h.stuck cmd hRough] at hHead
    have hStay : s.device.post = (s.device.post + 1) % nvmeIoQDepth := h.head_eq.symm.trans hHead
    rw [nvmeIoQDepth] at hPost hStay
    omega
  · intro hSmooth
    constructor
    · rw [Queues.run_eq hCmd, h.smooth cmd hSmooth]
      exact iff_of_true rfl ⟨hSmooth.1, hSmooth.2.1⟩
    · intro _
      rw [Queues.run_eq hCmd]
      exact ⟨hSmooth.1, h.head_eq, h.posted cmd c.outcome⟩
    · rw [Queues.run_eq hCmd, h.smooth cmd hSmooth]
      exact ⟨rfl, rfl⟩

theorem Queues.InStep.run (h : s.InStep) {c : Command}
    (hSmooth : (rwCommand s.ctx c.lba c.count c.write).isSome → s.Smooth c.outcome) : (s.run c).1.InStep := by
  cases hCmd : rwCommand s.ctx c.lba c.count c.write with
  | none =>
    rw [Queues.run, hCmd]
    exact h
  | some cmd =>
    have hHere := hSmooth (by rw [hCmd]; rfl)
    rw [Queues.run_eq hCmd, h.smooth cmd hHere]
    exact h.advance cmd hHere.2.2

theorem Queues.InStep.matchedAlong_iff (h : s.InStep) (cs : List Command) :
    s.MatchedAlong cs ↔ s.SmoothAlong cs := by
  induction cs generalizing s with
  | nil => exact Iff.rfl
  | cons c cs ih =>
    have hStep : ((rwCommand s.ctx c.lba c.count c.write).isSome → s.Matched c) ↔
        ((rwCommand s.ctx c.lba c.count c.write).isSome → s.Smooth c.outcome) := by
      apply imp_congr_right
      intro hSome
      obtain ⟨cmd, hCmd⟩ := Option.isSome_iff_exists.mp hSome
      exact h.matched_iff hCmd
    rw [Queues.MatchedAlong, Queues.SmoothAlong, hStep]
    exact and_congr_right fun hSmooth => ih (h.run hSmooth)

end Steps

/-- The queues as `storage_probe_nvme_controller` and the controller's reset leave them. -/
def queuesInit (ctx : Ctx) : Queues :=
  ⟨{ ctx with ioSqTail := 0, ioCqHead := 0, ioPhase := 1 }, ⟨fun _ => ⟨0, 0⟩, 0, 0, 1⟩⟩

theorem inStep_queuesInit (ctx : Ctx) : (queuesInit ctx).InStep where
  post_lt := Nat.zero_lt_succ 15
  tag_le := Nat.le_refl 1
  head_eq := rfl
  phase_eq := rfl
  fetch_eq := rfl
  marked := by
    intro i _
    simp [queuesInit]

/-- Completions are matched to their commands exactly in the runs in which every one is posted in time, with
status code 0, and with its phase tag in bit 15 as well. -/
theorem nvme_completions_matched_iff (ctx : Ctx) (cs : List Command) :
    (queuesInit ctx).MatchedAlong cs ↔ (queuesInit ctx).SmoothAlong cs :=
  (inStep_queuesInit ctx).matchedAlong_iff cs

def oneDisk : Ctx := ⟨true, 1, 512, 0, fun _ => ⟨0, 0, 0, 0, 0, 0, 0⟩, 0, 0, 1⟩

example : (queuesInit oneDisk).SmoothAlong [⟨0, 1, false, ⟨0, 8, 1, 1⟩⟩] :=
  ⟨fun _ => ⟨by decide, rfl, by decide⟩, trivial⟩

theorem nvme_success_not_seen :
    ((queuesInit oneDisk).run ⟨0, 1, false, ⟨0, 0, 1, 100⟩⟩).2 = -1 ∧
      ¬(queuesInit oneDisk).MatchedAlong [⟨0, 1, false, ⟨0, 0, 1, 100⟩⟩] := by
  have hResult : ((queuesInit oneDisk).run ⟨0, 1, false, ⟨0, 0, 1, 100⟩⟩).2 = -1 := by decide
  refine ⟨hResult, ?_⟩
  intro hMatched
  have hZero := (hMatched.1 (by decide)).result.mpr ⟨by decide, rfl⟩
  rw [hResult] at hZero
  exact absurd hZero (by decide)

end UnixOS.Storage.Nvme
