import UnixOS.Lib.AccessLog
import Mathlib.Algebra.Order.Group.Nat
import Mathlib.Logic.Function.Basic

/-! # The rings of the virtio network driver

`virtio_net_send` and `virtio_net_poll` of `drivers/network/virtio_net.c`, with a record of the transmit buffers and
descriptors that they write, the receive buffers that they look up and the bytes that they give to `net_rx`, and a
device that returns transmit buffers when it likes and writes what it likes in the used ring of the receive queue.
-/

namespace UnixOS.VirtioNet

open AccessLog

def virtQueueSize : Nat := 16
def packetSize : Nat := 1524
def hdrSize : Nat := 10
def descFWrite : UInt16 := 2

structure VirtqDesc where
  len : UInt32
  flags : UInt16

structure VirtqUsedElem where
  id : UInt32
  len : UInt32

structure VirtQueue where
  desc : Nat → VirtqDesc
  ring : Nat → UInt16
  availIdx : UInt16
  used : Nat → VirtqUsedElem
  usedIdx : UInt16
  lastUsedIdx : UInt16

structure NetState where
  netBase : Bool
  netIface : Bool
  rxQ : VirtQueue
  txQ : VirtQueue
  txBufs : Nat → Nat → UInt8

inductive NetAccess
  | txByte (buf offset : Nat)
  | txDesc (desc : Nat)
  | rxBuf (id : Nat)
  | netRx (buf offset len : Nat)

abbrev NetRun (α : Type) : Type := Run NetState Unit NetAccess α

/-! ### Sending -/

def writeTx (buf offset : Nat) (b : UInt8) : NetRun Unit := do
  Run.access (.txByte buf offset)
  Run.modify fun s => { s with txBufs := Function.update s.txBufs buf (Function.update (s.txBufs buf) offset b) }

def writeBytes (buf : Nat) : Nat → List UInt8 → NetRun Unit
  | _, [] => pure ()
  | offset, b :: bytes => do
    writeTx buf offset b
    writeBytes buf (offset + 1) bytes

def VirtQueue.describe (q : VirtQueue) (d len : Nat) : VirtQueue :=
  { q with desc := Function.update q.desc d ⟨UInt32.ofNat len, 0⟩ }

def VirtQueue.push (q : VirtQueue) (id : UInt16) : VirtQueue :=
  { q with ring := Function.update q.ring (q.availIdx.toNat % virtQueueSize) id, availIdx := q.availIdx + 1 }

def virtioNetSend (data : List UInt8) : NetRun Int := do
  let s ← Run.get
  if s.netBase = false then pure (-1)
  else do
    let descIdx := s.txQ.availIdx.toNat % virtQueueSize
    writeBytes descIdx 0 (List.replicate hdrSize 0)
    writeBytes descIdx hdrSize data
    Run.access (.txDesc descIdx)
    Run.modify fun s => { s with txQ := s.txQ.describe descIdx (hdrSize + data.length) }
    Run.modify fun s => { s with txQ := s.txQ.push (UInt16.ofNat descIdx) }
    pure (Int.bmod data.length (2 ^ 32))

/-! ### Receiving -/

def passToStack (elem : VirtqUsedElem) : NetRun Unit :=
  if hdrSize < elem.len.toNat then Run.access (.netRx elem.id.toNat hdrSize (elem.len.toNat - hdrSize)) else pure ()

/-- A round of the loop. Between its rounds the call keeps nothing but the queue, so the device may write in
between; the round tells whether it has handled an entry. -/
def pollRound : NetRun Bool := do
  let s ← Run.get
  if s.netBase = false ∨ s.netIface = false then pure false
  else if s.rxQ.lastUsedIdx = s.rxQ.usedIdx then pure false
  else do
    let elem := s.rxQ.used (s.rxQ.lastUsedIdx.toNat % virtQueueSize)
    Run.access (.rxBuf elem.id.toNat)
    passToStack elem
    Run.modify fun s => { s with rxQ := s.rxQ.push elem.id.toUInt16 }
    Run.modify fun s => { s with rxQ := { s.rxQ with lastUsedIdx := s.rxQ.lastUsedIdx + 1 } }
    pure true

/-! ### Initialisation -/

def setupQueue (q : VirtQueue) : VirtQueue := { q with lastUsedIdx := 0, availIdx := 0 }

def fillRx (q : VirtQueue) : VirtQueue :=
  { q with
    desc := fun i => if i < virtQueueSize then ⟨UInt32.ofNat packetSize, descFWrite⟩ else q.desc i
    ring := fun i => if i < virtQueueSize then UInt16.ofNat i else q.ring i
    availIdx := UInt16.ofNat virtQueueSize }

/-- Where there is a device. The rings lie in fresh memory, whatever it holds. -/
def virtioNetInit (rxMem txMem : VirtQueue) (txBufs : Nat → Nat → UInt8) (netIface : Bool) : NetState where
  netBase := true
  netIface := netIface
  rxQ := fillRx (setupQueue rxMem)
  txQ := setupQueue txMem
  txBufs := txBufs

/-! ### The driver and the device -/

/-- `held d` counts how often the transmit buffer `d` has been made available and not been returned. -/
structure Net where
  state : NetState
  held : Nat → Nat

inductive NetStep
  | send (data : List UInt8)
  | poll
  | txReturn (d : Nat)
  | rxWrite (used : Nat → VirtqUsedElem) (usedIdx : UInt16)

namespace Net

variable (n : Net)

def slot : Nat := n.state.txQ.availIdx.toNat % virtQueueSize

/-- The device returns only what it has. -/
def step : NetStep → Option Net
  | .send data => some
    { state := (virtioNetSend data n.state).state
      held := if n.state.netBase then Function.update n.held n.slot (n.held n.slot + 1) else n.held }
  | .poll => some { n with state := (pollRound n.state).state }
  | .txReturn d => if 0 < n.held d then some { n with held := Function.update n.held d (n.held d - 1) } else none
  | .rxWrite used usedIdx => some
    { n with state := { n.state with rxQ := { n.state.rxQ with used := used, usedIdx := usedIdx } } }

def run (n : Net) : List NetStep → Option Net
  | [] => some n
  | step :: steps => (n.step step).bind fun n => n.run steps

/-! ### Ownership of the buffers -/

structure SendRight (data : List UInt8) : Prop where
  size : ∀ buf i, .txByte buf i ∈ (virtioNetSend data n.state).log → i < packetSize
  buffer : ∀ buf i, .txByte buf i ∈ (virtioNetSend data n.state).log → n.held buf = 0
  descriptor : ∀ d, .txDesc d ∈ (virtioNetSend data n.state).log → n.held d = 0
  full : (∀ d < virtQueueSize, 0 < n.held d) → virtioNetSend data n.state = ⟨.ok (-1), n.state, []⟩

def Takes : Prop :=
  n.state.netBase = true ∧ n.state.netIface = true ∧ n.state.rxQ.lastUsedIdx ≠ n.state.rxQ.usedIdx

def entry : VirtqUsedElem := n.state.rxQ.used (n.state.rxQ.lastUsedIdx.toNat % virtQueueSize)

structure GivesBack (q q' : VirtQueue) (id : UInt32) : Prop where
  ring : ∃ v : UInt16, v.toNat = id.toNat ∧ q'.ring = Function.update q.ring (q.availIdx.toNat % virtQueueSize) v
  availIdx : q'.availIdx = q.availIdx + 1
  lastUsedIdx : q'.lastUsedIdx = q.lastUsedIdx + 1

structure PollRight : Prop where
  index : ∀ id, .rxBuf id ∈ (pollRound n.state).log → id < virtQueueSize
  bytes : ∀ buf offset len, .netRx buf offset len ∈ (pollRound n.state).log → offset + len ≤ packetSize
  back : n.Takes → GivesBack n.state.rxQ (pollRound n.state).state.rxQ n.entry.id
  idle : ¬ n.Takes → pollRound n.state = ⟨.ok false, n.state, []⟩

def Right : NetStep → Prop
  | .send data => n.SendRight data
  | .poll => n.PollRight
  | .txReturn _ => True
  | .rxWrite _ _ => True

end Net

/-! ### One call -/

section Calls

variable {s : NetState} {n : Net} {data : List UInt8} {buf offset : Nat}

def txBytes (buf : Nat) : Nat → Nat → List NetAccess
  | _, 0 => []
  | offset, len + 1 => .txByte buf offset :: txBytes buf (offset + 1) len

theorem mem_txBytes {e : NetAccess} {len : Nat} :
    e ∈ txBytes buf offset len ↔ ∃ i, offset ≤ i ∧ i < offset + len ∧ e = .txByte buf i := by
  induction len generalizing offset with
  | zero => exact iff_of_false List.not_mem_nil fun ⟨i, hLow, hHigh, _⟩ => absurd hHigh (Nat.not_lt.mpr hLow)
  | succ len ih =>
    rw [txBytes, List.mem_cons, ih]
    constructor
    · rintro (rfl | ⟨i, hLow, hHigh, rfl⟩)
      · exact ⟨offset, Nat.le_refl _, by omega, rfl⟩
      · exact ⟨i, by omega, by omega, rfl⟩
    · rintro ⟨i, hLow, hHigh, rfl⟩
      rcases Nat.eq_or_lt_of_le hLow with rfl | hLow
      · exact Or.inl rfl
      · exact Or.inr ⟨i, hLow, by omega, rfl⟩

theorem txBytes_append (len len' : Nat) :
    txBytes buf offset len ++ txBytes buf (offset + len) len' = txBytes buf offset (len + len') := by
  induction len generalizing offset with
  | zero => rw [Nat.zero_add]; rfl
  | succ len ih =>
    rw [txBytes, List.cons_append, Nat.add_right_comm len 1, txBytes, ← ih, Nat.add_assoc offset, Nat.add_comm 1]

theorem writeBytes_run (bytes : List UInt8) :
    ∃ bufs, writeBytes buf offset bytes s = ⟨.ok (), { s with txBufs := bufs }, txBytes buf offset bytes.length⟩ := by
  induction bytes generalizing s offset with
  | nil => exact ⟨s.txBufs, rfl⟩
  | cons b bytes ih =>
    have hFirst : writeTx buf offset b s = ⟨.ok (),
        { s with txBufs := Function.update s.txBufs buf (Function.update (s.txBufs buf) offset b) },
        [.txByte buf offset]⟩ := rfl
    obtain ⟨bufs, hRest⟩ := @ih
      { s with txBufs := Function.update s.txBufs buf (Function.update (s.txBufs buf) offset b) } (offset + 1)
    refine ⟨bufs, ?_⟩
    rw [writeBytes, bind_of_ok hFirst, hRest]
    rfl

theorem virtioNetSend_run (h : s.netBase = true) (data : List UInt8) :
    ∃ bufs, virtioNetSend data s = ⟨.ok (Int.bmod data.length (2 ^ 32)),
      { s with
        txBufs := bufs
        txQ := (s.txQ.describe (s.txQ.availIdx.toNat % virtQueueSize) (hdrSize + data.length)).push
          (UInt16.ofNat (s.txQ.availIdx.toNat % virtQueueSize)) },
      txBytes (s.txQ.availIdx.toNat % virtQueueSize) 0 (hdrSize + data.length) ++
        [.txDesc (s.txQ.availIdx.toNat % virtQueueSize)]⟩ := by
  obtain ⟨bufs, hHeader⟩ := @writeBytes_run s (s.txQ.availIdx.toNat % virtQueueSize) 0 (List.replicate hdrSize 0)
  obtain ⟨bufs', hData⟩ := @writeBytes_run { s with txBufs := bufs } (s.txQ.availIdx.toNat % virtQueueSize) hdrSize data
  refine ⟨bufs', ?_⟩
  rw [virtioNetSend, bind_get, if_neg (by rw [h]; exact Bool.noConfusion), bind_of_ok hHeader, bind_of_ok hData,
    ← txBytes_append, List.append_assoc]
  rfl

theorem slot_lt (n : Net) : n.slot < virtQueueSize :=
  Nat.mod_lt _ (by decide)

theorem sendRight_iff (h : n.state.netBase = true) :
    n.SendRight data ↔ hdrSize + data.length ≤ packetSize ∧ n.held n.slot = 0 := by
  obtain ⟨bufs, hRun⟩ := virtioNetSend_run h data
  have hMem : ∀ e, e ∈ (virtioNetSend data n.state).log ↔
      (∃ i < hdrSize + data.length, e = .txByte n.slot i) ∨ e = .txDesc n.slot := by
    intro e
    rw [hRun, List.mem_append, mem_txBytes, List.mem_singleton]
    simp only [Nat.zero_le, true_and, Nat.zero_add]
    rfl
  constructor
  · intro hRight
    have hDesc := hRight.descriptor n.slot ((hMem _).mpr (Or.inr rfl))
    have hLast := hRight.size n.slot (hdrSize + data.length - 1)
      ((hMem _).mpr (Or.inl ⟨hdrSize + data.length - 1, by have : hdrSize = 10 := rfl; omega, rfl⟩))
    exact ⟨by omega, hDesc⟩
  · rintro ⟨hSize, hFree⟩
    refine ⟨fun buf i hi => ?_, fun buf i hi => ?_, fun d hd => ?_, fun hFull => ?_⟩
    · obtain ⟨j, hj, hSame⟩ | hSame := (hMem _).mp hi
      · cases hSame
        omega
      · cases hSame
    · obtain ⟨j, hj, hSame⟩ | hSame := (hMem _).mp hi
      · cases hSame
        exact hFree
      · cases hSame
    · obtain ⟨j, hj, hSame⟩ | hSame := (hMem _).mp hd
      · cases hSame
      · cases hSame
        exact hFree
    · exact absurd (hFull n.slot (slot_lt n)) (by omega)

theorem pollRound_idle (h : ¬ n.Takes) : pollRound n.state = ⟨.ok false, n.state, []⟩ := by
  rw [pollRound, bind_get]
  by_cases hOff : n.state.netBase = false ∨ n.state.netIface = false
  · rw [if_pos hOff]
    rfl
  · obtain ⟨hBase, hIface⟩ := not_or.mp hOff
    have hSame : n.state.rxQ.lastUsedIdx = n.state.rxQ.usedIdx := by
      by_contra hMore
      exact h ⟨Bool.eq_true_of_not_eq_false hBase, Bool.eq_true_of_not_eq_false hIface, hMore⟩
    rw [if_neg hOff, if_pos hSame]
    rfl

def passed (elem : VirtqUsedElem) : List NetAccess :=
  if hdrSize < elem.len.toNat then [.netRx elem.id.toNat hdrSize (elem.len.toNat - hdrSize)] else []

theorem passToStack_run (elem : VirtqUsedElem) : passToStack elem s = ⟨.ok (), s, passed elem⟩ := by
  unfold passToStack passed
  split <;> rfl

theorem pollRound_takes (h : n.Takes) :
    pollRound n.state = ⟨.ok true,
      { n.state with rxQ := { n.state.rxQ.push n.entry.id.toUInt16 with lastUsedIdx := n.state.rxQ.lastUsedIdx + 1 } },
      .rxBuf n.entry.id.toNat :: passed n.entry⟩ := by
  obtain ⟨hBase, hIface, hMore⟩ := h
  have hOn : ¬ (n.state.netBase = false ∨ n.state.netIface = false) := by
    rw [hBase, hIface]
    decide
  rw [pollRound, bind_get, if_neg hOn, if_neg hMore]
  dsimp only
  rw [bind_access, bind_of_ok (passToStack_run _)]
  exact congrArg (fun log => (⟨.ok true, _, .rxBuf n.entry.id.toNat :: log⟩ : Outcome NetState Unit NetAccess Bool))
    (List.append_nil (passed n.entry))

theorem pollRight_iff :
    n.PollRight ↔ (n.Takes → n.entry.id.toNat < virtQueueSize ∧ n.entry.len.toNat ≤ packetSize) := by
  by_cases hTakes : n.Takes
  · have hRun := pollRound_takes hTakes
    rw [imp_iff_right hTakes]
    constructor
    · intro h
      refine ⟨h.index _ (by rw [hRun]; exact List.mem_cons_self), ?_⟩
      by_cases hData : hdrSize < n.entry.len.toNat
      · have hBytes := h.bytes n.entry.id.toNat hdrSize (n.entry.len.toNat - hdrSize) (by
          rw [hRun, passed, if_pos hData]
          exact List.mem_cons_of_mem _ List.mem_cons_self)
        omega
      · exact Nat.le_trans (Nat.not_lt.mp hData) (by decide)
    · rintro ⟨hId, hLen⟩
      refine ⟨fun id hMem => ?_, fun buf offset len hMem => ?_, fun _ => ⟨⟨n.entry.id.toUInt16, ?_, ?_⟩, ?_, ?_⟩,
        fun h => absurd hTakes h⟩
      · rw [hRun, passed] at hMem
        rcases List.mem_cons.mp hMem with hSame | hMem
        · cases hSame
          exact hId
        · split at hMem <;> simp at hMem
      · rw [hRun, passed] at hMem
        rcases List.mem_cons.mp hMem with hSame | hMem
        · cases hSame
        · split at hMem
          · cases List.mem_singleton.mp hMem
            omega
          · cases hMem
      · have hSize : virtQueueSize = 16 := rfl
        rw [UInt32.toNat_toUInt16]
        omega
      · rw [hRun]
        rfl
      · rw [hRun]
        rfl
      · rw [hRun]
  · have hRun := pollRound_idle hTakes
    refine iff_of_true ⟨fun id hMem => ?_, fun buf offset len hMem => ?_, fun h => absurd h hTakes, fun _ => hRun⟩
      fun h => absurd h hTakes
    all_goals rw [hRun] at hMem; cases hMem

end Calls

/-! ### Runs -/

namespace NetStep

def isSend : NetStep → Bool
  | .send _ => true
  | _ => false

def isReturn (d : Nat) : NetStep → Bool
  | .txReturn d' => d' = d
  | _ => false

end NetStep

def sends (steps : List NetStep) : Nat := steps.countP NetStep.isSend

def returns (d : Nat) (steps : List NetStep) : Nat := steps.countP (NetStep.isReturn d)

def timesUsed (d k : Nat) : Nat := (k + (virtQueueSize - 1 - d)) / virtQueueSize

namespace Net

/-- A packet fits its buffer, and the device has returned the next buffer as often as it was used: it does not lag
a full ring behind. What the device has written about the next receive buffer is in range. -/
def Orderly (past : List NetStep) (n : Net) : NetStep → Prop
  | .send data => hdrSize + data.length ≤ packetSize ∧
      returns (sends past % virtQueueSize) past = sends past / virtQueueSize
  | .poll => n.Takes → n.entry.id.toNat < virtQueueSize ∧ n.entry.len.toNat ≤ packetSize
  | .txReturn _ => True
  | .rxWrite _ _ => True

def RightRun (n : Net) (steps : List NetStep) : Prop :=
  ∀ past step rest m, steps = past ++ step :: rest → n.run past = some m → m.Right step

def OrderlyRun (n : Net) (steps : List NetStep) : Prop :=
  ∀ past step rest m, steps = past ++ step :: rest → n.run past = some m → m.Orderly past step

def init (rxMem txMem : VirtQueue) (txBufs : Nat → Nat → UInt8) (netIface : Bool) : Net :=
  ⟨virtioNetInit rxMem txMem txBufs netIface, fun _ => 0⟩

/-- The indices count the calls, and each buffer is with the device as often as it was used and not returned. -/
structure Follows (past : List NetStep) (n : Net) : Prop where
  netBase : n.state.netBase = true
  availIdx : n.state.txQ.availIdx = UInt16.ofNat (sends past)
  held : ∀ d < virtQueueSize, n.held d + returns d past = timesUsed d (sends past)

section Runs

variable {n n' : Net} {past steps : List NetStep} {next : NetStep}

theorem Follows.slot (h : Follows past n) : n.slot = sends past % virtQueueSize := by
  rw [Net.slot, h.availIdx, UInt16.toNat_ofNat']
  exact Nat.mod_mod_of_dvd _ (by decide)

theorem timesUsed_succ {d : Nat} (hd : d < virtQueueSize) (k : Nat) :
    timesUsed d (k + 1) = timesUsed d k + if d = k % virtQueueSize then 1 else 0 := by
  unfold timesUsed virtQueueSize at *
  split <;> omega

theorem sends_concat : sends (past ++ [next]) = sends past + if next.isSend then 1 else 0 := by
  rw [sends, List.countP_append, List.countP_singleton]
  rfl

theorem returns_concat (d : Nat) : returns d (past ++ [next]) = returns d past + if next.isReturn d then 1 else 0 := by
  rw [returns, List.countP_append, List.countP_singleton]
  rfl

theorem pollRound_kept (s : NetState) :
    (pollRound s).state.netBase = s.netBase ∧ (pollRound s).state.txQ = s.txQ := by
  by_cases hTakes : Takes ⟨s, fun _ => 0⟩
  · have hRun := pollRound_takes hTakes
    rw [hRun]
    exact ⟨rfl, rfl⟩
  · have hRun := pollRound_idle hTakes
    rw [hRun]
    exact ⟨rfl, rfl⟩

theorem step_send (h : n.state.netBase = true) (data : List UInt8) : n.step (.send data) =
    some ⟨(virtioNetSend data n.state).state, Function.update n.held n.slot (n.held n.slot + 1)⟩ := by
  rw [Net.step, if_pos h]

theorem Follows.step (h : Follows past n) (hStep : n.step next = some n') : Follows (past ++ [next]) n' := by
  cases next with
  | send data =>
    obtain ⟨bufs, hRun⟩ := virtioNetSend_run h.netBase data
    rw [step_send h.netBase, hRun] at hStep
    obtain rfl := Option.some.inj hStep
    refine ⟨h.netBase, ?_, fun d hd => ?_⟩
    · rw [sends_concat]
      show n.state.txQ.availIdx + 1 = _
      rw [h.availIdx]
      exact (UInt16.ofNat_add _ _).symm
    · have hHeld := h.held d hd
      have hSends : sends (past ++ [.send data]) = sends past + 1 := sends_concat
      have hReturns : returns d (past ++ [.send data]) = returns d past := returns_concat d
      rw [hSends, hReturns, timesUsed_succ hd, ← h.slot, ← hHeld]
      dsimp only
      by_cases hSame : d = n.slot
      · rw [if_pos hSame, hSame, Function.update_self]
        omega
      · rw [if_neg hSame, Function.update_of_ne hSame]
        rfl
  | poll =>
    obtain rfl := Option.some.inj hStep
    have hKept := pollRound_kept n.state
    have hSends : sends (past ++ [.poll]) = sends past := sends_concat
    refine ⟨hKept.1.trans h.netBase, ?_, fun d hd => ?_⟩
    · rw [hSends, hKept.2]
      exact h.availIdx
    · have hReturns : returns d (past ++ [.poll]) = returns d past := returns_concat d
      rw [hSends, hReturns]
      exact h.held d hd
  | txReturn d =>
    rw [Net.step] at hStep
    split at hStep
    · rename_i hSome
      obtain rfl := Option.some.inj hStep
      have hSends : sends (past ++ [.txReturn d]) = sends past := sends_concat
      refine ⟨h.netBase, hSends ▸ h.availIdx, fun d' hd' => ?_⟩
      have hHeld := h.held d' hd'
      have hReturns : returns d' (past ++ [.txReturn d]) = returns d' past + if decide (d = d') then 1 else 0 :=
        returns_concat d'
      rw [hSends, hReturns, ← hHeld]
      dsimp only
      by_cases hSame : d' = d
      · rw [hSame, Function.update_self, decide_eq_true rfl, if_pos rfl]
        omega
      · rw [Function.update_of_ne hSame, decide_eq_false (Ne.symm hSame)]
        rfl
    · cases hStep
  | rxWrite used usedIdx =>
    obtain rfl := Option.some.inj hStep
    have hSends : sends (past ++ [.rxWrite used usedIdx]) = sends past := sends_concat
    refine ⟨h.netBase, hSends ▸ h.availIdx, fun d hd => ?_⟩
    have hReturns : returns d (past ++ [.rxWrite used usedIdx]) = returns d past := returns_concat d
    rw [hSends, hReturns]
    exact h.held d hd

theorem Follows.run (h : Follows past n) (hRun : n.run steps = some n') : Follows (past ++ steps) n' := by
  induction steps generalizing past n with
  | nil =>
    obtain rfl := Option.some.inj hRun
    rwa [List.append_nil]
  | cons next steps ih =>
    obtain ⟨m, hStep, hRest⟩ := Option.bind_eq_some_iff.mp hRun
    rw [List.append_cons]
    exact ih (h.step hStep) hRest

theorem follows_init (rxMem txMem : VirtQueue) (txBufs : Nat → Nat → UInt8) (netIface : Bool) :
    Follows [] (init rxMem txMem txBufs netIface) where
  netBase := rfl
  availIdx := rfl
  held := by
    intro d hd
    show 0 = (0 + (virtQueueSize - 1 - d)) / virtQueueSize
    rw [Nat.div_eq_of_lt]
    have hSize : virtQueueSize = 16 := rfl
    omega

theorem Follows.right_iff (h : Follows past n) : n.Right next ↔ n.Orderly past next := by
  cases next with
  | send data =>
    have hHeld := h.held n.slot (slot_lt n)
    have hTimes : timesUsed n.slot (sends past) = sends past / virtQueueSize := by
      rw [h.slot]
      unfold timesUsed virtQueueSize
      omega
    rw [Right, Orderly, sendRight_iff h.netBase, ← h.slot, ← hTimes]
    exact and_congr_right fun _ => by omega
  | poll => exact pollRight_iff
  | txReturn d => exact Iff.rfl
  | rxWrite used usedIdx => exact Iff.rfl

/-- Over every run of the driver and the device. -/
theorem rightRun_iff (rxMem txMem : VirtQueue) (txBufs : Nat → Nat → UInt8) (netIface : Bool) (steps : List NetStep) :
    (init rxMem txMem txBufs netIface).RightRun steps ↔ (init rxMem txMem txBufs netIface).OrderlyRun steps :=
  forall_congr' fun past => forall_congr' fun _ => forall_congr' fun _ => forall_congr' fun _ =>
    forall_congr' fun _ => forall_congr' fun hRun =>
      (List.nil_append past ▸ (follows_init rxMem txMem txBufs netIface).run hRun).right_iff

theorem run_sends (data : List UInt8) (k : Nat) : ∃ m, n.run (List.replicate k (.send data)) = some m := by
  induction k generalizing n with
  | zero => exact ⟨n, rfl⟩
  | succ k ih => exact ih

def noQueue : VirtQueue := ⟨fun _ => ⟨0, 0⟩, fun _ => 0, 0, fun _ => ⟨0, 0⟩, 0, 0⟩

/-- Seventeen packets before the device returns the first, and an entry of the used ring with an index out of range. -/
theorem not_rightRun :
    ¬ (init noQueue noQueue (fun _ _ => 0) true).RightRun (List.replicate 17 (.send [])) ∧
      ¬ (init noQueue noQueue (fun _ _ => 0) true).RightRun [.rxWrite (fun _ => ⟨16, 60⟩) 1, .poll] := by
  constructor
  · intro h
    obtain ⟨m, hRun⟩ := @run_sends (init noQueue noQueue (fun _ _ => 0) true) [] 16
    have hRight := h (List.replicate 16 (.send [])) (.send []) [] m rfl hRun
    have hOrderly := ((follows_init noQueue noQueue (fun _ _ => 0) true).run hRun).right_iff.mp hRight
    exact absurd hOrderly.2 (by decide)
  · intro h
    have hRight := h [.rxWrite (fun _ => ⟨16, 60⟩) 1] .poll [] _ rfl rfl
    have hEntry := pollRight_iff.mp hRight ⟨rfl, rfl, by decide⟩
    exact absurd hEntry.1 (by decide)

end Runs

end Net

end UnixOS.VirtioNet
