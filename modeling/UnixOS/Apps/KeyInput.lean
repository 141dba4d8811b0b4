import UnixOS.Lib.RingBuffer

/-! # Keyboard input of applications

The input ring of `kernel/apps/launcher.c` and the UART behind it. The keyboard driver queues keys in the
ring, bytes arrive at the UART, and applications take from both through `getc`, `get_key` and `has_key`.
-/

namespace UnixOS.Apps

open RingBuffer

def kapiInputBufSize : Nat := 128

structure KeyInput where
  kInputBuf : Nat → Int
  kInputR : Nat
  kInputW : Nat
  /-- The bytes that wait in the receiver of the UART. -/
  uart : List UInt8

def uartGetcNonblock (s : KeyInput) : Int × KeyInput :=
  match s.uart with
  | [] => (-1, s)
  | b :: rest => (b.toNat, { s with uart := rest })

def kapiSysKeyEvent (s : KeyInput) (key : Int) : KeyInput :=
  let next := (s.kInputW + 1) % kapiInputBufSize
  if next ≠ s.kInputR then
    { s with kInputBuf := Function.update s.kInputBuf s.kInputW key, kInputW := next }
  else s

def kapiGetc (s : KeyInput) : Int × KeyInput :=
  if s.kInputR ≠ s.kInputW then
    (s.kInputBuf s.kInputR, { s with kInputR := (s.kInputR + 1) % kapiInputBufSize })
  else uartGetcNonblock s

def kapiHasKey (s : KeyInput) : Int × KeyInput :=
  let (c, s) := uartGetcNonblock s
  (if c ≥ 0 then 1 else 0, s)

def kapiGetKey (s : KeyInput) : Int × KeyInput := uartGetcNonblock s

inductive KeyEvent where
  | key (key : Int)
  | byte (b : UInt8)
  | getc
  | getKey
  | hasKey

structure KeyTrace where
  input : KeyInput
  /-- The keys that were handed to `kapi_sys_key_event`. -/
  queued : List Int
  /-- What `kapi_getc` returned from the ring. -/
  fromRing : List Int
  arrived : List UInt8
  /-- What `kapi_getc` and `kapi_get_key` returned from the UART. -/
  fromUart : List Int
  /-- What `kapi_has_key` returned, and whether `kapi_getc` would have returned a key. -/
  polls : List (Int × Bool)

def keyTraceInit : KeyTrace := ⟨⟨fun _ => 0, 0, 0, []⟩, [], [], [], [], []⟩

def KeyInput.wouldReturnKey (s : KeyInput) : Bool := s.kInputR ≠ s.kInputW ∨ (uartGetcNonblock s).1 ≠ -1

namespace KeyTrace

variable (T : KeyTrace)

def received (r : Int × KeyInput) : KeyTrace :=
  { T with input := r.2, fromUart := if r.1 = -1 then T.fromUart else T.fromUart ++ [r.1] }

def step : KeyEvent → KeyTrace
  | .key key => { T with input := kapiSysKeyEvent T.input key, queued := T.queued ++ [key] }
  | .byte b => { T with input := { T.input with uart := T.input.uart ++ [b] }, arrived := T.arrived ++ [b] }
  | .getc =>
    let r := kapiGetc T.input
    if T.input.kInputR ≠ T.input.kInputW then { T with input := r.2, fromRing := T.fromRing ++ [r.1] }
    else T.received r
  | .getKey => T.received (kapiGetKey T.input)
  | .hasKey =>
    let r := kapiHasKey T.input
    { T with input := r.2, polls := T.polls ++ [(r.1, T.input.wouldReturnKey)] }

def after (events : List KeyEvent) : KeyTrace := events.foldl step T

def RingIntact : Prop :=
  ∃ keys, Holds kapiInputBufSize T.input.kInputBuf T.input.kInputR T.input.kInputW keys ∧
    T.queued = T.fromRing ++ keys

/-- Nothing is lost or reordered between the ring or the UART and the calls that return keys, and every poll
gave the right answer. -/
structure Intact : Prop where
  ring : T.RingIntact
  uart : T.arrived.map (fun b => (b.toNat : Int)) = T.fromUart ++ T.input.uart.map fun b => (b.toNat : Int)
  polls : ∀ p ∈ T.polls, p.1 = if p.2 then 1 else 0

/-- Keys are queued only while fewer than 127 wait in the ring. -/
def RoomAlong (T : KeyTrace) : List KeyEvent → Prop
  | [] => True
  | event :: events =>
    (∀ key, event = .key key → T.queued.length < T.fromRing.length + 127) ∧ (T.step event).RoomAlong events

/-- `kapi_has_key` is called only while no key and no byte is waiting. -/
def IdlePollsAlong (T : KeyTrace) : List KeyEvent → Prop
  | [] => True
  | event :: events =>
    (event = .hasKey → T.input.kInputR = T.input.kInputW ∧ T.input.uart = []) ∧
      (T.step event).IdlePollsAlong events

end KeyTrace

/-! ### Steps -/

section Steps

variable {T : KeyTrace}

theorem uartGetcNonblock_ring (s : KeyInput) :
    (uartGetcNonblock s).2.kInputBuf = s.kInputBuf ∧ (uartGetcNonblock s).2.kInputR = s.kInputR ∧
      (uartGetcNonblock s).2.kInputW = s.kInputW := by
  unfold uartGetcNonblock
  cases s.uart with
  | nil => exact ⟨rfl, rfl, rfl⟩
  | cons b rest => exact ⟨rfl, rfl, rfl⟩

theorem KeyTrace.RingIntact.of_eq (h : T.RingIntact) {T' : KeyTrace} (hRing :
    T'.input.kInputBuf = T.input.kInputBuf ∧ T'.input.kInputR = T.input.kInputR ∧
      T'.input.kInputW = T.input.kInputW) (hQueued : T'.queued = T.queued) (hFrom : T'.fromRing = T.fromRing) :
    T'.RingIntact := by
  obtain ⟨keys, hHolds, hKeys⟩ := h
  refine ⟨keys, ?_, ?_⟩
  · rw [hRing.1, hRing.2.1, hRing.2.2]
    exact hHolds
  · rw [hQueued, hFrom]
    exact hKeys

theorem KeyTrace.RingIntact.key (h : T.RingIntact) {key : Int}
    (hRoom : T.queued.length < T.fromRing.length + 127) : (T.step (.key key)).RingIntact := by
  obtain ⟨keys, hHolds, hKeys⟩ := h
  have hLength : keys.length + 1 < kapiInputBufSize := by
    rw [hKeys, List.length_append] at hRoom
    have hSize : kapiInputBufSize = 128 := rfl
    omega
  refine ⟨keys ++ [key], ?_, ?_⟩
  · simp only [KeyTrace.step, kapiSysKeyEvent, if_pos (hHolds.next_ne_read hLength)]
    exact hHolds.push hLength key
  · simp only [KeyTrace.step, hKeys, List.append_assoc]

theorem KeyTrace.RingIntact.getc (h : T.RingIntact) (hNonempty : T.input.kInputR ≠ T.input.kInputW) :
    (T.step .getc).RingIntact := by
  obtain ⟨keys, hHolds, hKeys⟩ := h
  cases keys with
  | nil => exact absurd (hHolds.read_eq_write_iff.mpr rfl) hNonempty
  | cons k rest =>
    obtain ⟨hFirst, hRest⟩ := hHolds.pop
    refine ⟨rest, ?_, ?_⟩
    · simp only [KeyTrace.step, kapiGetc, if_pos hNonempty]
      exact hRest
    · simp only [KeyTrace.step, kapiGetc, if_pos hNonempty, hFirst, hKeys, List.append_assoc, List.singleton_append]

theorem KeyTrace.received_uart (T : KeyTrace) :
    (T.received (uartGetcNonblock T.input)).fromUart ++
        (T.received (uartGetcNonblock T.input)).input.uart.map (fun b => (b.toNat : Int)) =
      T.fromUart ++ T.input.uart.map fun b => (b.toNat : Int) := by
  unfold KeyTrace.received uartGetcNonblock
  cases hUart : T.input.uart with
  | nil => simp [hUart]
  | cons b rest =>
    have hByte : (b.toNat : Int) ≠ -1 := by omega
    simp [hByte]

theorem KeyTrace.Intact.received (h : T.Intact) : (T.received (uartGetcNonblock T.input)).Intact where
  ring := h.ring.of_eq (uartGetcNonblock_ring T.input) rfl rfl
  uart := h.uart.trans T.received_uart.symm
  polls := h.polls

theorem KeyTrace.Intact.idlePoll (h : T.Intact) (hRing : T.input.kInputR = T.input.kInputW)
    (hUart : T.input.uart = []) : (T.step .hasKey).Intact := by
  have hNothing : uartGetcNonblock T.input = (-1, T.input) := by
    unfold uartGetcNonblock
    rw [hUart]
  have hPoll : kapiHasKey T.input = (0, T.input) := by
    unfold kapiHasKey
    rw [hNothing]
    rfl
  simp only [KeyTrace.step, hPoll]
  refine ⟨h.ring, h.uart, ?_⟩
  intro p hMem
  rcases List.mem_append.mp hMem with hOld | hNew
  · exact h.polls p hOld
  · rw [List.mem_singleton.mp hNew]
    simp [KeyInput.wouldReturnKey, hRing, hNothing]

theorem KeyTrace.Intact.step (h : T.Intact) {event : KeyEvent}
    (hRoom : ∀ key, event = .key key → T.queued.length < T.fromRing.length + 127)
    (hIdle : event = .hasKey → T.input.kInputR = T.input.kInputW ∧ T.input.uart = []) :
    (T.step event).Intact := by
  cases event with
  | key key =>
    refine ⟨h.ring.key (hRoom key rfl), ?_, h.polls⟩
    simp only [KeyTrace.step, kapiSysKeyEvent]
    split
    · exact h.uart
    · exact h.uart
  | byte b =>
    refine ⟨h.ring.of_eq ⟨rfl, rfl, rfl⟩ rfl rfl, ?_, h.polls⟩
    simp only [KeyTrace.step, List.map_append, List.map_cons, List.map_nil]
    rw [h.uart, List.append_assoc]
  | getc =>
    by_cases hRing : T.input.kInputR ≠ T.input.kInputW
    · refine ⟨h.ring.getc hRing, ?_, ?_⟩
      · simp only [KeyTrace.step, kapiGetc, if_pos hRing]
        exact h.uart
      · simp only [KeyTrace.step, if_pos hRing]
        exact h.polls
    · simp only [KeyTrace.step, kapiGetc, if_neg hRing]
      exact h.received
  | getKey => exact h.received
  | hasKey => exact h.idlePoll (hIdle rfl).1 (hIdle rfl).2

/-! ### Losses are not made good -/

/-- A byte that arrived is neither waiting nor was it returned, or a poll gave a wrong answer. -/
def KeyTrace.Lossy (T : KeyTrace) : Prop :=
  T.fromUart.length + T.input.uart.length < T.arrived.length ∨ ∃ p ∈ T.polls, p.1 ≠ if p.2 then 1 else 0

theorem KeyTrace.Lossy.not_intact (h : T.Lossy) : ¬T.Intact := by
  intro hIntact
  rcases h with hLess | ⟨p, hMem, hWrong⟩
  · have hLength := congrArg List.length hIntact.uart
    simp only [List.length_map, List.length_append] at hLength
    omega
  · exact hWrong (hIntact.polls p hMem)

theorem KeyTrace.length_received (T : KeyTrace) :
    (T.received (uartGetcNonblock T.input)).fromUart.length +
        (T.received (uartGetcNonblock T.input)).input.uart.length = T.fromUart.length + T.input.uart.length := by
  have hLength := congrArg List.length T.received_uart
  simpa only [List.length_append, List.length_map] using hLength

theorem length_kapiHasKey_uart (s : KeyInput) : (kapiHasKey s).2.uart.length ≤ s.uart.length := by
  unfold kapiHasKey uartGetcNonblock
  cases hUart : s.uart with
  | nil => simp [hUart]
  | cons b rest => simp

theorem KeyTrace.Lossy.step (h : T.Lossy) (event : KeyEvent) : (T.step event).Lossy := by
  rcases h with hLess | ⟨p, hMem, hWrong⟩
  · left
    cases event with
    | key key =>
      simp only [KeyTrace.step, kapiSysKeyEvent]
      split
      · exact hLess
      · exact hLess
    | byte b =>
      simp only [KeyTrace.step, List.length_append, List.length_singleton]
      omega
    | getc =>
      simp only [KeyTrace.step, kapiGetc]
      split
      · exact hLess
      · rw [KeyTrace.length_received]
        exact hLess
    | getKey =>
      simp only [KeyTrace.step, kapiGetKey]
      rw [KeyTrace.length_received]
      exact hLess
    | hasKey =>
      have hPoll := length_kapiHasKey_uart T.input
      simp only [KeyTrace.step]
      omega
  · right
    refine ⟨p, ?_, hWrong⟩
    cases event with
    | getc =>
      simp only [KeyTrace.step]
      split
      · exact hMem
      · exact hMem
    | hasKey => exact List.mem_append_left _ hMem
    | _ => exact hMem

theorem KeyTrace.Lossy.after (h : T.Lossy) (events : List KeyEvent) : (T.after events).Lossy := by
  induction events generalizing T with
  | nil => exact h
  | cons event events ih => exact ih (h.step event)

theorem KeyTrace.Intact.lossy_poll (h : T.Intact)
    (hBusy : ¬(T.input.kInputR = T.input.kInputW ∧ T.input.uart = [])) : (T.step .hasKey).Lossy := by
  cases hUart : T.input.uart with
  | cons b rest =>
    left
    have hLength := congrArg List.length h.uart
    have hPoll : (kapiHasKey T.input).2.uart = rest := by
      unfold kapiHasKey uartGetcNonblock
      rw [hUart]
    simp only [List.length_map, List.length_append, hUart, List.length_cons] at hLength
    simp only [KeyTrace.step, hPoll]
    omega
  | nil =>
    right
    have hRing : T.input.kInputR ≠ T.input.kInputW := fun hEq => hBusy ⟨hEq, hUart⟩
    have hPoll : (kapiHasKey T.input).1 = 0 := by
      unfold kapiHasKey uartGetcNonblock
      rw [hUart]
      rfl
    refine ⟨_, List.mem_append_right _ (List.mem_singleton.mpr rfl), ?_⟩
    simp [hPoll, KeyInput.wouldReturnKey, hRing]

theorem KeyTrace.Intact.after_iff (h : T.Intact) {events : List KeyEvent} (hRoom : T.RoomAlong events) :
    (T.after events).Intact ↔ T.IdlePollsAlong events := by
  induction events generalizing T with
  | nil => exact iff_of_true h trivial
  | cons event events ih =>
    by_cases hIdle : event = .hasKey → T.input.kInputR = T.input.kInputW ∧ T.input.uart = []
    · exact (ih (h.step hRoom.1 hIdle) hRoom.2).trans (and_iff_right hIdle).symm
    · obtain ⟨rfl, hBusy⟩ := Classical.not_imp.mp hIdle
      exact iff_of_false ((h.lossy_poll hBusy).after events).not_intact fun hAlong => hIdle hAlong.1

end Steps

theorem intact_keyTraceInit : keyTraceInit.Intact :=
  ⟨⟨[], ⟨by decide, rfl, by decide, rfl⟩, rfl⟩, rfl, fun _ hMem => absurd hMem List.not_mem_nil⟩

/-- Keyboard input is neither lost nor reordered, and polls are right, exactly in the runs that never poll
while a key or a byte is waiting. -/
theorem key_input_intact_iff (events : List KeyEvent) (hRoom : keyTraceInit.RoomAlong events) :
    (keyTraceInit.after events).Intact ↔ keyTraceInit.IdlePollsAlong events :=
  intact_keyTraceInit.after_iff hRoom

theorem key_input_intact_poll_first :
    keyTraceInit.RoomAlong [.hasKey, .key 97, .getc] ∧ (keyTraceInit.after [.hasKey, .key 97, .getc]).Intact := by
  have hRoom : keyTraceInit.RoomAlong [.hasKey, .key 97, .getc] := by
    refine ⟨?_, ?_, ?_, trivial⟩ <;> rintro key ⟨⟩
    decide
  exact ⟨hRoom, (key_input_intact_iff _ hRoom).mpr ⟨fun _ => ⟨rfl, rfl⟩, nofun, nofun, trivial⟩⟩

theorem kapi_has_key_swallows :
    keyTraceInit.RoomAlong [.byte 97, .hasKey, .getc] ∧
      (kapiGetc (keyTraceInit.after [.byte 97, .hasKey]).input).1 = -1 ∧
      ¬(keyTraceInit.after [.byte 97, .hasKey, .getc]).Intact := by
  refine ⟨⟨nofun, nofun, nofun, trivial⟩, by decide, ?_⟩
  intro hIntact
  exact absurd hIntact.uart (by decide)

end UnixOS.Apps
