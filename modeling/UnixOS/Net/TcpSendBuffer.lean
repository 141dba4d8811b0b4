import UnixOS.Net.TcpTable

/-! # What the send buffer counts

`tcp_send` appends to the send buffer before it builds the packet, and nothing ever takes bytes out
of the buffer again: the branch for acknowledgements is empty. The fill level is the number of bytes
in flight in the runs where no byte is acknowledged and every packet finds room.
-/

namespace UnixOS.Net

open ByteMemory

/-- The stack, the bytes that `tcp_send` took on one connection, and how many of them the peer has
acknowledged. -/
structure SendSession where
  net : NetStack
  sent : Nat
  acked : Nat

inductive SendEvent where
  | send (data : List UInt8) (mem : Bool)
  | recv (len : Nat)
  | segment (srcIp dstIp : UInt32) (frame : Mem) (tcp tcpLen covered : Nat) (mem : Bool)

namespace SendEvent

def next (i : Nat) (ss : SendSession) : SendEvent → SendSession
  | .send data mem =>
    { ss with net := (tcpSend ss.net i data mem).1, sent := ss.sent + (tcpSend ss.net i data mem).2.getD 0 }
  | .recv len => { ss with net := (tcpRecv ss.net i len).1 }
  | .segment srcIp dstIp frame tcp tcpLen covered mem =>
    { ss with
      net := (tcpHandleSegment ss.net srcIp dstIp frame tcp tcpLen mem).1
      acked := max ss.acked covered }

/-- A segment acknowledges bytes that were sent, by the sequence number behind them; the bytes of a
`tcp_send` lie in memory. -/
def Valid (first : UInt32) (ss : SendSession) : SendEvent → Prop
  | .send data _ => data.length < 2 ^ 63
  | .recv _ => True
  | .segment _ _ frame tcp _ covered _ =>
    covered ≤ ss.sent ∧
      if frame (tcp + 13) &&& tcpAck ≠ 0 then
        ntohl (load32 frame (tcp + 8)) = first + UInt32.ofNat covered
      else covered = 0

/-- On the established connection a packet that fits the buffer gets its memory, and no byte is
acknowledged. -/
def Clean (i : Nat) (ss : SendSession) : SendEvent → Prop
  | .send data mem =>
    (ss.net.tcpConnections i).state = .established →
      (ss.net.tcpConnections i).sendLen + data.length ≤ 65536 → mem = true
  | .recv _ => True
  | .segment _ _ _ _ _ covered _ => (ss.net.tcpConnections i).state = .established → covered = 0

end SendEvent

inductive SendRun (i : Nat) (first : UInt32) (start : SendSession) : SendSession → Prop
  | refl : SendRun i first start start
  | step {ss : SendSession} (event : SendEvent) : SendRun i first start ss → event.Valid first ss →
      event.Clean i ss → SendRun i first start (event.next i ss)

/-! ### One event -/

section Steps

variable {s : NetStack} {i : Nat} {data : List UInt8} {mem : Bool}

theorem tcpSend_refused (hSize : (s.tcpConnections i).sendLen + data.length < 2 ^ 64)
    (h : (s.tcpConnections i).state = .established →
      (s.tcpConnections i).sendCapacity < (s.tcpConnections i).sendLen + data.length) :
    tcpSend s i data mem = (s, none) := by
  unfold tcpSend
  dsimp only
  split
  case isTrue hClosed => rfl
  case isFalse hOpen =>
    rw [if_pos]
    rw [add64_of_lt hSize]
    exact h (not_not.mp hOpen)

theorem tcpSend_accepted (hSize : (s.tcpConnections i).sendLen + data.length < 2 ^ 64)
    (hIface : s.numInterfaces ≠ 0) (hOpen : (s.tcpConnections i).state = .established)
    (hRoom : (s.tcpConnections i).sendLen + data.length ≤ (s.tcpConnections i).sendCapacity) :
    (tcpSend s i data true).2 = some data.length ∧ ∃ buf seq,
      (tcpSend s i data true).1.tcpConnections = Function.update s.tcpConnections i
        { s.tcpConnections i with
          sendBuf := buf, sendLen := (s.tcpConnections i).sendLen + data.length, seq := seq } := by
  have hAdd := add64_of_lt hSize
  unfold tcpSend
  dsimp only
  rw [if_neg (not_not.mpr hOpen), if_neg (by rw [hAdd]; exact hRoom.not_gt),
    appendBytes_eq_fill hSize]
  split
  case h_1 s' hFail =>
    have hRet := congrArg Prod.snd hFail
    rw [tcpSendPacket_snd (by exact hIface)] at hRet
    cases hRet
  case h_2 s' hOk =>
    have hTable : ∀ conn, (s'.setConnection i conn).tcpConnections =
        Function.update s.tcpConnections i conn := by
      intro conn
      rw [setConnection_tcpConnections, (tcpSendPacket_of_eq hOk).1, setConnection_tcpConnections,
        Function.update_idem]
    exact ⟨rfl, _, _, hTable _⟩

theorem tcpSend_numInterfaces : (tcpSend s i data mem).1.numInterfaces = s.numInterfaces := by
  unfold tcpSend
  dsimp only
  split
  · rfl
  · split
    · rfl
    · split
      case h_1 s' hFail =>
        exact (congrArg (fun r => r.1.numInterfaces) hFail).symm.trans (tcpSendPacket_numInterfaces ..)
      case h_2 s' hOk =>
        exact (congrArg (fun r => r.1.numInterfaces) hOk).symm.trans (tcpSendPacket_numInterfaces ..)

end Steps

structure SendInv (i : Nat) (ss : SendSession) : Prop where
  interfaces : ss.net.numInterfaces ≠ 0
  capacity : (ss.net.tcpConnections i).sendCapacity = 65536
  sendLen : (ss.net.tcpConnections i).sendLen = ss.sent
  room : ss.sent ≤ 65536
  opening : (ss.net.tcpConnections i).state = .synSent → ss.sent = 0 ∧ ss.acked = 0
  opened : (ss.net.tcpConnections i).state = .established → ss.acked = 0

section Invariant

variable {i : Nat} {ss : SendSession} {first : UInt32}

theorem SendInv.send_cases (h : SendInv i ss) {data : List UInt8} {mem : Bool}
    (hSize : data.length < 2 ^ 63) (hClean : (SendEvent.send data mem).Clean i ss) :
    (tcpSend ss.net i data mem = (ss.net, none) ∧
      ((ss.net.tcpConnections i).state = .established → 65536 < ss.sent + data.length)) ∨
    ((ss.net.tcpConnections i).state = .established ∧ ss.sent + data.length ≤ 65536 ∧
      (tcpSend ss.net i data mem).2 = some data.length ∧ ∃ buf seq,
        (tcpSend ss.net i data mem).1.tcpConnections = Function.update ss.net.tcpConnections i
          { ss.net.tcpConnections i with sendBuf := buf, sendLen := ss.sent + data.length, seq := seq }) := by
  have hRoom := h.room
  have hFits : (ss.net.tcpConnections i).sendLen + data.length < 2 ^ 64 := by
    rw [h.sendLen]
    omega
  by_cases hSpace : (ss.net.tcpConnections i).state = .established ∧ ss.sent + data.length ≤ 65536
  · obtain ⟨hOpen, hSpace⟩ := hSpace
    obtain rfl : mem = true := hClean hOpen (by rw [h.sendLen]; exact hSpace)
    have hAccepted := tcpSend_accepted hFits h.interfaces hOpen (by rw [h.sendLen, h.capacity]; exact hSpace)
    rw [h.sendLen] at hAccepted
    exact Or.inr ⟨hOpen, hSpace, hAccepted⟩
  · have hFull : (ss.net.tcpConnections i).state = .established → 65536 < ss.sent + data.length :=
      fun hOpen => Nat.lt_of_not_le fun hLe => hSpace ⟨hOpen, hLe⟩
    refine Or.inl ⟨tcpSend_refused hFits ?_, hFull⟩
    rw [h.sendLen, h.capacity]
    exact hFull

theorem SendInv.receives (h : SendInv i ss) {k covered : Nat} {net : NetStack}
    (hNext : ss.net.Receives k net) (hSent : covered ≤ ss.sent)
    (hClean : (ss.net.tcpConnections i).state = .established → covered = 0) :
    SendInv i ⟨net, ss.sent, max ss.acked covered⟩ := by
  obtain ⟨⟨conn, hTable, hConn⟩, hNumber⟩ := hNext
  have hEntry : (ss.net.tcpConnections i).Receives (net.tcpConnections i) := by
    rw [hTable, Function.update_apply]
    split
    case isTrue hHere => exact hHere ▸ hConn
    case isFalse hElse => exact .of_endpoints rfl rfl rfl rfl id fun _ => Or.inl rfl
  obtain ⟨hLen, hCapacity⟩ := Prod.mk.inj hEntry.sendSide
  have hZero : (ss.net.tcpConnections i).state = .synSent → covered = 0 ∧ ss.acked = 0 := by
    intro hSyn
    obtain ⟨hNone, hAcked⟩ := h.opening hSyn
    omega
  refine ⟨hNumber ▸ h.interfaces, hCapacity.trans h.capacity, hLen.trans h.sendLen, h.room, ?_, ?_⟩
  · intro hSyn
    have hNone := h.opening (hEntry.opening hSyn)
    have hCovered := hZero (hEntry.opening hSyn)
    dsimp only
    omega
  · intro hOpen
    dsimp only
    rcases hEntry.opened hOpen with hWas | hWas
    · rw [h.opened hWas, hClean hWas, Nat.max_self]
    · rw [(hZero hWas).1, (hZero hWas).2, Nat.max_self]

theorem SendInv.refill (h : SendInv i ss) {net : NetStack} {conn : TcpConnection} {n : Nat}
    (hHere : net.tcpConnections i = conn) (hNumber : net.numInterfaces = ss.net.numInterfaces)
    (hState : conn.state = (ss.net.tcpConnections i).state)
    (hCapacity : conn.sendCapacity = (ss.net.tcpConnections i).sendCapacity) (hLen : conn.sendLen = n)
    (hRoom : n ≤ 65536) (hOpening : conn.state = .synSent → n = 0) :
    SendInv i ⟨net, n, ss.acked⟩ := by
  subst hHere
  refine ⟨hNumber ▸ h.interfaces, hCapacity.trans h.capacity, hLen, hRoom, ?_, ?_⟩
  · intro hSyn
    exact ⟨hOpening hSyn, (h.opening (hState ▸ hSyn)).2⟩
  · intro hOpen
    exact h.opened (hState ▸ hOpen)

theorem SendInv.next (h : SendInv i ss) {event : SendEvent} (hValid : event.Valid first ss)
    (hClean : event.Clean i ss) : SendInv i (event.next i ss) := by
  cases event with
  | recv len =>
    obtain ⟨buf, n, -, hNet⟩ := tcpRecv_eq ss.net i len
    rw [SendEvent.next, hNet]
    exact h.refill (Function.update_self ..) rfl rfl rfl h.sendLen h.room fun hSyn => (h.opening hSyn).1
  | segment srcIp dstIp frame tcp tcpLen covered mem =>
    have hSelf := h.receives (receives_self ss.net 0) hValid.1 hClean
    rw [SendEvent.next, tcpHandleSegment]
    dsimp only
    split
    case h_1 hNone => exact hSelf
    case h_2 k hFound => exact h.receives (tcpStateMachine_receives ..) hValid.1 hClean
  | send data mem =>
    obtain ⟨hRefused, -⟩ | ⟨hOpen, hSpace, hResult, buf, seq, hTable⟩ := h.send_cases hValid hClean
    · rw [SendEvent.next, hRefused]
      exact h
    · rw [SendEvent.next, hResult]
      refine h.refill ((congrFun hTable i).trans (Function.update_self ..)) tcpSend_numInterfaces rfl rfl
        rfl hSpace ?_
      intro hSyn
      have hWas : (ss.net.tcpConnections i).state = .synSent := hSyn
      rw [hOpen] at hWas
      cases hWas

theorem SendInv.run {start : SendSession} (h : SendInv i start) (hRun : SendRun i first start ss) :
    SendInv i ss := by
  induction hRun with
  | refl => exact h
  | step event _ hValid hClean ih => exact ih.next hValid hClean

end Invariant

instance (first : UInt32) (ss : SendSession) : (event : SendEvent) → Decidable (event.Valid first ss)
  | .send data _ => inferInstanceAs (Decidable (data.length < 2 ^ 63))
  | .recv _ => inferInstanceAs (Decidable True)
  | .segment .. => inferInstanceAs (Decidable (_ ∧ ite _ _ _))

instance (i : Nat) (ss : SendSession) : (event : SendEvent) → Decidable (event.Clean i ss)
  | .send .. => inferInstanceAs (Decidable (_ → _ → _))
  | .recv _ => inferInstanceAs (Decidable True)
  | .segment .. => inferInstanceAs (Decidable (_ → _))

end UnixOS.Net
