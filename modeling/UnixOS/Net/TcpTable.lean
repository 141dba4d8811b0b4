import UnixOS.Net.TcpIp
import Mathlib.Tactic.IntervalCases

/-! # What the TCP functions change

Sending a packet leaves the connection table alone and adds at most that packet to the log of
sent packets. Every other TCP function changes one entry of the table, and the two byte loops of
the buffers append a block of bytes and remove one.
-/

namespace UnixOS.Net

open ByteMemory

theorem ntohl_htonl (v : UInt32) : ntohl (htonl v) = v := by
  apply UInt32.toBitVec_inj.mp
  apply BitVec.eq_of_getLsbD_eq
  intro k hk
  simp only [ntohl, htonl, UInt32.toBitVec_or, UInt32.toBitVec_and, UInt32.toBitVec_shiftLeft,
    UInt32.toBitVec_shiftRight]
  interval_cases k <;> simp

theorem sub64_of_le {a b : Nat} (hLe : b ≤ a) (hLt : a < 2 ^ 64) : sub64 a b = a - b := by
  unfold sub64
  omega

theorem add64_of_lt {a b : Nat} (h : a + b < 2 ^ 64) : add64 a b = a + b := Nat.mod_eq_of_lt h

section Fields

variable (s : NetStack) (i : Nat) (conn : TcpConnection) (iface : NetInterface)

@[simp] theorem setConnection_tcpConnections :
    (s.setConnection i conn).tcpConnections = Function.update s.tcpConnections i conn := rfl

@[simp] theorem setConnection_sent : (s.setConnection i conn).sent = s.sent := rfl

@[simp] theorem setConnection_interfaces :
    (s.setConnection i conn).interfaces = s.interfaces := rfl

@[simp] theorem setInterface_tcpConnections :
    (s.setInterface i iface).tcpConnections = s.tcpConnections := rfl

@[simp] theorem setInterface_sent : (s.setInterface i iface).sent = s.sent := rfl

@[simp] theorem transmit_tcpConnections (packet : Packet) :
    (s.transmit i packet).tcpConnections = s.tcpConnections := by
  unfold NetStack.transmit
  split <;> rfl

@[simp] theorem transmit_numInterfaces (packet : Packet) :
    (s.transmit i packet).numInterfaces = s.numInterfaces := by
  unfold NetStack.transmit
  split <;> rfl

theorem transmit_sent (packet : Packet) :
    (s.transmit i packet).sent = s.sent ∨ (s.transmit i packet).sent = s.sent ++ [(i, packet)] := by
  unfold NetStack.transmit
  split
  · exact Or.inr rfl
  · exact Or.inl rfl

end Fields

section Send

variable (s : NetStack) (i : Nat) (conn : TcpConnection) (flags : UInt8) (data : List UInt8)
  (mem : Bool)

@[simp] theorem tcpSendPacket_tcpConnections :
    (tcpSendPacket s conn flags data mem).1.tcpConnections = s.tcpConnections := by
  unfold tcpSendPacket
  split
  · rfl
  · split
    · rfl
    · dsimp only
      split <;> simp

@[simp] theorem tcpSendPacket_numInterfaces :
    (tcpSendPacket s conn flags data mem).1.numInterfaces = s.numInterfaces := by
  unfold tcpSendPacket
  split
  · rfl
  · split
    · rfl
    · dsimp only
      split <;> exact transmit_numInterfaces ..

theorem tcpSendPacket_sent :
    (tcpSendPacket s conn flags data mem).1.sent = s.sent ∨
      (tcpSendPacket s conn flags data mem).1.sent =
        s.sent ++ [(0, tcpPacket (s.interfaces 0) conn flags data)] := by
  unfold tcpSendPacket
  split
  · exact Or.inl rfl
  · split
    · exact Or.inl rfl
    · dsimp only
      split
      · simpa using transmit_sent s 0 (tcpPacket (s.interfaces 0) conn flags data)
      · exact transmit_sent s 0 (tcpPacket (s.interfaces 0) conn flags data)

variable {s conn flags data mem} in
theorem tcpSendPacket_of_eq {s' : NetStack} {success : Bool}
    (h : tcpSendPacket s conn flags data mem = (s', success)) :
    s'.tcpConnections = s.tcpConnections ∧ (s'.sent = s.sent ∨
      s'.sent = s.sent ++ [(0, tcpPacket (s.interfaces 0) conn flags data)]) := by
  have hStack : (tcpSendPacket s conn flags data mem).1 = s' := by rw [h]
  rw [← hStack]
  exact ⟨tcpSendPacket_tcpConnections s conn flags data mem,
    tcpSendPacket_sent s conn flags data mem⟩

variable {s} in
theorem tcpSendPacket_snd (h : s.numInterfaces ≠ 0) (conn : TcpConnection) (flags : UInt8)
    (data : List UInt8) (mem : Bool) : (tcpSendPacket s conn flags data mem).2 = mem := by
  unfold tcpSendPacket
  rw [if_neg h]
  cases mem with
  | false => rfl
  | true =>
    rw [if_neg (by decide)]
    dsimp only
    split <;> rfl

@[simp] theorem acknowledge_tcpConnections :
    (acknowledge s i conn mem).tcpConnections = Function.update s.tcpConnections i conn := by
  simp [acknowledge]

@[simp] theorem acknowledge_numInterfaces :
    (acknowledge s i conn mem).numInterfaces = s.numInterfaces := tcpSendPacket_numInterfaces ..

theorem acknowledge_setConnection (conn' : TcpConnection) :
    ((acknowledge s i conn mem).setConnection i conn').tcpConnections =
      Function.update s.tcpConnections i conn' := by
  rw [setConnection_tcpConnections, acknowledge_tcpConnections, Function.update_idem]

theorem acknowledge_sent :
    (acknowledge s i conn mem).sent = s.sent ∨
      (acknowledge s i conn mem).sent =
        s.sent ++ [(0, tcpPacket (s.interfaces 0) conn tcpAck [])] := by
  simpa [acknowledge] using tcpSendPacket_sent (s.setConnection i conn) conn tcpAck [] mem

end Send

/-! ### The buffers -/

theorem appendBytes_eq_fill {len n : Nat} (h : len + n < 2 ^ 64) (buf data : Mem) :
    appendBytes buf len data n = (fill buf len n data, len + n) := by
  induction n with
  | zero =>
    have hNone : fill buf len 0 data = buf := by
      funext x
      exact fill_outside (by omega)
    rw [appendBytes, hNone, Nat.add_zero]
  | succ n ih =>
    have hByte : Function.update (fill buf len n data) (len + n) (data n) =
        fill buf len (n + 1) data := by
      funext x
      cases Nat.lt_trichotomy x (len + n) with
      | inl hBelow =>
        rw [Function.update_of_ne (by omega)]
        unfold fill
        simp only [show x < len + n ↔ x < len + (n + 1) by omega]
      | inr hRest =>
        cases hRest with
        | inl hHere => rw [hHere, Function.update_self, fill_inside (by omega)]
        | inr hAbove =>
          rw [Function.update_of_ne (by omega), fill_outside (by omega), fill_outside (by omega)]
    rw [appendBytes, ih (by omega)]
    simp only [hByte, add64_of_lt (show len + n + 1 < 2 ^ 64 by omega), Nat.add_assoc]

/-- The bytes accepted on a connection that no `tcp_recv` has taken yet. -/
def TcpConnection.buffered (conn : TcpConnection) : List UInt8 :=
  (List.range conn.recvLen).map conn.recvBuf

@[simp] theorem length_buffered (conn : TcpConnection) : conn.buffered.length = conn.recvLen := by
  simp [TcpConnection.buffered]

theorem map_range_fill (buf data : Mem) (len n : Nat) :
    (List.range (len + n)).map (fill buf len n data) =
      (List.range len).map buf ++ (List.range n).map data := by
  rw [List.range_add, List.map_append, List.map_map]
  congr 1
  · apply List.map_congr_left
    intro j hj
    exact fill_outside (Or.inl (List.mem_range.mp hj))
  · apply List.map_congr_left
    intro j hj
    exact fill_inside (List.mem_range.mp hj)

theorem map_range_copy (buf : Mem) {taken len : Nat} (h : taken ≤ len) :
    (List.range taken).map buf ++ (List.range (len - taken)).map (copy buf 0 taken (len - taken)) =
      (List.range len).map buf := by
  have hSplit : List.range len = List.range taken ++ (List.range (len - taken)).map (taken + ·) := by
    rw [← List.range_add]
    congr 1
    omega
  rw [hSplit, List.map_append, List.map_map]
  congr 1
  apply List.map_congr_left
  intro j hj
  have hMoved := copy_inside (m := buf) (Nat.zero_le taken) (List.mem_range.mp hj)
  rwa [Nat.zero_add] at hMoved

theorem tcpRecv_buffered (s : NetStack) (i len : Nat) :
    (tcpRecv s i len).2 ++ ((tcpRecv s i len).1.tcpConnections i).buffered =
      (s.tcpConnections i).buffered := by
  unfold tcpRecv
  dsimp only
  split
  case isTrue hEmpty => simp
  case isFalse hSome =>
    simp only [setConnection_tcpConnections, Function.update_self, TcpConnection.buffered]
    apply map_range_copy
    split <;> omega

/-! ### One changed entry -/

structure Endpoints where
  localIp : UInt32
  localPort : UInt16
  remoteIp : UInt32
  remotePort : UInt16
deriving DecidableEq

def TcpConnection.endpoints (conn : TcpConnection) : Endpoints :=
  ⟨conn.localIp, conn.localPort, conn.remoteIp, conn.remotePort⟩

theorem setConnection_self (s : NetStack) (i : Nat) :
    s.setConnection i (s.tcpConnections i) = s := by
  rw [NetStack.setConnection, Function.update_eq_self]

theorem tcpRecv_eq (s : NetStack) (i len : Nat) :
    ∃ buf n, n ≤ (s.tcpConnections i).recvLen ∧ (tcpRecv s i len).1 =
      s.setConnection i { s.tcpConnections i with recvBuf := buf, recvLen := n } := by
  unfold tcpRecv
  dsimp only
  split
  case isTrue hEmpty => exact ⟨_, _, Nat.le_refl _, (setConnection_self s i).symm⟩
  case isFalse hSome => exact ⟨_, _, Nat.sub_le _ _, rfl⟩

theorem tcpSend_eq (s : NetStack) (i : Nat) (data : List UInt8) (mem : Bool) :
    ∃ buf n seq, (tcpSend s i data mem).1.tcpConnections = Function.update s.tcpConnections i
        { s.tcpConnections i with sendBuf := buf, sendLen := n, seq := seq } ∧
      ((tcpSend s i data mem).1.sent = s.sent ∨ (s.tcpConnections i).state = .established ∧
        ∃ conn, conn.ack = (s.tcpConnections i).ack ∧ (tcpSend s i data mem).1.sent =
          s.sent ++ [(0, tcpPacket (s.interfaces 0) conn (tcpPsh ||| tcpAck) data)]) := by
  have hStay : s.tcpConnections = Function.update s.tcpConnections i (s.tcpConnections i) :=
    (Function.update_eq_self _ _).symm
  unfold tcpSend
  dsimp only
  split
  case isTrue hState => exact ⟨_, _, _, hStay, Or.inl rfl⟩
  case isFalse hState =>
    have hState := Classical.not_not.mp hState
    split
    case isTrue hFull => exact ⟨_, _, _, hStay, Or.inl rfl⟩
    case isFalse hRoom =>
      split
      case h_1 s' hFail =>
        have hPacket := tcpSendPacket_of_eq hFail
        exact ⟨_, _, _, hPacket.1,
          hPacket.2.imp_right fun hMore => ⟨hState, _, rfl, hMore⟩⟩
      case h_2 s' hOk =>
        have hPacket := tcpSendPacket_of_eq hOk
        have hTable : ∀ conn, (s'.setConnection i conn).tcpConnections =
            Function.update s.tcpConnections i conn := by
          intro conn
          rw [setConnection_tcpConnections, hPacket.1, setConnection_tcpConnections,
            Function.update_idem]
        exact ⟨_, _, _, hTable _,
          hPacket.2.imp_right fun hMore => ⟨hState, _, rfl, hMore⟩⟩

theorem tcpConnect_cases (s : NetStack) (destIp : UInt32) (destPort : UInt16) (mem : ConnectMem) :
    ((tcpConnect s destIp destPort mem).1.tcpConnections = s.tcpConnections ∧
      ∀ i < maxTcpConnections, (s.tcpConnections i).inUse = true) ∨
    ∃ i < maxTcpConnections, (s.tcpConnections i).inUse = false ∧ ∃ conn,
      (tcpConnect s destIp destPort mem).1.tcpConnections = Function.update s.tcpConnections i conn ∧
      (conn.recvLen = 0 ∧ conn.recvCapacity = 65536) ∧
      (conn.inUse = true ↔ s.numInterfaces ≠ 0 ∧ mem.packet = true) ∧
      (s.numInterfaces ≠ 0 →
        conn.endpoints = ⟨(s.interfaces 0).ip, s.nextEphemeralPort, destIp, destPort⟩) := by
  unfold tcpConnect tcpAllocConnection
  split
  case h_1 hAlloc =>
    split at hAlloc
    case h_1 hFull =>
      refine Or.inl ⟨rfl, ?_⟩
      intro i hi
      have hUsed := List.find?_eq_none.mp hFull i (List.mem_range.mpr hi)
      simpa using hUsed
    case h_2 i hFree => cases hAlloc
  case h_2 i conn hAlloc =>
    split at hAlloc
    case h_1 hFull => cases hAlloc
    case h_2 i' hFree =>
      cases hAlloc
      have hi := List.mem_range.mp (List.mem_of_find?_eq_some hFree)
      have hUnused : (s.tcpConnections i).inUse = false := by simpa using List.find?_some hFree
      refine Or.inr ⟨i, hi, hUnused, ?_⟩
      split
      case isTrue hNone =>
        refine ⟨_, rfl, ⟨rfl, rfl⟩, ?_, fun hSome => absurd hNone hSome⟩
        exact iff_of_false nofun fun hOk => hOk.1 hNone
      case isFalse hSome =>
        dsimp only
        have hRet := tcpSendPacket_snd (s := { s with
          nextEphemeralPort := if s.nextEphemeralPort + 1 > 65000 then 49152 else s.nextEphemeralPort + 1
          tcpIsnCounter := tcpGenerateIsn s.tcpIsnCounter }) hSome
        split
        case h_1 s' hFail =>
          have hTable := (tcpSendPacket_of_eq hFail).1
          refine ⟨_, by rw [setConnection_tcpConnections, hTable], ⟨rfl, rfl⟩, ?_, fun _ => rfl⟩
          have hMem := (hRet _ _ _ _).symm.trans (congrArg Prod.snd hFail)
          exact iff_of_false nofun fun hOk => by
            rw [hMem] at hOk
            cases hOk.2
        case h_2 s' hOk =>
          have hTable := (tcpSendPacket_of_eq hOk).1
          refine ⟨_, by rw [setConnection_tcpConnections, hTable], ⟨rfl, rfl⟩, ?_, fun _ => rfl⟩
          have hMem := (hRet _ _ _ _).symm.trans (congrArg Prod.snd hOk)
          exact iff_of_true rfl ⟨hSome, hMem⟩

theorem appendBytes_snd (buf : Mem) (len : Nat) (data : Mem) {n : Nat} (h : 0 < n) :
    (appendBytes buf len data n).2 = add64 len n := by
  induction n with
  | zero => omega
  | succ n ih =>
    cases Nat.eq_zero_or_pos n with
    | inl hZero => rw [hZero]; rfl
    | inr hPos =>
      have hStep : (appendBytes buf len data (n + 1)).2 =
          add64 (appendBytes buf len data n).2 1 := rfl
      rw [hStep, ih hPos]
      unfold add64
      omega

/-- The next value of an entry keeps the connection's endpoints and buffer size, and its fill
level only moves within the buffer. -/
structure TcpConnection.Continues (old new : TcpConnection) : Prop where
  localIp : new.localIp = old.localIp
  localPort : new.localPort = old.localPort
  remoteIp : new.remoteIp = old.remoteIp
  remotePort : new.remotePort = old.remotePort
  inUse : new.inUse = true → old.inUse = true
  capacity : new.recvCapacity = old.recvCapacity
  recvLen : new.recvLen ≤ old.recvLen ∨ new.recvLen ≤ new.recvCapacity

theorem TcpConnection.Continues.of_endpoints {old new : TcpConnection}
    (hLocal : (new.localIp, new.localPort) = (old.localIp, old.localPort))
    (hRemote : (new.remoteIp, new.remotePort) = (old.remoteIp, old.remotePort))
    (hBuffer : (new.recvLen, new.recvCapacity) = (old.recvLen, old.recvCapacity))
    (hUse : new.inUse = true → old.inUse = true) : old.Continues new := by
  simp only [Prod.mk.injEq] at hLocal hRemote hBuffer
  exact ⟨hLocal.1, hLocal.2, hRemote.1, hRemote.2, hUse, hBuffer.2, Or.inl hBuffer.1.le⟩

/-- The table after a step that at most replaced entry `i` by a value that continues it. -/
def NetStack.Continues (s : NetStack) (i : Nat) (s' : NetStack) : Prop :=
  ∃ conn, s'.tcpConnections = Function.update s.tcpConnections i conn ∧
    (s.tcpConnections i).Continues conn

theorem continues_self (s : NetStack) (i : Nat) : s.Continues i s :=
  ⟨s.tcpConnections i, (Function.update_eq_self _ _).symm, .of_endpoints rfl rfl rfl id⟩

/-- What a segment can do to an entry: the send side stays, and the way to `ESTABLISHED` leads from
`SYN_SENT` only. -/
structure TcpConnection.Receives (old new : TcpConnection) : Prop extends old.Continues new where
  sendSide : (new.sendLen, new.sendCapacity) = (old.sendLen, old.sendCapacity)
  opening : new.state = .synSent → old.state = .synSent
  opened : new.state = .established → old.state = .established ∨ old.state = .synSent

theorem TcpConnection.Receives.of_endpoints {old new : TcpConnection}
    (hLocal : (new.localIp, new.localPort) = (old.localIp, old.localPort))
    (hRemote : (new.remoteIp, new.remotePort) = (old.remoteIp, old.remotePort))
    (hBuffer : (new.recvLen, new.recvCapacity) = (old.recvLen, old.recvCapacity))
    (hSend : (new.sendLen, new.sendCapacity) = (old.sendLen, old.sendCapacity))
    (hUse : new.inUse = true → old.inUse = true)
    (hState : new.state ∈ [.established, .synSent] →
      new.state = old.state ∨ new.state = .established ∧ old.state = .synSent) : old.Receives new := by
  refine ⟨.of_endpoints hLocal hRemote hBuffer hUse, hSend, ?_, ?_⟩
  · intro hSyn
    rcases hState (by simp [hSyn]) with hSame | ⟨hOpen, -⟩
    · exact hSame ▸ hSyn
    · rw [hSyn] at hOpen
      cases hOpen
  · intro hOpen
    rcases hState (by simp [hOpen]) with hSame | ⟨-, hSyn⟩
    · exact Or.inl (hSame ▸ hOpen)
    · exact Or.inr hSyn

/-- The stack after a segment was given to entry `i`. -/
def NetStack.Receives (s : NetStack) (i : Nat) (s' : NetStack) : Prop :=
  (∃ conn, s'.tcpConnections = Function.update s.tcpConnections i conn ∧
    (s.tcpConnections i).Receives conn) ∧ s'.numInterfaces = s.numInterfaces

theorem receives_self (s : NetStack) (i : Nat) : s.Receives i s :=
  ⟨⟨s.tcpConnections i, (Function.update_eq_self _ _).symm,
    .of_endpoints rfl rfl rfl rfl id fun _ => Or.inl rfl⟩, rfl⟩

theorem NetStack.Receives.continues {s s' : NetStack} {i : Nat} (h : s.Receives i s') :
    s.Continues i s' := by
  obtain ⟨⟨conn, hTable, hConn⟩, -⟩ := h
  exact ⟨conn, hTable, hConn.toContinues⟩

theorem handleEstablished_receives (s : NetStack) (i : Nat) (seg : Segment) (mem : Bool) :
    s.Receives i (handleEstablished s i seg mem).1 := by
  unfold handleEstablished
  dsimp only
  split
  case isTrue hFin =>
    exact ⟨⟨_, acknowledge_tcpConnections .., .of_endpoints rfl rfl rfl rfl id (by simp)⟩,
      acknowledge_numInterfaces ..⟩
  case isFalse hOpen =>
    split
    case isFalse hEmpty => exact receives_self s i
    case isTrue hSome =>
      split
      case isFalse hFull => exact receives_self s i
      case isTrue hFits =>
        refine ⟨⟨_, acknowledge_tcpConnections .., ⟨rfl, rfl, rfl, rfl, id, rfl, Or.inr ?_⟩, rfl, id,
          Or.inl⟩, acknowledge_numInterfaces ..⟩
        rw [appendBytes_snd _ _ _ hSome]
        exact hFits

theorem handleFinWait1_receives (s : NetStack) (i : Nat) (seg : Segment) (mem : Bool) :
    s.Receives i (handleFinWait1 s i seg mem) := by
  unfold handleFinWait1
  dsimp only
  split
  case isTrue hFin =>
    refine ⟨⟨_, acknowledge_setConnection .., .of_endpoints rfl rfl rfl rfl id ?_⟩,
      acknowledge_numInterfaces ..⟩
    dsimp only
    generalize (if seg.has tcpAck then TcpState.finWait2 else (s.tcpConnections i).state) = state
    split <;> simp
  case isFalse hOpen =>
    refine ⟨⟨_, setConnection_tcpConnections .., .of_endpoints rfl rfl rfl rfl id ?_⟩, rfl⟩
    dsimp only
    split <;> simp

theorem tcpStateMachine_receives (s : NetStack) (i : Nat) (seg : Segment) (mem : Bool) :
    s.Receives i (tcpStateMachine s i seg mem).1 := by
  unfold tcpStateMachine
  dsimp only
  split
  case h_1 hSynSent =>
    split
    case isTrue hSynAck =>
      exact ⟨⟨_, acknowledge_tcpConnections .., .of_endpoints rfl rfl rfl rfl id
        fun _ => Or.inr ⟨rfl, hSynSent⟩⟩, acknowledge_numInterfaces ..⟩
    case isFalse hOther =>
      split
      case isTrue hRst =>
        exact ⟨⟨_, setConnection_tcpConnections .., .of_endpoints rfl rfl rfl rfl nofun
          (by simp [tcpFreeConnection])⟩, rfl⟩
      case isFalse hNone => exact receives_self s i
  case h_2 hEstablished => exact handleEstablished_receives s i seg mem
  case h_3 hFinWait1 => exact handleFinWait1_receives s i seg mem
  case h_4 hFinWait2 =>
    split
    case isTrue hFin =>
      exact ⟨⟨_, acknowledge_setConnection .., .of_endpoints rfl rfl rfl rfl id (by simp)⟩,
        acknowledge_numInterfaces ..⟩
    case isFalse hNone => exact receives_self s i
  case h_5 hClosing =>
    split
    case isTrue hAck =>
      exact ⟨⟨_, setConnection_tcpConnections .., .of_endpoints rfl rfl rfl rfl id (by simp)⟩, rfl⟩
    case isFalse hNone => exact receives_self s i
  case h_6 hLastAck =>
    split
    case isTrue hAck =>
      exact ⟨⟨_, setConnection_tcpConnections .., .of_endpoints rfl rfl rfl rfl nofun
        (by simp [tcpFreeConnection])⟩, rfl⟩
    case isFalse hNone => exact receives_self s i
  case h_7 hTimeWait =>
    exact ⟨⟨_, setConnection_tcpConnections .., .of_endpoints rfl rfl rfl rfl nofun
      fun _ => Or.inl rfl⟩, rfl⟩
  case h_8 hOther => exact receives_self s i

theorem tcpRecv_continues (s : NetStack) (i len : Nat) : s.Continues i (tcpRecv s i len).1 := by
  obtain ⟨buf, n, hn, hNet⟩ := tcpRecv_eq s i len
  rw [hNet]
  exact ⟨_, setConnection_tcpConnections .., rfl, rfl, rfl, rfl, id, rfl, Or.inl hn⟩

theorem tcpSend_continues (s : NetStack) (i : Nat) (data : List UInt8) (mem : Bool) :
    s.Continues i (tcpSend s i data mem).1 := by
  obtain ⟨buf, n, seq, hTable, -⟩ := tcpSend_eq s i data mem
  exact ⟨_, hTable, .of_endpoints rfl rfl rfl id⟩

theorem tcpClose_continues (s : NetStack) (i : Nat) (mem : Bool) :
    s.Continues i (tcpClose s i mem).1 := by
  have hFin : ∀ conn conn', ((tcpSendPacket s conn (tcpFin ||| tcpAck) [] mem).1.setConnection i
      conn').tcpConnections = Function.update s.tcpConnections i conn' := by
    intro conn conn'
    rw [setConnection_tcpConnections, tcpSendPacket_tcpConnections]
  unfold tcpClose
  dsimp only
  split
  case isTrue hFree => exact continues_self s i
  case isFalse hUse =>
    split
    case h_1 hEstablished => exact ⟨_, hFin _ _, .of_endpoints rfl rfl rfl id⟩
    case h_2 hCloseWait => exact ⟨_, hFin _ _, .of_endpoints rfl rfl rfl id⟩
    case h_5 hOther => exact continues_self s i
    all_goals exact ⟨_, setConnection_tcpConnections .., .of_endpoints rfl rfl rfl nofun⟩

/-! ### The receive path -/

def NetStack.Progresses (s s' : NetStack) : Prop := ∃ i, s.Continues i s'

theorem progresses_of_table {s s' : NetStack} (h : s'.tcpConnections = s.tcpConnections) :
    s.Progresses s' := by
  obtain ⟨conn, hTable, hConn⟩ := continues_self s 0
  exact ⟨0, conn, h.trans hTable, hConn⟩

theorem tcpHandleSegment_progresses (s : NetStack) (srcIp dstIp : UInt32) (frame : Mem)
    (tcp tcpLen : Nat) (mem : Bool) :
    s.Progresses (tcpHandleSegment s srcIp dstIp frame tcp tcpLen mem).1 := by
  unfold tcpHandleSegment
  dsimp only
  split
  case h_1 hNone => exact progresses_of_table rfl
  case h_2 i hFound => exact ⟨i, (tcpStateMachine_receives ..).continues⟩

theorem arpHandle_tcpConnections (s : NetStack) (k : Nat) (frame : Mem) (arp : Nat) :
    (arpHandle s k frame arp).1.tcpConnections = s.tcpConnections := by
  unfold arpHandle
  dsimp only
  split
  case isTrue hRequest =>
    split
    case isTrue hOurs => exact transmit_tcpConnections ..
    case isFalse hOther => rfl
  case isFalse hNot => split <;> rfl

theorem ipHandle_progresses (s : NetStack) (frame : Mem) (ip len : Nat) (mem : Bool) :
    s.Progresses (ipHandle s frame ip len mem).1 := by
  unfold ipHandle
  dsimp only
  split
  case isTrue hVersion => exact progresses_of_table rfl
  case isFalse hVersion =>
    split
    case isTrue hShort => exact progresses_of_table rfl
    case isFalse hWhole =>
      split
      case isTrue hIcmp => exact progresses_of_table rfl
      case isFalse hNotIcmp =>
        split
        case isTrue hTcp => exact tcpHandleSegment_progresses ..
        case isFalse hOther => exact progresses_of_table rfl

theorem netRx_progresses (s : NetStack) (k : Nat) (frame : Mem) (len : Nat) (mem : Bool) :
    s.Progresses (netRx s k frame len mem).1 := by
  unfold netRx
  dsimp only
  split
  case isTrue hShort => exact progresses_of_table rfl
  case isFalse hWhole =>
    split
    case isTrue hArp =>
      split
      case isTrue hRoom => exact progresses_of_table (arpHandle_tcpConnections ..)
      case isFalse hNone => exact progresses_of_table rfl
    case isFalse hNotArp =>
      split
      case isTrue hIp =>
        split
        case isTrue hRoom => exact ipHandle_progresses ..
        case isFalse hNone => exact progresses_of_table rfl
      case isFalse hOther => exact progresses_of_table rfl

end UnixOS.Net
