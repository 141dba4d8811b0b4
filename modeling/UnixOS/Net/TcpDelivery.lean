import UnixOS.Net.TcpTable

/-! # What a connection delivers of its peer's stream

A peer sends one fixed byte string in segments that arrive in any order, any number of times or
not at all, between calls of `tcp_recv` and `tcp_send`. The receiver never compares a segment's
sequence number with what it has: it stores whatever fits and acknowledges it. The stream is
delivered in order and without repetition in every run where each stored segment happens to start
at the first missing byte and each `FIN` comes after the last byte.
-/

namespace UnixOS.Net

open ByteMemory

/-- The other side of a connection: its initial sequence number and all it will ever send. -/
structure Peer where
  endpoints : Endpoints
  iss : UInt32
  stream : List UInt8

/-- The `tcpLen` bytes at `tcp` are a segment of the peer whose data starts at offset `off` of the
stream. A `SYN` takes the sequence number before the first byte, a `FIN` the one after the last. -/
structure Peer.Sends (p : Peer) (frame : Mem) (tcp tcpLen off : Nat) : Prop where
  srcPort : ntohs (load16 frame tcp) = p.endpoints.remotePort
  dstPort : ntohs (load16 frame (tcp + 2)) = p.endpoints.localPort
  header : 20 ≤ tcpHeaderLen frame tcp ∧ tcpHeaderLen frame tcp ≤ tcpLen
  size : tcpLen < 2 ^ 16
  seq : (segmentAt frame tcp tcpLen).seq =
    p.iss + UInt32.ofNat (if (segmentAt frame tcp tcpLen).has tcpSyn then off else off + 1)
  syn : (segmentAt frame tcp tcpLen).has tcpSyn → off = 0
  inside : off + (tcpLen - tcpHeaderLen frame tcp) ≤ p.stream.length
  data : ∀ j < tcpLen - tcpHeaderLen frame tcp,
    frame (tcp + tcpHeaderLen frame tcp + j) = p.stream.getD (off + j) 0
  fin : (segmentAt frame tcp tcpLen).has tcpFin →
    off + (tcpLen - tcpHeaderLen frame tcp) = p.stream.length

inductive Event where
  | segment (frame : Mem) (tcp tcpLen off : Nat) (mem : Bool)
  | recv (len : Nat)
  | send (data : List UInt8) (mem : Bool)

/-- The stack together with everything `tcp_recv` has returned on one connection. -/
structure Session where
  net : NetStack
  received : List UInt8

def Session.step (p : Peer) (i : Nat) (ss : Session) : Event → Session
  | .segment frame tcp tcpLen _ mem =>
    { ss with
      net := (tcpHandleSegment ss.net p.endpoints.remoteIp p.endpoints.localIp frame tcp tcpLen
        mem).1 }
  | .recv len =>
    { net := (tcpRecv ss.net i len).1, received := ss.received ++ (tcpRecv ss.net i len).2 }
  | .send data mem => { ss with net := (tcpSend ss.net i data mem).1 }

def Session.delivered (ss : Session) (i : Nat) : List UInt8 :=
  ss.received ++ (ss.net.tcpConnections i).buffered

def ackNumber : Packet → Option UInt32
  | .tcp _ _ tcp _ => if tcp.flags &&& tcpAck ≠ 0 then some (ntohl tcp.ack) else none
  | _ => none

def acksSince (base : Nat) (s : NetStack) : List UInt32 :=
  (s.sent.drop base).filterMap fun packet => ackNumber packet.2

/-- Of a stream with `n` bytes delivered, the number acknowledges the `SYN` and delivered bytes,
or also the `FIN` when nothing is missing. -/
def Peer.Covers (p : Peer) (n : Nat) (ack : UInt32) : Prop :=
  (∃ k ≤ n, ack = p.iss + 1 + UInt32.ofNat k) ∨
    (n = p.stream.length ∧ ack = p.iss + 1 + UInt32.ofNat (p.stream.length + 1))

/-- A segment is one of the peer's; `tcp_recv` and `tcp_send` may be called at any time. -/
def Event.FromPeer (p : Peer) : Event → Prop
  | .segment frame tcp tcpLen off _ => p.Sends frame tcp tcpLen off
  | .recv _ => True
  | .send _ _ => True

/-- On an established connection a segment whose data is stored starts at the first byte that was
not delivered, and a `FIN` comes when every byte was. -/
def Event.InTurn (p : Peer) (i : Nat) (ss : Session) : Event → Prop
  | .segment frame tcp tcpLen off _ =>
    let conn := ss.net.tcpConnections i
    let seg := segmentAt frame tcp tcpLen
    conn.state = .established →
      if seg.has tcpFin then (ss.delivered i).length = p.stream.length
      else 0 < seg.dataLen → conn.recvLen + seg.dataLen ≤ conn.recvCapacity →
        off = (ss.delivered i).length
  | .recv _ => True
  | .send _ _ => True

inductive PeerRun (p : Peer) (i : Nat) (start : Session) : Session → Prop
  | refl : PeerRun p i start start
  | step {ss : Session} (event : Event) : PeerRun p i start ss → event.FromPeer p →
      event.InTurn p i ss → PeerRun p i start (ss.step p i event)

/-! ### Prefixes and coverage -/

theorem prefix_append_slice {d stream : List UInt8} (h : d <+: stream) (n : Nat) :
    d ++ (stream.drop d.length).take n <+: stream := by
  obtain ⟨rest, rfl⟩ := h
  rw [List.drop_left]
  exact (List.prefix_append_right_inj d).mpr (List.take_prefix n rest)

theorem map_range_eq_slice {stream : List UInt8} {data : Mem} {off n : Nat}
    (hInside : off + n ≤ stream.length) (hData : ∀ j < n, data j = stream.getD (off + j) 0) :
    (List.range n).map data = (stream.drop off).take n := by
  apply List.ext_getElem
  · simp
    omega
  · intro j hj hj'
    have hjn : j < n := by simpa using hj
    simp only [List.getElem_map, List.getElem_range, List.getElem_take, List.getElem_drop]
    rw [hData j hjn, List.getD_eq_getElem?_getD, List.getElem?_eq_getElem (by omega)]
    rfl

theorem Peer.Covers.mono {p : Peer} {n n' : Nat} {ack : UInt32} (h : p.Covers n ack)
    (hLe : n ≤ n') (hAll : n' ≤ p.stream.length) : p.Covers n' ack := by
  cases h with
  | inl hBytes =>
    obtain ⟨k, hk, hAck⟩ := hBytes
    exact Or.inl ⟨k, Nat.le_trans hk hLe, hAck⟩
  | inr hFin => exact Or.inr ⟨by omega, hFin.2⟩

theorem ackNumber_tcpPacket (iface : NetInterface) (conn : TcpConnection) (flags : UInt8)
    (data : List UInt8) : ackNumber (tcpPacket iface conn flags data) =
      if flags &&& tcpAck ≠ 0 then some conn.ack else none := by
  simp only [tcpPacket, ackNumber, ntohl_htonl]

/-- Between two stacks at most one packet was sent, and its acknowledgement number covers nothing
beyond `n` bytes. -/
def Peer.Answered (p : Peer) (n : Nat) (s s' : NetStack) : Prop :=
  s'.sent = s.sent ∨ ∃ conn flags data, p.Covers n conn.ack ∧
    s'.sent = s.sent ++ [(0, tcpPacket (s.interfaces 0) conn flags data)]

theorem Peer.Answered.acksSince {p : Peer} {n base : Nat} {s s' : NetStack}
    (h : p.Answered n s s') (hBase : base ≤ s.sent.length)
    (hOld : ∀ ack ∈ acksSince base s, p.Covers n ack) :
    base ≤ s'.sent.length ∧ ∀ ack ∈ acksSince base s', p.Covers n ack := by
  cases h with
  | inl hSame =>
    rw [Net.acksSince, hSame]
    exact ⟨hBase, hOld⟩
  | inr hMore =>
    obtain ⟨conn, flags, data, hNew, hMore⟩ := hMore
    constructor
    · rw [hMore, List.length_append]
      omega
    intro ack hAck
    rw [Net.acksSince, hMore, List.drop_append_of_le_length hBase, List.filterMap_append,
      List.mem_append] at hAck
    cases hAck with
    | inl hEarlier => exact hOld ack hEarlier
    | inr hLast =>
      simp only [List.filterMap_cons, List.filterMap_nil, ackNumber_tcpPacket] at hLast
      split at hLast
      · cases hLast
      · rename_i value hValue
        split at hValue
        · cases hValue
          rw [List.mem_singleton.mp hLast]
          exact hNew
        · cases hValue

theorem Peer.answered_acknowledge {p : Peer} {n : Nat} {conn : TcpConnection}
    (hCovers : p.Covers n conn.ack) (s : NetStack) (i : Nat) (mem : Bool) :
    p.Answered n s (acknowledge s i conn mem) :=
  (acknowledge_sent s i conn mem).imp_right fun hSent => ⟨conn, tcpAck, [], hCovers, hSent⟩

/-! ### The invariant of a session -/

structure SessionInv (p : Peer) (i base : Nat) (ss : Session) : Prop where
  index : i < maxTcpConnections
  endpoints : (ss.net.tcpConnections i).endpoints = p.endpoints
  alone : ∀ j < maxTcpConnections, j ≠ i → (ss.net.tcpConnections j).inUse →
    (ss.net.tcpConnections j).endpoints ≠ p.endpoints
  room : (ss.net.tcpConnections i).recvLen ≤ (ss.net.tcpConnections i).recvCapacity
  capacity : (ss.net.tcpConnections i).recvCapacity = 65536
  phase : (ss.net.tcpConnections i).state ∈
    [TcpState.synSent, .established, .closeWait, .closed]
  inOrder : ss.delivered i <+: p.stream
  acked : (ss.net.tcpConnections i).state = .established →
    p.Covers (ss.delivered i).length (ss.net.tcpConnections i).ack
  base_le : base ≤ ss.net.sent.length
  acks : ∀ ack ∈ acksSince base ss.net, p.Covers (ss.delivered i).length ack

theorem tcpFindConnection_pred (c : TcpConnection) (e : Endpoints) :
    (c.inUse && c.remoteIp == e.remoteIp && c.remotePort == e.remotePort &&
      c.localIp == e.localIp && c.localPort == e.localPort) = true ↔
      c.inUse = true ∧ c.endpoints = e := by
  obtain ⟨localIp, localPort, remoteIp, remotePort⟩ := e
  simp only [TcpConnection.endpoints, Endpoints.mk.injEq, Bool.and_eq_true, beq_iff_eq]
  tauto

section Step

variable {p : Peer} {i base : Nat} {ss : Session}

theorem SessionInv.find (h : SessionInv p i base ss) :
    tcpFindConnection ss.net p.endpoints.remoteIp p.endpoints.remotePort p.endpoints.localIp
      p.endpoints.localPort = if (ss.net.tcpConnections i).inUse then some i else none := by
  have hOnly : ∀ j < maxTcpConnections, (ss.net.tcpConnections j).inUse = true ∧
      (ss.net.tcpConnections j).endpoints = p.endpoints → j = i := by
    rintro j hj ⟨hUse, hSame⟩
    exact Classical.byContradiction fun hne => h.alone j hj hne hUse hSame
  unfold tcpFindConnection
  split
  case isTrue hUse =>
    rw [List.find?_range_eq_some]
    refine ⟨(tcpFindConnection_pred _ _).mpr ⟨hUse, h.endpoints⟩, List.mem_range.mpr h.index, ?_⟩
    intro j hj
    rw [Bool.not_eq_true', Bool.eq_false_iff]
    intro hMatch
    have hji := hOnly j (Nat.lt_trans hj h.index) ((tcpFindConnection_pred _ _).mp hMatch)
    omega
  case isFalse hFree =>
    rw [List.find?_eq_none]
    intro j hj hMatch
    have hMatch := (tcpFindConnection_pred _ _).mp hMatch
    rw [hOnly j (List.mem_range.mp hj) hMatch] at hMatch
    exact hFree hMatch.1

theorem SessionInv.change {ss' : Session} {conn : TcpConnection} (h : SessionInv p i base ss)
    (hTable : ss'.net.tcpConnections = Function.update ss.net.tcpConnections i conn)
    (hSent : p.Answered (ss'.delivered i).length ss.net ss'.net)
    (hEndpoints : conn.endpoints = (ss.net.tcpConnections i).endpoints)
    (hRoom : conn.recvLen ≤ conn.recvCapacity)
    (hCapacity : conn.recvCapacity = (ss.net.tcpConnections i).recvCapacity)
    (hPhase : conn.state ∈ [TcpState.synSent, .established, .closeWait, .closed])
    (hGrows : ss.delivered i <+: ss'.delivered i) (hInOrder : ss'.delivered i <+: p.stream)
    (hAcked : conn.state = .established → p.Covers (ss'.delivered i).length conn.ack) :
    SessionInv p i base ss' := by
  have hHere : ss'.net.tcpConnections i = conn := by rw [hTable, Function.update_self]
  have hOld : ∀ ack ∈ acksSince base ss.net, p.Covers (ss'.delivered i).length ack := by
    intro ack hAck
    exact (h.acks ack hAck).mono hGrows.length_le hInOrder.length_le
  exact
    { index := h.index
      endpoints := by rw [hHere, hEndpoints, h.endpoints]
      alone := by
        intro j hj hne
        rw [hTable, Function.update_of_ne hne]
        exact h.alone j hj hne
      room := by rw [hHere]; exact hRoom
      capacity := by rw [hHere, hCapacity, h.capacity]
      phase := by rw [hHere]; exact hPhase
      inOrder := hInOrder
      acked := by
        rw [hHere]
        exact hAcked
      base_le := (hSent.acksSince h.base_le hOld).1
      acks := (hSent.acksSince h.base_le hOld).2 }

theorem SessionInv.keep {net : NetStack} {conn : TcpConnection} (h : SessionInv p i base ss)
    (hTable : net.tcpConnections = Function.update ss.net.tcpConnections i conn)
    (hSent : p.Answered (ss.delivered i).length ss.net net)
    (hEndpoints : conn.endpoints = (ss.net.tcpConnections i).endpoints)
    (hBuf : conn.recvBuf = (ss.net.tcpConnections i).recvBuf)
    (hLen : conn.recvLen = (ss.net.tcpConnections i).recvLen)
    (hCapacity : conn.recvCapacity = (ss.net.tcpConnections i).recvCapacity)
    (hPhase : conn.state ∈ [TcpState.synSent, .established, .closeWait, .closed])
    (hAcked : conn.state = .established → p.Covers (ss.delivered i).length conn.ack) :
    SessionInv p i base { ss with net := net } := by
  have hSame : ({ ss with net := net } : Session).delivered i = ss.delivered i := by
    simp only [Session.delivered, hTable, Function.update_self, TcpConnection.buffered, hBuf, hLen]
  refine h.change hTable (hSame ▸ hSent) hEndpoints ?_ hCapacity hPhase ?_ ?_ (hSame ▸ hAcked)
  · rw [hLen, hCapacity]
    exact h.room
  · exact hSame.symm ▸ List.prefix_rfl
  · rw [hSame]
    exact h.inOrder

theorem flags_syn_of_syn_ack {seg : Segment}
    (h : seg.flags &&& (tcpSyn ||| tcpAck) = tcpSyn ||| tcpAck) : seg.has tcpSyn := by
  have hSyn : seg.flags &&& tcpSyn = tcpSyn := by
    calc seg.flags &&& tcpSyn = seg.flags &&& ((tcpSyn ||| tcpAck) &&& tcpSyn) := rfl
      _ = tcpSyn := by rw [← UInt8.and_assoc, h]; rfl
  rw [Segment.has, hSyn]
  decide

structure Peer.Owns (p : Peer) (seg : Segment) (off : Nat) : Prop where
  seq : seg.seq = p.iss + UInt32.ofNat (if seg.has tcpSyn then off else off + 1)
  syn : seg.has tcpSyn → off = 0
  short : seg.dataLen < 2 ^ 16
  inside : off + seg.dataLen ≤ p.stream.length
  data : ∀ j < seg.dataLen, seg.frame (seg.data + j) = p.stream.getD (off + j) 0
  fin : seg.has tcpFin → off + seg.dataLen = p.stream.length

theorem Peer.Sends.owns {frame : Mem} {tcp tcpLen off : Nat}
    (h : p.Sends frame tcp tcpLen off) : p.Owns (segmentAt frame tcp tcpLen) off := by
  have hLen : (segmentAt frame tcp tcpLen).dataLen = tcpLen - tcpHeaderLen frame tcp :=
    sub64_of_le h.header.2 (Nat.lt_trans h.size (by decide))
  refine ⟨h.seq, h.syn, ?_, ?_, ?_, ?_⟩
  · rw [hLen]
    exact Nat.lt_of_le_of_lt (Nat.sub_le _ _) h.size
  · rw [hLen]
    exact h.inside
  · rw [hLen]
    exact h.data
  · rw [hLen]
    exact h.fin

section Segments

variable {seg : Segment} {off : Nat}

theorem SessionInv.synSent (h : SessionInv p i base ss) (hOwns : p.Owns seg off)
    (hState : (ss.net.tcpConnections i).state = .synSent) (mem : Bool) :
    SessionInv p i base { ss with net := (tcpStateMachine ss.net i seg mem).1 } := by
  unfold tcpStateMachine
  simp only [hState]
  split
  case isTrue hSynAck =>
    have hSyn := flags_syn_of_syn_ack hSynAck
    have hSeq := hOwns.seq
    rw [if_pos hSyn, hOwns.syn hSyn] at hSeq
    have hCovers : p.Covers (ss.delivered i).length (seg.seq + 1) := by
      refine Or.inl ⟨0, Nat.zero_le _, ?_⟩
      rw [hSeq]
      simp
    exact h.keep (acknowledge_tcpConnections ..) (p.answered_acknowledge hCovers ..) rfl rfl rfl
      rfl (by simp) fun _ => hCovers
  case isFalse hOther =>
    split
    case isTrue hRst =>
      refine h.keep (setConnection_tcpConnections ..) (Or.inl rfl) rfl rfl rfl rfl ?_ ?_
      · simp [tcpFreeConnection]
      · intro hEstablished
        cases hEstablished
    case isFalse hNone => exact h

theorem Peer.Owns.seq_add (hOwns : p.Owns seg off) (n : Nat) :
    UInt32.ofNat (seg.seq.toNat + n) =
      p.iss + UInt32.ofNat (n + if seg.has tcpSyn then off else off + 1) := by
  rw [UInt32.ofNat_add, UInt32.ofNat_toNat, hOwns.seq, UInt32.ofNat_add, UInt32.add_assoc,
    UInt32.add_comm (UInt32.ofNat n)]

theorem iss_add_succ (iss : UInt32) (k : Nat) :
    iss + UInt32.ofNat (k + 1) = iss + 1 + UInt32.ofNat k := by
  rw [UInt32.ofNat_add, UInt32.add_comm (UInt32.ofNat k), ← UInt32.add_assoc]
  rfl

theorem Peer.Owns.covers_fin (hOwns : p.Owns seg off) (hFin : seg.has tcpFin) :
    p.Covers p.stream.length (UInt32.ofNat (seg.seq.toNat + seg.dataLen + 1)) := by
  have hEnd := hOwns.fin hFin
  rw [Nat.add_assoc, hOwns.seq_add]
  split
  case isTrue hSyn =>
    refine Or.inl ⟨p.stream.length, Nat.le_refl _, ?_⟩
    rw [← iss_add_succ]
    congr 2
    omega
  case isFalse hPlain =>
    refine Or.inr ⟨rfl, ?_⟩
    rw [← iss_add_succ]
    congr 2
    omega

theorem Peer.Owns.covers_data (hOwns : p.Owns seg off) (hSome : 0 < seg.dataLen) :
    p.Covers (off + seg.dataLen) (UInt32.ofNat (seg.seq.toNat + seg.dataLen)) := by
  rw [hOwns.seq_add]
  split
  case isTrue hSyn =>
    refine Or.inl ⟨off + seg.dataLen - 1, Nat.sub_le _ _, ?_⟩
    rw [← iss_add_succ]
    congr 2
    omega
  case isFalse hPlain =>
    refine Or.inl ⟨off + seg.dataLen, Nat.le_refl _, ?_⟩
    rw [← iss_add_succ]
    congr 2
    omega

theorem SessionInv.store (h : SessionInv p i base ss) (hOwns : p.Owns seg off)
    (hSome : 0 < seg.dataLen)
    (hFits : (ss.net.tcpConnections i).recvLen + seg.dataLen ≤
      (ss.net.tcpConnections i).recvCapacity)
    (hOff : off = (ss.delivered i).length) {conn : TcpConnection}
    (hBuf : conn.recvBuf = fill (ss.net.tcpConnections i).recvBuf (ss.net.tcpConnections i).recvLen
      seg.dataLen fun j => seg.frame (seg.data + j))
    (hLen : conn.recvLen = (ss.net.tcpConnections i).recvLen + seg.dataLen)
    (hAck : conn.ack = UInt32.ofNat (seg.seq.toNat + seg.dataLen))
    (hEndpoints : conn.endpoints = (ss.net.tcpConnections i).endpoints)
    (hCapacity : conn.recvCapacity = (ss.net.tcpConnections i).recvCapacity)
    (hState : conn.state = .established) (mem : Bool) :
    SessionInv p i base { ss with net := acknowledge ss.net i conn mem } := by
  have hGrown : ({ ss with net := acknowledge ss.net i conn mem } : Session).delivered i =
      ss.delivered i ++ (p.stream.drop (ss.delivered i).length).take seg.dataLen := by
    rw [← hOff, ← map_range_eq_slice hOwns.inside hOwns.data]
    simp only [Session.delivered, acknowledge_tcpConnections, Function.update_self,
      TcpConnection.buffered, hBuf, hLen, map_range_fill, List.append_assoc]
  have hInside := hOwns.inside
  have hLength : (({ ss with net := acknowledge ss.net i conn mem } : Session).delivered i).length =
      off + seg.dataLen := by
    rw [hGrown, List.length_append, List.length_take, List.length_drop, ← hOff]
    omega
  have hCovers := hOwns.covers_data hSome
  rw [← hAck, ← hLength] at hCovers
  refine h.change (acknowledge_tcpConnections ..) (p.answered_acknowledge hCovers ..) hEndpoints ?_
    hCapacity (by simp [hState]) ?_ ?_ fun _ => hCovers
  · rw [hLen, hCapacity]
    exact hFits
  · rw [hGrown]
    exact List.prefix_append _ _
  · rw [hGrown]
    exact prefix_append_slice h.inOrder _

theorem SessionInv.established (h : SessionInv p i base ss) (hOwns : p.Owns seg off)
    (hState : (ss.net.tcpConnections i).state = .established) (mem : Bool)
    (hTurn : if seg.has tcpFin then (ss.delivered i).length = p.stream.length
      else 0 < seg.dataLen → (ss.net.tcpConnections i).recvLen + seg.dataLen ≤
        (ss.net.tcpConnections i).recvCapacity → off = (ss.delivered i).length) :
    SessionInv p i base { ss with net := (handleEstablished ss.net i seg mem).1 } := by
  unfold handleEstablished
  dsimp only
  split
  case isTrue hFin =>
    rw [if_pos hFin] at hTurn
    have hCovers := hOwns.covers_fin hFin
    rw [← hTurn] at hCovers
    refine h.keep (acknowledge_tcpConnections ..) (p.answered_acknowledge hCovers ..) rfl rfl rfl
      rfl (by simp) ?_
    intro hNot
    cases hNot
  case isFalse hOpen =>
    rw [if_neg hOpen] at hTurn
    split
    case isFalse hEmpty => exact h
    case isTrue hSome =>
      have hNoWrap : (ss.net.tcpConnections i).recvLen + seg.dataLen < 2 ^ 64 := by
        have hCapacity := h.capacity
        have hRoom := h.room
        have hShort := hOwns.short
        omega
      rw [add64_of_lt hNoWrap]
      split
      case isFalse hFull => exact h
      case isTrue hFits =>
        have hFilled := appendBytes_eq_fill hNoWrap (ss.net.tcpConnections i).recvBuf
          fun j => seg.frame (seg.data + j)
        refine h.store hOwns hSome hFits (hTurn hSome hFits) ?_ ?_ ?_ ?_ ?_ ?_ mem
        exacts [congrArg Prod.fst hFilled, congrArg Prod.snd hFilled, rfl, rfl, rfl, hState]

theorem SessionInv.stateMachine (h : SessionInv p i base ss) (hOwns : p.Owns seg off) (mem : Bool)
    (hTurn : (ss.net.tcpConnections i).state = .established →
      if seg.has tcpFin then (ss.delivered i).length = p.stream.length
      else 0 < seg.dataLen → (ss.net.tcpConnections i).recvLen + seg.dataLen ≤
        (ss.net.tcpConnections i).recvCapacity → off = (ss.delivered i).length) :
    SessionInv p i base { ss with net := (tcpStateMachine ss.net i seg mem).1 } := by
  have hPhase := h.phase
  simp only [List.mem_cons, List.not_mem_nil, or_false] at hPhase
  rcases hPhase with hState | hState | hState | hState
  · exact h.synSent hOwns hState mem
  · have hStep := h.established hOwns hState mem (hTurn hState)
    simpa only [tcpStateMachine, hState] using hStep
  · simpa only [tcpStateMachine, hState] using h
  · simpa only [tcpStateMachine, hState] using h

end Segments

theorem SessionInv.segment {frame : Mem} {tcp tcpLen off : Nat} (h : SessionInv p i base ss)
    (hSends : p.Sends frame tcp tcpLen off) (mem : Bool)
    (hTurn : (Event.segment frame tcp tcpLen off mem).InTurn p i ss) :
    SessionInv p i base (ss.step p i (.segment frame tcp tcpLen off mem)) := by
  simp only [Session.step, tcpHandleSegment, hSends.srcPort, hSends.dstPort, h.find]
  cases hUse : (ss.net.tcpConnections i).inUse with
  | false => exact h
  | true => exact h.stateMachine hSends.owns mem hTurn

theorem SessionInv.recv (h : SessionInv p i base ss) (len : Nat) :
    SessionInv p i base (ss.step p i (.recv len)) := by
  obtain ⟨buf, n, hn, hNet⟩ := tcpRecv_eq ss.net i len
  have hSame : (ss.step p i (.recv len)).delivered i = ss.delivered i := by
    simp only [Session.step, Session.delivered, List.append_assoc, tcpRecv_buffered]
  have hTable := congrArg NetStack.tcpConnections hNet
  rw [setConnection_tcpConnections] at hTable
  have hSent : (ss.step p i (.recv len)).net.sent = ss.net.sent := by
    rw [Session.step, hNet, setConnection_sent]
  refine h.change hTable (Or.inl hSent) rfl (Nat.le_trans hn h.room) rfl h.phase ?_ ?_ ?_
  · exact hSame.symm ▸ List.prefix_rfl
  · rw [hSame]
    exact h.inOrder
  · rw [hSame]
    exact h.acked

theorem SessionInv.send (h : SessionInv p i base ss) (data : List UInt8) (mem : Bool) :
    SessionInv p i base (ss.step p i (.send data mem)) := by
  obtain ⟨buf, n, seq, hTable, hSent⟩ := tcpSend_eq ss.net i data mem
  refine h.keep hTable ?_ rfl rfl rfl rfl h.phase h.acked
  cases hSent with
  | inl hSame => exact Or.inl hSame
  | inr hMore =>
    obtain ⟨hState, conn, hAck, hMore⟩ := hMore
    exact Or.inr ⟨conn, _, data, hAck ▸ h.acked hState, hMore⟩

end Step

theorem SessionInv.step {p : Peer} {i base : Nat} {ss : Session} (h : SessionInv p i base ss)
    (event : Event) (hPeer : event.FromPeer p) (hTurn : event.InTurn p i ss) :
    SessionInv p i base (ss.step p i event) := by
  cases event with
  | segment frame tcp tcpLen off mem => exact h.segment hPeer mem hTurn
  | recv len => exact h.recv len
  | send data mem => exact h.send data mem

theorem SessionInv.run {p : Peer} {i base : Nat} {start ss : Session}
    (h : SessionInv p i base start) (hRun : PeerRun p i start ss) : SessionInv p i base ss := by
  induction hRun with
  | refl => exact h
  | step event _ hPeer hTurn ih => exact ih.step event hPeer hTurn

instance (p : Peer) (i : Nat) (ss : Session) : (event : Event) → Decidable (event.InTurn p i ss)
  | .segment .. => inferInstanceAs (Decidable (_ → ite _ _ _))
  | .recv _ => inferInstanceAs (Decidable True)
  | .send _ _ => inferInstanceAs (Decidable True)

end UnixOS.Net
