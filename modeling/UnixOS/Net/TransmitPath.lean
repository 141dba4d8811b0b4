import UnixOS.Net.TcpTable

/-! # Which interface a packet leaves by

`tcpip_init` puts the loopback entry in the first slot of the interface table, and no driver
installs a send function there. Every sender takes the first slot, while
`net_get_primary_interface_info` skips the loopback entry: whatever interfaces are added, no packet
of a sender reaches a driver, and the senders report success all the same.
-/

namespace UnixOS.Net

open ByteMemory

/-- A call that builds a packet: the senders, and the TCP part of the receive path. -/
inductive SendCall where
  | arp (targetIp : UInt32)
  | icmp (destIp : UInt32) (id seq : UInt16) (mem : Option Mac)
  | udp (destIp : UInt32) (srcPort destPort : UInt16) (data : List UInt8) (mem : Option Mac)
  | connect (destIp : UInt32) (destPort : UInt16) (mem : ConnectMem)
  | send (i : Nat) (data : List UInt8) (mem : Bool)
  | close (i : Nat) (mem : Bool)
  | segment (srcIp dstIp : UInt32) (frame : Mem) (tcp tcpLen : Nat) (mem : Bool)

def SendCall.run (s : NetStack) : SendCall → NetStack × Bool
  | .arp targetIp => arpSendRequest s targetIp
  | .icmp destIp id seq mem => icmpSendEcho s destIp id seq mem
  | .udp destIp srcPort destPort data mem => udpSend s destIp srcPort destPort data mem
  | .connect destIp destPort mem =>
    ((tcpConnect s destIp destPort mem).1, (tcpConnect s destIp destPort mem).2.isSome)
  | .send i data mem => ((tcpSend s i data mem).1, (tcpSend s i data mem).2.isSome)
  | .close i mem => tcpClose s i mem
  | .segment srcIp dstIp frame tcp tcpLen mem =>
    ((tcpHandleSegment s srcIp dstIp frame tcp tcpLen mem).1, false)

/-- What happens to the stack: a driver adds its interface and installs its send function there, a
sender is called, data is taken from a connection, or a frame comes in. -/
inductive NetEvent where
  | driver (name : List UInt8) (mac : Mac) (ip netmask gateway : UInt32)
  | sender (call : SendCall)
  | recv (i len : Nat)
  | rx (k : Nat) (frame : Mem) (len : Nat) (mem : Bool)

def NetEvent.next (s : NetStack) : NetEvent → NetStack
  | .driver name mac ip netmask gateway =>
    match netAddInterface s name mac ip netmask gateway with
    | (s, none) => s
    | (s, some k) => s.setInterface k { s.interfaces k with send := true }
  | .sender call => (call.run s).1
  | .recv i len => (tcpRecv s i len).1
  | .rx k frame len mem => (netRx s k frame len mem).1

def NetStack.afterEvents (s : NetStack) (events : List NetEvent) : NetStack :=
  events.foldl NetEvent.next s

/-! ### The property -/

def Packet.srcMac : Packet → Mac
  | .arp eth _ | .tcp eth _ _ _ | .icmp eth _ _ | .udp eth _ _ _ => eth.src

def Packet.srcIp : Packet → UInt32
  | .arp _ request => request.senderIp
  | .tcp _ ip _ _ | .icmp _ ip _ | .udp _ ip _ _ => ip.srcIp

def NetStack.driven (s : NetStack) : NetStack :=
  { s with interfaces := fun k => { s.interfaces k with send := true } }

/-- The packets that a call makes, with or without a driver to take them: those it hands out where
every interface has one. -/
def SendCall.produced (s : NetStack) (call : SendCall) : List Packet :=
  ((call.run s.driven).1.sent.drop s.sent.length).map Prod.snd

/-- Every packet of the call is handed to the send function of the primary interface with its
addresses as source, and success means that a send function was called. -/
structure SendCall.WellSent (s : NetStack) (call : SendCall) : Prop where
  path : ∀ packet ∈ call.produced s, ∃ k, netGetPrimaryInterfaceInfo s = some k ∧
    (k, packet) ∈ (call.run s).1.sent.drop s.sent.length ∧
    packet.srcMac = (s.interfaces k).mac ∧ packet.srcIp = (s.interfaces k).ip
  success : (call.run s).2 = true → (call.run s).1.sent ≠ s.sent

/-- A segment that the state machine answers with an `ACK`. -/
def TcpConnection.Answers (conn : TcpConnection) (seg : Segment) : Prop :=
  match conn.state with
  | .synSent => seg.flags &&& (tcpSyn ||| tcpAck) = tcpSyn ||| tcpAck
  | .established => seg.has tcpFin ∨
      0 < seg.dataLen ∧ add64 conn.recvLen seg.dataLen ≤ conn.recvCapacity
  | .finWait1 | .finWait2 => seg.has tcpFin
  | _ => False

/-- The call fails, or has nothing to send, before a packet is made. -/
def SendCall.Silent (s : NetStack) : SendCall → Prop
  | .arp _ => False
  | .icmp _ _ _ mem => mem = none
  | .udp _ _ _ _ mem => mem = none
  | .connect _ _ mem =>
    (∀ i < maxTcpConnections, (s.tcpConnections i).inUse = true) ∨ mem.packet = false
  | .send i data mem =>
    (s.tcpConnections i).state ≠ .established ∨
      (s.tcpConnections i).sendCapacity < add64 (s.tcpConnections i).sendLen data.length ∨
      mem = false
  | .close i _ => (s.tcpConnections i).inUse = false
  | .segment srcIp dstIp frame tcp tcpLen mem =>
    mem = false ∨ ∀ i, tcpFindConnection s srcIp (ntohs (load16 frame tcp)) dstIp
      (ntohs (load16 frame (tcp + 2))) = some i →
        ¬ (s.tcpConnections i).Answers (segmentAt frame tcp tcpLen)

/-! ### The first slot -/

structure NetStack.Loopback (s : NetStack) : Prop where
  some : s.numInterfaces ≠ 0
  noSend : (s.interfaces 0).send = false

section Loopback

variable {s : NetStack}

structure NetStack.SameLinks (s s' : NetStack) : Prop where
  interfaces : s'.interfaces = s.interfaces
  numInterfaces : s'.numInterfaces = s.numInterfaces
  sent : s'.sent = s.sent

theorem NetStack.SameLinks.loopback {s' : NetStack} (hSame : s.SameLinks s') (h : s.Loopback) :
    s'.Loopback := by
  constructor
  · rw [hSame.numInterfaces]
    exact h.some
  · rw [hSame.interfaces]
    exact h.noSend

theorem loopback_init : (tcpipInit staticStack).Loopback := ⟨by decide, rfl⟩

theorem NetStack.Loopback.setConnection (h : s.Loopback) (i : Nat) (conn : TcpConnection) :
    (s.setConnection i conn).Loopback := ⟨h.some, h.noSend⟩

theorem NetStack.Loopback.sendOn (h : s.Loopback) (packet : Packet) (len : Nat) :
    s.sendOn 0 packet len = s := by
  simp [NetStack.sendOn, h.noSend]

theorem NetStack.Loopback.tcpSendPacket (h : s.Loopback) (conn : TcpConnection) (flags : UInt8)
    (data : List UInt8) (mem : Bool) : tcpSendPacket s conn flags data mem = (s, mem) := by
  cases mem <;> simp [Net.tcpSendPacket, NetStack.transmit, h.some, h.noSend]

theorem NetStack.Loopback.acknowledge (h : s.Loopback) (i : Nat) (conn : TcpConnection)
    (mem : Bool) : acknowledge s i conn mem = s.setConnection i conn := by
  rw [Net.acknowledge, (h.setConnection i conn).tcpSendPacket]

theorem NetStack.Loopback.connect (h : s.Loopback) (destIp : UInt32) (destPort : UInt16)
    (mem : ConnectMem) : s.SameLinks (tcpConnect s destIp destPort mem).1 := by
  have hCounted : ∀ port isn,
      { s with nextEphemeralPort := port, tcpIsnCounter := isn }.Loopback := by
    intro port isn
    exact ⟨h.some, h.noSend⟩
  unfold tcpConnect
  split
  · exact ⟨rfl, rfl, rfl⟩
  · rw [if_neg h.some]
    dsimp only
    rw [(hCounted _ _).tcpSendPacket]
    cases mem.packet with
    | false => exact ⟨rfl, rfl, rfl⟩
    | true => exact ⟨rfl, rfl, rfl⟩

theorem NetStack.Loopback.send (h : s.Loopback) (i : Nat) (data : List UInt8) (mem : Bool) :
    s.SameLinks (tcpSend s i data mem).1 := by
  unfold tcpSend
  dsimp only
  split
  · exact ⟨rfl, rfl, rfl⟩
  · split
    · exact ⟨rfl, rfl, rfl⟩
    · rw [(h.setConnection i _).tcpSendPacket]
      cases mem with
      | false => exact ⟨rfl, rfl, rfl⟩
      | true => exact ⟨rfl, rfl, rfl⟩

theorem NetStack.Loopback.close (h : s.Loopback) (i : Nat) (mem : Bool) :
    s.SameLinks (tcpClose s i mem).1 := by
  unfold tcpClose
  dsimp only
  split
  · exact ⟨rfl, rfl, rfl⟩
  · simp only [h.tcpSendPacket]
    split <;> exact ⟨rfl, rfl, rfl⟩

theorem NetStack.Loopback.stateMachine (h : s.Loopback) (i : Nat) (seg : Segment) (mem : Bool) :
    s.SameLinks (tcpStateMachine s i seg mem).1 := by
  unfold tcpStateMachine handleEstablished handleFinWait1
  simp only [h.acknowledge]
  repeat' split
  all_goals exact ⟨rfl, rfl, rfl⟩

theorem NetStack.Loopback.segment (h : s.Loopback) (srcIp dstIp : UInt32) (frame : Mem)
    (tcp tcpLen : Nat) (mem : Bool) :
    s.SameLinks (tcpHandleSegment s srcIp dstIp frame tcp tcpLen mem).1 := by
  unfold tcpHandleSegment
  dsimp only
  split
  · exact ⟨rfl, rfl, rfl⟩
  · exact h.stateMachine ..

theorem NetStack.Loopback.run (h : s.Loopback) (call : SendCall) : s.SameLinks (call.run s).1 := by
  cases call with
  | arp targetIp =>
    rw [SendCall.run, arpSendRequest, if_neg h.some]
    dsimp only
    rw [h.sendOn]
    exact ⟨rfl, rfl, rfl⟩
  | icmp destIp id seq mem =>
    cases mem with
    | none =>
      rw [SendCall.run, icmpSendEcho, if_neg h.some]
      exact ⟨rfl, rfl, rfl⟩
    | some dest =>
      rw [SendCall.run, icmpSendEcho, if_neg h.some]
      dsimp only
      rw [h.sendOn]
      exact ⟨rfl, rfl, rfl⟩
  | udp destIp srcPort destPort data mem =>
    cases mem with
    | none =>
      rw [SendCall.run, udpSend, if_neg h.some]
      exact ⟨rfl, rfl, rfl⟩
    | some dest =>
      rw [SendCall.run, udpSend, if_neg h.some]
      dsimp only
      rw [h.sendOn]
      exact ⟨rfl, rfl, rfl⟩
  | connect destIp destPort mem => exact h.connect destIp destPort mem
  | send i data mem => exact h.send i data mem
  | close i mem => exact h.close i mem
  | segment srcIp dstIp frame tcp tcpLen mem => exact h.segment srcIp dstIp frame tcp tcpLen mem

/-! ### Runs -/

theorem NetStack.Loopback.transmit (h : s.Loopback) (k : Nat) (packet : Packet) :
    (s.transmit k packet).Loopback := by
  unfold NetStack.transmit
  split
  · exact ⟨h.some, h.noSend⟩
  · exact h

theorem NetStack.Loopback.arpHandle (h : s.Loopback) (k : Nat) (frame : Mem) (arp : Nat) :
    (arpHandle s k frame arp).1.Loopback := by
  unfold Net.arpHandle
  dsimp only
  split
  · split
    · exact h.transmit k _
    · exact h
  · split
    · exact ⟨h.some, h.noSend⟩
    · exact h

theorem NetStack.Loopback.ipHandle (h : s.Loopback) (frame : Mem) (ip len : Nat) (mem : Bool) :
    (ipHandle s frame ip len mem).1.Loopback := by
  unfold Net.ipHandle
  dsimp only
  split
  · exact h
  · split
    · exact h
    · split
      · exact h
      · split
        · exact (h.segment ..).loopback h
        · exact h

theorem NetStack.Loopback.netRx (h : s.Loopback) (k : Nat) (frame : Mem) (len : Nat) (mem : Bool) :
    (netRx s k frame len mem).1.Loopback := by
  have hCounted : ∀ rxPackets rxBytes, (s.setInterface k
      { s.interfaces k with rxPackets := rxPackets, rxBytes := rxBytes }).Loopback := by
    intro rxPackets rxBytes
    refine ⟨h.some, ?_⟩
    simp only [NetStack.setInterface, Function.update_apply]
    split
    case isTrue hHere => exact hHere ▸ h.noSend
    case isFalse hElse => exact h.noSend
  unfold Net.netRx
  dsimp only
  split
  · exact h
  · split
    · split
      · exact (hCounted _ _).arpHandle k frame ethHlen
      · exact hCounted _ _
    · split
      · split
        · exact (hCounted _ _).ipHandle frame ethHlen _ mem
        · exact hCounted _ _
      · exact hCounted _ _

theorem NetStack.Loopback.driver (h : s.Loopback) (name : List UInt8) (mac : Mac)
    (ip netmask gateway : UInt32) :
    (NetEvent.next s (.driver name mac ip netmask gateway)).Loopback := by
  rw [NetEvent.next, netAddInterface]
  split
  case h_1 s' hNone =>
    split at hNone <;> cases hNone
    exact h
  case h_2 s' k hSome =>
    split at hSome <;> cases hSome
    refine ⟨Nat.succ_ne_zero _, ?_⟩
    simp only [NetStack.setInterface, Function.update_of_ne h.some.symm]
    exact h.noSend

theorem NetStack.Loopback.next (h : s.Loopback) (event : NetEvent) : (event.next s).Loopback := by
  cases event with
  | driver name mac ip netmask gateway => exact h.driver name mac ip netmask gateway
  | sender call => exact (h.run call).loopback h
  | recv i len =>
    obtain ⟨buf, n, -, hRecv⟩ := tcpRecv_eq s i len
    rw [NetEvent.next, hRecv]
    exact h.setConnection i _
  | rx k frame len mem => exact h.netRx k frame len mem

theorem NetStack.Loopback.afterEvents (h : s.Loopback) (events : List NetEvent) :
    (s.afterEvents events).Loopback := by
  induction events generalizing s with
  | nil => exact h
  | cons event events ih => exact ih (h.next event)

end Loopback

/-! ### The calls that are well sent -/

section Produced

variable {s : NetStack}

theorem driven_numInterfaces : s.driven.numInterfaces = s.numInterfaces := rfl

theorem tcpSendPacket_length (hSome : s.numInterfaces ≠ 0) (hSend : (s.interfaces 0).send = true)
    (conn : TcpConnection) (flags : UInt8) (data : List UInt8) (mem : Bool) :
    (tcpSendPacket s conn flags data mem).1.sent.length = s.sent.length + mem.toNat := by
  cases mem <;> simp [tcpSendPacket, NetStack.transmit, hSome, hSend]

theorem acknowledge_length (hSome : s.numInterfaces ≠ 0) (hSend : (s.interfaces 0).send = true)
    (i : Nat) (conn : TcpConnection) (mem : Bool) :
    (acknowledge s i conn mem).sent.length = s.sent.length + mem.toNat :=
  tcpSendPacket_length (s := s.setConnection i conn) hSome hSend conn tcpAck [] mem

open Classical in
theorem tcpStateMachine_length (hSome : s.numInterfaces ≠ 0)
    (hSend : (s.interfaces 0).send = true) (i : Nat) (seg : Segment) (mem : Bool) :
    (tcpStateMachine s i seg mem).1.sent.length =
      s.sent.length + if (s.tcpConnections i).Answers seg then mem.toNat else 0 := by
  have hAck := acknowledge_length hSome hSend i
  unfold tcpStateMachine TcpConnection.Answers
  dsimp only
  cases (s.tcpConnections i).state with
  | synSent =>
    dsimp only
    split
    case isTrue hSynAck => rw [hAck]
    case isFalse hOther => split <;> rfl
  | established =>
    simp only [handleEstablished]
    split
    case isTrue hFin => simp [hAck, hFin]
    case isFalse hOpen =>
      split
      case isTrue hData =>
        split
        case isTrue hRoom => simp [hAck, hData, hRoom]
        case isFalse hFull => simp [hOpen, hFull]
      case isFalse hEmpty => simp [hOpen, show seg.dataLen = 0 by omega]
  | finWait1 =>
    simp only [handleFinWait1]
    split
    case isTrue hFin => simp [hAck]
    case isFalse hOpen => simp
  | finWait2 =>
    dsimp only
    split
    case isTrue hFin => simp [hAck]
    case isFalse hOpen => rfl
  | closing =>
    dsimp only
    split <;> simp
  | lastAck =>
    dsimp only
    split <;> simp
  | _ => simp

theorem produced_eq_nil_iff (call : SendCall) :
    call.produced s = [] ↔ (call.run s.driven).1.sent.length ≤ s.sent.length := by
  simp [SendCall.produced]

theorem NetStack.Loopback.wellSent_iff (h : s.Loopback) (call : SendCall) :
    call.WellSent s ↔
      (call.run s.driven).1.sent.length ≤ s.sent.length ∧ (call.run s).2 = false := by
  have hSent := (h.run call).sent
  rw [← produced_eq_nil_iff]
  constructor
  · intro hWell
    constructor
    · rw [List.eq_nil_iff_forall_not_mem]
      intro packet hProduced
      obtain ⟨k, -, hHanded, -⟩ := hWell.path packet hProduced
      simp [hSent] at hHanded
    · rw [Bool.eq_false_iff]
      intro hSuccess
      exact hWell.success hSuccess hSent
  · rintro ⟨hNone, hFail⟩
    constructor
    · simp [hNone]
    · simp [hFail]

theorem tcpSendPacket_false (conn : TcpConnection) (flags : UInt8) (data : List UInt8) :
    tcpSendPacket s conn flags data false = (s, false) := by
  unfold tcpSendPacket
  split <;> rfl

theorem tcpSendPacket_granted {s' : NetStack} {conn : TcpConnection} {flags : UInt8}
    {data : List UInt8} (h : tcpSendPacket s conn flags data true = (s', false)) :
    ¬ s.numInterfaces ≠ 0 := by
  intro hSome
  have hSuccess := tcpSendPacket_snd hSome conn flags data true
  rw [h] at hSuccess
  cases hSuccess

theorem tcpConnect_silent (hSome : s.numInterfaces ≠ 0) (destIp : UInt32) (destPort : UInt16)
    (mem : ConnectMem) :
    ((tcpConnect s destIp destPort mem).2 = none ↔
      (∀ i < maxTcpConnections, (s.tcpConnections i).inUse = true) ∨ mem.packet = false) ∧
    ((tcpConnect s destIp destPort mem).2 = none →
      (tcpConnect s destIp destPort mem).1.sent = s.sent) := by
  unfold tcpConnect tcpAllocConnection
  cases hFind : (List.range maxTcpConnections).find? fun i => !(s.tcpConnections i).inUse with
  | none =>
    refine ⟨iff_of_true rfl (Or.inl ?_), fun _ => rfl⟩
    intro i hi
    simpa using List.find?_eq_none.mp hFind i (List.mem_range.mpr hi)
  | some i =>
    have hFree : (s.tcpConnections i).inUse = false := by simpa using List.find?_some hFind
    have hIndex := List.mem_range.mp (List.mem_of_find?_eq_some hFind)
    simp only [if_neg hSome]
    cases hMem : mem.packet with
    | false =>
      rw [tcpSendPacket_false]
      exact ⟨iff_of_true rfl (Or.inr rfl), fun _ => rfl⟩
    | true =>
      split
      case h_1 s' hFail =>
        exact (tcpSendPacket_granted hFail hSome).elim
      case h_2 s' hOk =>
        refine ⟨iff_of_false (by simp) ?_, by simp⟩
        rintro (hFull | hNoMem)
        · rw [hFull i hIndex] at hFree
          cases hFree
        · cases hNoMem

theorem tcpSend_silent (hSome : s.numInterfaces ≠ 0) (i : Nat) (data : List UInt8) (mem : Bool) :
    ((tcpSend s i data mem).2 = none ↔ (s.tcpConnections i).state ≠ .established ∨
      (s.tcpConnections i).sendCapacity < add64 (s.tcpConnections i).sendLen data.length ∨
      mem = false) ∧
    ((tcpSend s i data mem).2 = none → (tcpSend s i data mem).1.sent = s.sent) := by
  unfold tcpSend
  dsimp only
  split
  case isTrue hState => exact ⟨iff_of_true rfl (Or.inl hState), fun _ => rfl⟩
  case isFalse hState =>
    split
    case isTrue hFull => exact ⟨iff_of_true rfl (Or.inr (Or.inl hFull)), fun _ => rfl⟩
    case isFalse hRoom =>
      cases mem with
      | false =>
        rw [tcpSendPacket_false]
        exact ⟨iff_of_true rfl (Or.inr (Or.inr rfl)), fun _ => rfl⟩
      | true =>
        split
        case h_1 s' hFail =>
          exact (tcpSendPacket_granted hFail hSome).elim
        case h_2 s' hOk => simp [hState, hRoom]

theorem tcpClose_succeeds (i : Nat) (mem : Bool) :
    (tcpClose s i mem).2 = (s.tcpConnections i).inUse := by
  unfold tcpClose
  cases hUse : (s.tcpConnections i).inUse with
  | false => simp [hUse]
  | true =>
    simp only [hUse, Bool.not_true, Bool.false_eq_true, if_false]
    split <;> rfl

open Classical in
theorem segment_silent (hSome : s.numInterfaces ≠ 0) (srcIp dstIp : UInt32) (frame : Mem)
    (tcp tcpLen : Nat) (mem : Bool) :
    (tcpHandleSegment s.driven srcIp dstIp frame tcp tcpLen mem).1.sent.length ≤ s.sent.length ↔
      (SendCall.segment srcIp dstIp frame tcp tcpLen mem).Silent s := by
  have hFound : ∀ srcPort dstPort, tcpFindConnection s.driven srcIp srcPort dstIp dstPort =
      tcpFindConnection s srcIp srcPort dstIp dstPort := by
    intro srcPort dstPort
    rfl
  unfold tcpHandleSegment SendCall.Silent
  simp only [hFound]
  split
  case h_1 hNone => simp [hNone, NetStack.driven]
  case h_2 i hSeg =>
    have hLength := tcpStateMachine_length (s := s.driven) hSome rfl i (segmentAt frame tcp tcpLen) mem
    change _ = s.sent.length + if (s.tcpConnections i).Answers _ then mem.toNat else 0 at hLength
    rw [hLength, hSeg]
    split
    case isTrue hAnswer => cases mem <;> simp [hAnswer]
    case isFalse hIgnored => simp [hIgnored]

theorem NetStack.Loopback.silent_iff (h : s.Loopback) (call : SendCall) :
    call.WellSent s ↔ call.Silent s := by
  rw [h.wellSent_iff]
  cases call with
  | arp targetIp => simp [SendCall.run, SendCall.Silent, arpSendRequest, h.some]
  | icmp destIp id seq mem =>
    cases mem <;> simp [SendCall.run, SendCall.Silent, icmpSendEcho, h.some, NetStack.driven]
  | udp destIp srcPort destPort data mem =>
    cases mem <;> simp [SendCall.run, SendCall.Silent, udpSend, h.some, NetStack.driven]
  | connect destIp destPort mem =>
    have hHere := (tcpConnect_silent h.some destIp destPort mem).1
    have hDriven := tcpConnect_silent (s := s.driven) h.some destIp destPort mem
    simp only [SendCall.run, SendCall.Silent, Option.isSome_eq_false_iff, Option.isNone_iff_eq_none]
    rw [hHere]
    refine and_iff_right_of_imp fun hSilent => ?_
    rw [hDriven.2 (hDriven.1.mpr hSilent)]
    rfl
  | send i data mem =>
    have hHere := (tcpSend_silent h.some i data mem).1
    have hDriven := tcpSend_silent (s := s.driven) h.some i data mem
    simp only [SendCall.run, SendCall.Silent, Option.isSome_eq_false_iff, Option.isNone_iff_eq_none]
    rw [hHere]
    refine and_iff_right_of_imp fun hSilent => ?_
    rw [hDriven.2 (hDriven.1.mpr hSilent)]
    rfl
  | close i mem =>
    simp only [SendCall.run, SendCall.Silent, tcpClose_succeeds]
    refine and_iff_right_of_imp fun hUnused => ?_
    simp [tcpClose, NetStack.driven, hUnused]
  | segment srcIp dstIp frame tcp tcpLen mem =>
    rw [← segment_silent h.some]
    exact and_iff_left rfl

end Produced

/-- Whatever interfaces are added and whatever was sent and received before, a call is well sent
exactly if it makes no packet. -/
theorem transmit_path_iff (events : List NetEvent) (call : SendCall) :
    call.WellSent ((tcpipInit staticStack).afterEvents events) ↔
      call.Silent ((tcpipInit staticStack).afterEvents events) :=
  (loopback_init.afterEvents events).silent_iff call

def ethernetStack : NetStack := (tcpipInit staticStack).afterEvents
  [.driver [101, 116, 104, 48] (Vector.replicate 6 2) 0x0A00020F 0xFFFFFF00 0x0A000202]

/-- An ARP request carries the loopback address, the driver never sees it, and the call reports
success. -/
theorem arp_request_reaches_no_driver :
    netGetPrimaryInterfaceInfo ethernetStack = some 1 ∧
      (ethernetStack.interfaces 1).send = true ∧
      ((SendCall.arp 0x0A000202).run ethernetStack).2 = true ∧
      ((SendCall.arp 0x0A000202).run ethernetStack).1.sent = [] ∧
      ((SendCall.arp 0x0A000202).produced ethernetStack).map Packet.srcIp = [0x7F000001] ∧
      ¬ (SendCall.arp 0x0A000202).WellSent ethernetStack := by
  refine ⟨by decide, rfl, rfl, rfl, rfl, fun hWell => ?_⟩
  exact hWell.success rfl rfl

end UnixOS.Net
