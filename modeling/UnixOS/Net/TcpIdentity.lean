import UnixOS.Net.TcpTable

/-! # Which connection a segment belongs to

A segment is matched by the two addresses and ports of its connection. The local port comes from a
counter that starts again at 49152 after 65000, and `tcp_connect` does not look whether an old
connection to the same peer still has it. The four numbers identify a connection exactly in the runs
where no `tcp_connect` meets them in use.
-/

namespace UnixOS.Net

open ByteMemory

inductive NetCall where
  | addInterface (name : List UInt8) (mac : Mac) (ip netmask gateway : UInt32)
  | installSend (k : Nat)
  | connect (destIp : UInt32) (destPort : UInt16) (mem : ConnectMem)
  | send (i : Nat) (data : List UInt8) (mem : Bool)
  | recv (i len : Nat)
  | close (i : Nat) (mem : Bool)
  | rx (k : Nat) (frame : Mem) (len : Nat) (mem : Bool)

def NetCall.next (s : NetStack) : NetCall → NetStack
  | .addInterface name mac ip netmask gateway => (netAddInterface s name mac ip netmask gateway).1
  | .installSend k => s.setInterface k { s.interfaces k with send := true }
  | .connect destIp destPort mem => (tcpConnect s destIp destPort mem).1
  | .send i data mem => (tcpSend s i data mem).1
  | .recv i len => (tcpRecv s i len).1
  | .close i mem => (tcpClose s i mem).1
  | .rx k frame len mem => (netRx s k frame len mem).1

def NetStack.through (s : NetStack) (calls : List NetCall) : NetStack := calls.foldl NetCall.next s

/-- No two connections have the same endpoints, and a segment of a connection is given to it. -/
structure NetStack.Identified (s : NetStack) : Prop where
  unique : ∀ i < maxTcpConnections, ∀ j < maxTcpConnections, (s.tcpConnections i).inUse = true →
    (s.tcpConnections j).inUse = true →
    (s.tcpConnections i).endpoints = (s.tcpConnections j).endpoints → i = j
  found : ∀ i < maxTcpConnections, ∀ c, s.tcpConnections i = c → c.inUse = true →
    tcpFindConnection s c.remoteIp c.remotePort c.localIp c.localPort = some i

def NetCall.Unclaimed (s : NetStack) : NetCall → Prop
  | .connect destIp destPort mem =>
    s.numInterfaces ≠ 0 → mem.packet = true →
      (∃ i < maxTcpConnections, (s.tcpConnections i).inUse = false) →
      ∀ j < maxTcpConnections, (s.tcpConnections j).inUse = true →
        (s.tcpConnections j).endpoints ≠
          ⟨(s.interfaces 0).ip, s.nextEphemeralPort, destIp, destPort⟩
  | _ => True

def NetStack.UnclaimedRun : NetStack → List NetCall → Prop
  | _, [] => True
  | s, call :: calls => call.Unclaimed s ∧ (call.next s).UnclaimedRun calls

section Table

variable {s s' : NetStack}

theorem tcpFindConnection_eq_some {c : TcpConnection} {i : Nat}
    (h : tcpFindConnection s c.remoteIp c.remotePort c.localIp c.localPort = some i) :
    i < maxTcpConnections ∧ (s.tcpConnections i).inUse = true ∧
      (s.tcpConnections i).endpoints = c.endpoints := by
  have hIndex := List.mem_range.mp (List.mem_of_find?_eq_some h)
  have hMatch := List.find?_some h
  simp only [Bool.and_eq_true, beq_iff_eq] at hMatch
  obtain ⟨⟨⟨⟨hUse, hRemoteIp⟩, hRemotePort⟩, hLocalIp⟩, hLocalPort⟩ := hMatch
  refine ⟨hIndex, hUse, ?_⟩
  rw [TcpConnection.endpoints, TcpConnection.endpoints, hRemoteIp, hRemotePort, hLocalIp, hLocalPort]

theorem tcpFindConnection_ne_none {i : Nat} (hi : i < maxTcpConnections)
    (hUse : (s.tcpConnections i).inUse = true) :
    tcpFindConnection s (s.tcpConnections i).remoteIp (s.tcpConnections i).remotePort
      (s.tcpConnections i).localIp (s.tcpConnections i).localPort ≠ none := by
  intro hNone
  have hMiss := List.find?_eq_none.mp hNone i (List.mem_range.mpr hi)
  simp [hUse] at hMiss

theorem NetStack.identified_iff : s.Identified ↔
    ∀ i < maxTcpConnections, ∀ j < maxTcpConnections, (s.tcpConnections i).inUse = true →
      (s.tcpConnections j).inUse = true →
      (s.tcpConnections i).endpoints = (s.tcpConnections j).endpoints → i = j := by
  constructor
  · intro h
    exact h.unique
  · intro hUnique
    refine ⟨hUnique, ?_⟩
    rintro i hi c rfl hUse
    obtain ⟨j, hFound⟩ := Option.ne_none_iff_exists'.mp (tcpFindConnection_ne_none hi hUse)
    obtain ⟨hj, hUse', hSame⟩ := tcpFindConnection_eq_some hFound
    rw [hFound, hUnique j hj i hi hUse' hUse hSame]

theorem NetStack.Identified.of_table (h : s.Identified)
    (hTable : s'.tcpConnections = s.tcpConnections) : s'.Identified := by
  rw [NetStack.identified_iff, hTable]
  exact h.unique

theorem NetStack.Identified.continues {i : Nat} (h : s.Identified) (hNext : s.Continues i s') :
    s'.Identified := by
  obtain ⟨conn, hTable, hConn⟩ := hNext
  have hEntry : ∀ j, (s'.tcpConnections j).endpoints = (s.tcpConnections j).endpoints ∧
      ((s'.tcpConnections j).inUse = true → (s.tcpConnections j).inUse = true) := by
    intro j
    rw [hTable, Function.update_apply]
    split
    case isTrue hHere =>
      rw [hHere, TcpConnection.endpoints, hConn.localIp, hConn.localPort, hConn.remoteIp,
        hConn.remotePort]
      exact ⟨rfl, hConn.inUse⟩
    case isFalse hElse => exact ⟨rfl, id⟩
  rw [NetStack.identified_iff]
  intro j hj k hk hUse hUse' hSame
  rw [(hEntry j).1, (hEntry k).1] at hSame
  exact h.unique j hj k hk ((hEntry j).2 hUse) ((hEntry k).2 hUse') hSame

theorem NetStack.Identified.update_iff {i : Nat} {conn : TcpConnection} (h : s.Identified)
    (hi : i < maxTcpConnections) (hFree : (s.tcpConnections i).inUse = false)
    (hTable : s'.tcpConnections = Function.update s.tcpConnections i conn) :
    s'.Identified ↔ (conn.inUse = true → ∀ j < maxTcpConnections,
      (s.tcpConnections j).inUse = true → (s.tcpConnections j).endpoints ≠ conn.endpoints) := by
  have hOther : ∀ j, (s.tcpConnections j).inUse = true →
      s'.tcpConnections j = s.tcpConnections j := by
    intro j hUse
    rw [hTable, Function.update_of_ne]
    rintro rfl
    rw [hFree] at hUse
    cases hUse
  have hHere : s'.tcpConnections i = conn := by rw [hTable, Function.update_self]
  constructor
  · intro h' hUse j hj hUse' hSame
    have hj' := hOther j hUse'
    have hEq := h'.unique j hj i hi (hj' ▸ hUse') (hHere ▸ hUse) (by rw [hj', hHere, hSame])
    rw [hEq, hFree] at hUse'
    cases hUse'
  · intro hNew
    rw [NetStack.identified_iff, hTable]
    intro j hj k hk hUse hUse' hSame
    simp only [Function.update_apply] at hUse hUse' hSame
    split at hUse
    case isTrue hji =>
      split at hUse'
      case isTrue hki => rw [hji, hki]
      case isFalse hki =>
        rw [if_pos hji, if_neg hki] at hSame
        exact absurd hSame.symm (hNew hUse k hk hUse')
    case isFalse hji =>
      split at hUse'
      case isTrue hki =>
        rw [if_neg hji, if_pos hki] at hSame
        exact absurd hSame (hNew hUse' j hj hUse)
      case isFalse hki =>
        rw [if_neg hji, if_neg hki] at hSame
        exact h.unique j hj k hk hUse hUse' hSame

theorem NetStack.Identified.connect_iff (h : s.Identified) (destIp : UInt32) (destPort : UInt16)
    (mem : ConnectMem) : (tcpConnect s destIp destPort mem).1.Identified ↔
      (NetCall.connect destIp destPort mem).Unclaimed s := by
  obtain ⟨hTable, hFull⟩ | ⟨i, hi, hFree, conn, hTable, -, hUse, hEnds⟩ :=
    tcpConnect_cases s destIp destPort mem
  · refine iff_of_true (h.of_table hTable) ?_
    rintro - - ⟨j, hj, hUnused⟩
    rw [hFull j hj] at hUnused
    cases hUnused
  · rw [h.update_iff hi hFree hTable, hUse]
    constructor
    · intro hNew hSome hPacket _
      rw [← hEnds hSome]
      exact hNew ⟨hSome, hPacket⟩
    · rintro hNew ⟨hSome, hPacket⟩
      rw [hEnds hSome]
      exact hNew hSome hPacket ⟨i, hi, hFree⟩

theorem NetStack.Identified.next_iff (h : s.Identified) (call : NetCall) :
    (call.next s).Identified ↔ call.Unclaimed s := by
  cases call with
  | connect destIp destPort mem => exact h.connect_iff destIp destPort mem
  | addInterface name mac ip netmask gateway =>
    refine iff_of_true (h.of_table ?_) trivial
    rw [NetCall.next, netAddInterface]
    split <;> rfl
  | installSend k => exact iff_of_true (h.of_table rfl) trivial
  | send i data mem => exact iff_of_true (h.continues (tcpSend_continues s i data mem)) trivial
  | recv i len => exact iff_of_true (h.continues (tcpRecv_continues s i len)) trivial
  | close i mem => exact iff_of_true (h.continues (tcpClose_continues s i mem)) trivial
  | rx k frame len mem =>
    obtain ⟨i, hNext⟩ := netRx_progresses s k frame len mem
    exact iff_of_true (h.continues hNext) trivial

theorem NetStack.Identified.run_iff (h : s.Identified) (calls : List NetCall) :
    (∀ n, (s.through (calls.take n)).Identified) ↔ s.UnclaimedRun calls := by
  induction calls generalizing s with
  | nil =>
    refine iff_of_true (fun n => ?_) trivial
    rw [List.take_nil]
    exact h
  | cons call calls ih =>
    constructor
    · intro hAll
      have hNext : (call.next s).Identified := hAll 1
      exact ⟨(h.next_iff call).mp hNext, (ih hNext).mp fun n => hAll (n + 1)⟩
    · rintro ⟨hHere, hRest⟩ n
      have hNext := (h.next_iff call).mpr hHere
      cases n with
      | zero => exact h
      | succ n => exact (ih hNext).mpr hRest n

end Table

theorem identified_init : (tcpipInit staticStack).Identified := by
  rw [NetStack.identified_iff]
  intro i hi j hj hUse
  simp only [tcpipInit, if_pos hi] at hUse
  cases hUse

/-- In a run of the stack every state has its connections identified exactly if no `tcp_connect`
takes endpoints that are in use. -/
theorem tcp_identity_iff (calls : List NetCall) :
    (∀ n, ((tcpipInit staticStack).through (calls.take n)).Identified) ↔
      (tcpipInit staticStack).UnclaimedRun calls :=
  identified_init.run_iff calls

/-! ### Once around the ports -/

def anyMem : ConnectMem := ⟨fun _ => 0, fun _ => 0, true⟩

def passing : List NetCall := [.connect 2 80 anyMem, .close 1 true]

/-- One connection that stays, as many passing ones as there are further ports, and a second
connection to the first peer. -/
def aroundPorts (ports : Nat) : List NetCall :=
  [.connect 1 80 anyMem] ++ (List.replicate ports passing).flatten ++ [.connect 1 80 anyMem]

structure Passed (n : Nat) (s : NetStack) : Prop where
  numInterfaces : s.numInterfaces = 1
  loopback : (s.interfaces 0).ip = 0x7F000001 ∧ (s.interfaces 0).send = false
  port : s.nextEphemeralPort.toNat = if n < 15848 then 49153 + n else 49152
  first : (s.tcpConnections 0).inUse = true ∧
    (s.tcpConnections 0).endpoints = ⟨0x7F000001, 49152, 1, 80⟩
  second : (s.tcpConnections 1).inUse = false

theorem NetStack.through_append (s : NetStack) (calls calls' : List NetCall) :
    s.through (calls ++ calls') = (s.through calls).through calls' := List.foldl_append

theorem passed_first : Passed 0 ((tcpipInit staticStack).through [.connect 1 80 anyMem]) := by
  constructor <;> decide +kernel

def openedTo (s : NetStack) (destIp : UInt32) : TcpConnection :=
  { s.tcpConnections 1 with
    inUse := true, state := .synSent, recvCapacity := 65536, sendCapacity := 65536
    recvBuf := fun _ => 0, sendBuf := fun _ => 0, recvLen := 0, sendLen := 0
    recvWnd := 65535, sendWnd := 65535, localIp := (s.interfaces 0).ip
    localPort := s.nextEphemeralPort, remoteIp := destIp, remotePort := 80
    seq := tcpGenerateIsn s.tcpIsnCounter + 1, ack := 0 }

theorem Passed.connect {n : Nat} {s : NetStack} (h : Passed n s) (destIp : UInt32) :
    (tcpConnect s destIp 80 anyMem).1 = { s with
      nextEphemeralPort := if s.nextEphemeralPort + 1 > 65000 then 49152 else s.nextEphemeralPort + 1
      tcpIsnCounter := tcpGenerateIsn s.tcpIsnCounter
      tcpConnections := Function.update s.tcpConnections 1 (openedTo s destIp) } := by
  have hSlot : (List.range maxTcpConnections).find? (fun i => !(s.tcpConnections i).inUse) = some 1 := by
    refine List.find?_range_eq_some.mpr ⟨by simp [h.second], by decide, ?_⟩
    intro j hj
    obtain rfl : j = 0 := by omega
    simp [h.first.1]
  simp only [tcpConnect, tcpAllocConnection, hSlot, tcpSendPacket, NetStack.transmit,
    h.numInterfaces, h.loopback, anyMem, Nat.one_ne_zero, if_false, Bool.not_true,
    Bool.false_eq_true, openedTo]
  rfl

theorem Passed.next {n : Nat} {s : NetStack} (h : Passed n s) (hn : n < 15848) :
    Passed (n + 1) (s.through passing) := by
  have hAfter : s.through passing = { s with
      nextEphemeralPort := if s.nextEphemeralPort + 1 > 65000 then 49152 else s.nextEphemeralPort + 1
      tcpIsnCounter := tcpGenerateIsn s.tcpIsnCounter
      tcpConnections := Function.update s.tcpConnections 1 (tcpFreeConnection (openedTo s 2)) } := by
    change (tcpClose (tcpConnect s 2 80 anyMem).1 1 true).1 = _
    rw [h.connect 2]
    simp [tcpClose, NetStack.setConnection, openedTo]
  rw [hAfter]
  refine ⟨h.numInterfaces, h.loopback, ?_, h.first, ?_⟩
  · have hPort := h.port
    rw [if_pos hn] at hPort
    have hNext : (s.nextEphemeralPort + 1).toNat = 49154 + n := by
      rw [UInt16.toNat_add, hPort, UInt16.toNat_one]
      omega
    have hWrap : s.nextEphemeralPort + 1 > 65000 ↔ ¬ n + 1 < 15848 := by
      rw [gt_iff_lt, UInt16.lt_iff_toNat_lt, hNext]
      have hLimit : (65000 : UInt16).toNat = 65000 := rfl
      omega
    simp only [hWrap]
    split
    case isTrue hLast => rfl
    case isFalse hMore =>
      rw [hNext, if_pos (not_not.mp hMore)]
      omega
  · simp only [Function.update_self]
    rfl

theorem Passed.replicate {n : Nat} {s : NetStack} (h : Passed n s) {k : Nat} (hk : n + k ≤ 15848) :
    Passed (n + k) (s.through (List.replicate k passing).flatten) := by
  induction k generalizing n s with
  | zero => exact h
  | succ k ih =>
    rw [List.replicate_succ, List.flatten_cons, NetStack.through_append]
    have hRest := ih (h.next (by omega)) (by omega)
    rwa [Nat.add_right_comm] at hRest

theorem Passed.shares {s : NetStack} (h : Passed 15848 s) :
    ((tcpConnect s 1 80 anyMem).1.tcpConnections 0).inUse = true ∧
      ((tcpConnect s 1 80 anyMem).1.tcpConnections 1).inUse = true ∧
      ((tcpConnect s 1 80 anyMem).1.tcpConnections 0).endpoints =
        ((tcpConnect s 1 80 anyMem).1.tcpConnections 1).endpoints := by
  have hPort : s.nextEphemeralPort = 49152 := UInt16.toNat_inj.mp h.port
  rw [h.connect 1]
  refine ⟨h.first.1, ?_, ?_⟩
  · simp only [Function.update_self]
    rfl
  · simp only [Function.update_self, Function.update_of_ne Nat.zero_ne_one,
      TcpConnection.endpoints, openedTo, hPort, h.loopback.1]
    exact h.first.2

theorem through_aroundPorts (ports : Nat) (s : NetStack) :
    s.through (aroundPorts ports) = (tcpConnect ((s.through [.connect 1 80 anyMem]).through
      (List.replicate ports passing).flatten) 1 80 anyMem).1 := by
  rw [aroundPorts, NetStack.through_append, NetStack.through_append]
  rfl

/-- After the ports were used up once, a second connection to the same peer gets the port of the
first, which is still open. -/
theorem port_reuse_shares_endpoints :
    (((tcpipInit staticStack).through (aroundPorts 15848)).tcpConnections 0).inUse = true ∧
      (((tcpipInit staticStack).through (aroundPorts 15848)).tcpConnections 1).inUse = true ∧
      (((tcpipInit staticStack).through (aroundPorts 15848)).tcpConnections 0).endpoints =
        (((tcpipInit staticStack).through (aroundPorts 15848)).tcpConnections 1).endpoints ∧
      ¬ ((tcpipInit staticStack).through (aroundPorts 15848)).Identified := by
  obtain ⟨hFirst, hSecond, hSame⟩ := (passed_first.replicate (k := 15848) (by omega)).shares
  rw [← through_aroundPorts] at hFirst hSecond hSame
  refine ⟨hFirst, hSecond, hSame, fun h => ?_⟩
  have hEq := h.unique 0 (by decide) 1 (by decide) hFirst hSecond hSame
  cases hEq

end UnixOS.Net
