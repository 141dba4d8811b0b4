import UnixOS.Net.TcpTable
import Mathlib.Logic.Relation

/-! # Bounds on the receive path

Three nested headers carry lengths chosen by the sender. A frame is handled within its bounds
exactly when the header lengths nest: the IP header inside the total length, each transport
header's used fields inside the frame, and the TCP header inside the IP payload.
-/

namespace UnixOS.Net

open ByteMemory

/-- The bytes read lie in a frame of `len` bytes; a difference does not underflow, a sum does not
wrap. -/
def Access.Ok (len : Nat) : Access → Prop
  | .read off n => ∀ j < n, off + j < len
  | .sub a b => b ≤ a
  | .add a b => a + b < 2 ^ 64

def AllOk (len : Nat) (accesses : List Access) : Prop := ∀ a ∈ accesses, a.Ok len

@[simp] theorem allOk_nil (len : Nat) : AllOk len [] := nofun

@[simp] theorem allOk_cons {len : Nat} {a : Access} {rest : List Access} :
    AllOk len (a :: rest) ↔ a.Ok len ∧ AllOk len rest := List.forall_mem_cons

@[simp] theorem allOk_append {len : Nat} {l l' : List Access} :
    AllOk len (l ++ l') ↔ AllOk len l ∧ AllOk len l' := List.forall_mem_append

theorem ok_read {len off n : Nat} (h : 0 < n) : (Access.read off n).Ok len ↔ off + n ≤ len := by
  constructor
  · intro hAll
    have hLast := hAll (n - 1) (by omega)
    omega
  · intro hEnd j hj
    omega

@[simp] theorem ok_sub {len a b : Nat} : (Access.sub a b).Ok len ↔ b ≤ a := Iff.rfl

/-! ### The tables of a running stack -/

inductive NetStep (s : NetStack) : NetStack → Prop
  | addInterface (name : List UInt8) (mac : Mac) (ip netmask gateway : UInt32) :
      NetStep s (netAddInterface s name mac ip netmask gateway).1
  | installSend (k : Nat) : NetStep s (s.setInterface k { s.interfaces k with send := true })
  | connect (destIp : UInt32) (destPort : UInt16) (mem : ConnectMem) :
      NetStep s (tcpConnect s destIp destPort mem).1
  | send (i : Nat) (data : List UInt8) (mem : Bool) : NetStep s (tcpSend s i data mem).1
  | recv (i len : Nat) : NetStep s (tcpRecv s i len).1
  | close (i : Nat) (mem : Bool) : NetStep s (tcpClose s i mem).1
  | rx (k : Nat) (frame : Mem) (len : Nat) (mem : Bool) : NetStep s (netRx s k frame len mem).1

def NetReachable (s : NetStack) : Prop :=
  Relation.ReflTransGen NetStep (tcpipInit staticStack) s

def RecvBounded (s : NetStack) : Prop :=
  ∀ i, (s.tcpConnections i).recvLen ≤ (s.tcpConnections i).recvCapacity

structure TableInv (s : NetStack) : Prop where
  bounded : RecvBounded s
  capacity : ∀ i, (s.tcpConnections i).recvCapacity ≤ 65536

theorem TableInv.of_table {s s' : NetStack} (h : TableInv s)
    (hTable : s'.tcpConnections = s.tcpConnections) : TableInv s' := by
  constructor
  · intro i
    rw [hTable]
    exact h.bounded i
  · intro i
    rw [hTable]
    exact h.capacity i

theorem TableInv.update {s s' : NetStack} {i : Nat} {conn : TcpConnection} (h : TableInv s)
    (hTable : s'.tcpConnections = Function.update s.tcpConnections i conn)
    (hLen : conn.recvLen ≤ conn.recvCapacity) (hCapacity : conn.recvCapacity ≤ 65536) :
    TableInv s' := by
  constructor
  · intro j
    rw [hTable, Function.update_apply]
    split
    case isTrue hHere => exact hLen
    case isFalse hElse => exact h.bounded j
  · intro j
    rw [hTable, Function.update_apply]
    split
    case isTrue hHere => exact hCapacity
    case isFalse hElse => exact h.capacity j

theorem TableInv.continues {s s' : NetStack} {i : Nat} (h : TableInv s)
    (hNext : s.Continues i s') : TableInv s' := by
  obtain ⟨conn, hTable, hConn⟩ := hNext
  refine h.update hTable ?_ ?_
  · cases hConn.recvLen with
    | inl hLess =>
      rw [hConn.capacity]
      exact Nat.le_trans hLess (h.bounded i)
    | inr hFits => exact hFits
  · rw [hConn.capacity]
    exact h.capacity i

theorem tableInv_init : TableInv (tcpipInit staticStack) := by
  constructor
  · intro i
    simp only [tcpipInit, staticStack]
    split <;> decide
  · intro i
    simp only [tcpipInit, staticStack]
    split <;> decide

theorem TableInv.connect {s : NetStack} (h : TableInv s) (destIp : UInt32) (destPort : UInt16)
    (mem : ConnectMem) : TableInv (tcpConnect s destIp destPort mem).1 := by
  obtain ⟨hTable, -⟩ | ⟨i, -, -, conn, hTable, ⟨hLen, hCapacity⟩, -, -⟩ :=
    tcpConnect_cases s destIp destPort mem
  · exact h.of_table hTable
  · exact h.update hTable (by omega) hCapacity.le

theorem TableInv.netRx {s : NetStack} (h : TableInv s) (k : Nat) (frame : Mem) (len : Nat)
    (mem : Bool) : TableInv (netRx s k frame len mem).1 := by
  obtain ⟨i, hNext⟩ := netRx_progresses s k frame len mem
  exact h.continues hNext

theorem TableInv.step {s s' : NetStack} (h : TableInv s) (hStep : NetStep s s') :
    TableInv s' := by
  cases hStep with
  | addInterface name mac ip netmask gateway =>
    unfold netAddInterface
    split <;> exact h.of_table rfl
  | installSend k => exact h.of_table rfl
  | connect destIp destPort mem => exact h.connect destIp destPort mem
  | send i data mem => exact h.continues (tcpSend_continues ..)
  | recv i len => exact h.continues (tcpRecv_continues ..)
  | close i mem => exact h.continues (tcpClose_continues ..)
  | rx k frame len mem => exact h.netRx k frame len mem

theorem NetReachable.tableInv {s : NetStack} (h : NetReachable s) : TableInv s := by
  induction h with
  | refl => exact tableInv_init
  | tail _ hStep ih => exact ih.step hStep

/-! ### When the headers of a frame fit it -/

def IcmpFits (frame : Mem) (icmp len : Nat) : Prop :=
  icmp + 1 ≤ len ∧ (frame icmp = 0 → icmp + 8 ≤ len)

/-- The TCP header is used up to its flags; its length field counts when the segment belongs to a
connection. -/
def TcpFits (s : NetStack) (srcIp dstIp : UInt32) (frame : Mem) (tcp tcpLen len : Nat) : Prop :=
  tcp + 14 ≤ len ∧
    ((tcpFindConnection s srcIp (ntohs (load16 frame tcp)) dstIp
      (ntohs (load16 frame (tcp + 2)))).isSome → tcpHeaderLen frame tcp ≤ tcpLen)

def IpFits (s : NetStack) (frame : Mem) (ip len : Nat) : Prop :=
  ipHeaderLen frame ip ≤ ipTotalLen frame ip ∧
    (frame (ip + 9) = ipProtoIcmp → IcmpFits frame (ip + ipHeaderLen frame ip) len) ∧
    (frame (ip + 9) = ipProtoTcp →
      TcpFits s (load32 frame (ip + 12)) (load32 frame (ip + 16)) frame
        (ip + ipHeaderLen frame ip) (ipTotalLen frame ip - ipHeaderLen frame ip) len)

/-- Only an IPv4 packet that is not longer than the frame is looked into. -/
def FrameFits (s : NetStack) (frame : Mem) (len : Nat) : Prop :=
  ethHlen + ipHdrLen ≤ len → ntohs (load16 frame 12) = ethPIp → frame ethHlen >>> 4 = 4 →
    ethHlen + ipTotalLen frame ethHlen ≤ len → IpFits s frame ethHlen len

theorem icmpHandle_allOk (frame : Mem) (icmp len : Nat) :
    AllOk len (icmpHandle frame icmp) ↔ IcmpFits frame icmp len := by
  unfold icmpHandle IcmpFits
  split
  case isTrue hReply =>
    simp only [allOk_cons, allOk_nil, ok_read Nat.zero_lt_one, ok_read Nat.zero_lt_two, hReply,
      and_true, forall_true_left]
  case isFalse hOther =>
    simp only [allOk_cons, allOk_nil, ok_read Nat.zero_lt_one, hOther, and_true, false_imp_iff]

theorem tcpStateMachine_allOk {s : NetStack} {i len : Nat} {seg : Segment}
    (hData : seg.data + seg.dataLen ≤ len)
    (hSum : (s.tcpConnections i).recvLen + seg.dataLen < 2 ^ 64) (mem : Bool) :
    AllOk len (tcpStateMachine s i seg mem).2 := by
  have hEstablished : AllOk len (handleEstablished s i seg mem).2 := by
    unfold handleEstablished
    dsimp only
    split
    case isTrue hFin => exact allOk_nil len
    case isFalse hOpen =>
      split
      case isFalse hEmpty => exact allOk_nil len
      case isTrue hSome =>
        split
        case isTrue hFits =>
          rw [allOk_cons, allOk_cons, ok_read hSome]
          exact ⟨hSum, hData, allOk_nil len⟩
        case isFalse hFull =>
          rw [allOk_cons]
          exact ⟨hSum, allOk_nil len⟩
  unfold tcpStateMachine
  dsimp only
  split
  case h_2 => exact hEstablished
  case h_1 =>
    split
    case isTrue => exact allOk_nil len
    case isFalse => split <;> exact allOk_nil len
  case h_3 => exact allOk_nil len
  case h_7 => exact allOk_nil len
  case h_8 => exact allOk_nil len
  all_goals split <;> exact allOk_nil len

theorem tcpHandleSegment_allOk {s : NetStack} (hInv : TableInv s) {tcp tcpLen len : Nat}
    (hInside : tcp + tcpLen ≤ len) (hShort : tcpLen < 2 ^ 16) (srcIp dstIp : UInt32) (frame : Mem)
    (mem : Bool) : AllOk len (tcpHandleSegment s srcIp dstIp frame tcp tcpLen mem).2 ↔
      TcpFits s srcIp dstIp frame tcp tcpLen len := by
  have hHeader : AllOk len [.read tcp 2, .read (tcp + 2) 2, .read (tcp + 4) 4, .read (tcp + 8) 4,
      .read (tcp + 13) 1] ↔ tcp + 14 ≤ len := by
    simp only [allOk_cons, allOk_nil, ok_read Nat.zero_lt_one, ok_read Nat.zero_lt_two,
      ok_read (show 0 < 4 by decide), and_true]
    omega
  unfold tcpHandleSegment TcpFits
  dsimp only
  split
  case h_1 hNone =>
    rw [hHeader, hNone]
    simp
  case h_2 i hFound =>
    rw [allOk_append, allOk_append, hHeader, hFound]
    simp only [allOk_cons, allOk_nil, ok_read Nat.zero_lt_one, ok_sub, and_true,
      Option.isSome_some, forall_true_left]
    constructor
    · rintro ⟨⟨hHead, -, hLen⟩, -⟩
      exact ⟨hHead, hLen⟩
    · rintro ⟨hHead, hLen⟩
      refine ⟨⟨hHead, by omega, hLen⟩, ?_⟩
      have hData : (segmentAt frame tcp tcpLen).dataLen = tcpLen - tcpHeaderLen frame tcp :=
        sub64_of_le hLen (by omega)
      have hStart : (segmentAt frame tcp tcpLen).data = tcp + tcpHeaderLen frame tcp := rfl
      apply tcpStateMachine_allOk
      · rw [hData, hStart]
        omega
      · have hRoom := hInv.bounded i
        have hCapacity := hInv.capacity i
        rw [hData]
        omega

theorem ipTotalLen_lt (frame : Mem) (ip : Nat) : ipTotalLen frame ip < 2 ^ 16 :=
  (ntohs (load16 frame (ip + 2))).toNat_lt

theorem ipHandle_allOk {s : NetStack} (hInv : TableInv s) {ip len : Nat}
    (hHeader : ip + ipHdrLen ≤ len) (frame : Mem) (mem : Bool) :
    AllOk len (ipHandle s frame ip (len - ip) mem).2 ↔ (frame ip >>> 4 = 4 →
      ip + ipTotalLen frame ip ≤ len → IpFits s frame ip len) := by
  have hFixed : ip + 20 ≤ len := hHeader
  have hReads : AllOk len [.read ip 1, .read (ip + 2) 2, .sub (ipTotalLen frame ip)
      (ipHeaderLen frame ip), .read (ip + 9) 1] ↔
      ipHeaderLen frame ip ≤ ipTotalLen frame ip := by
    simp only [allOk_cons, allOk_nil, ok_read Nat.zero_lt_one, ok_read Nat.zero_lt_two, ok_sub,
      and_true]
    omega
  unfold ipHandle
  dsimp only
  split
  case isTrue hVersion =>
    simp only [allOk_cons, allOk_nil, ok_read Nat.zero_lt_one, and_true]
    exact iff_of_true (by omega) fun hFour => absurd hFour hVersion
  case isFalse hVersion =>
    have hFour : frame ip >>> 4 = 4 := Classical.not_not.mp hVersion
    split
    case isTrue hTruncated =>
      simp only [allOk_cons, allOk_nil, ok_read Nat.zero_lt_one, ok_read Nat.zero_lt_two, and_true]
      exact iff_of_true (by omega) fun _ hWhole => by omega
    case isFalse hWhole =>
      have hWhole : ip + ipTotalLen frame ip ≤ len := by omega
      simp only [hFour, hWhole, forall_true_left, IpFits]
      split
      case isTrue hIcmp =>
        have hNotTcp : ¬ ipProtoIcmp = ipProtoTcp := by decide
        rw [allOk_append, hReads, icmpHandle_allOk]
        simp only [hIcmp, hNotTcp, forall_true_left, false_imp_iff, and_true]
      case isFalse hNotIcmp =>
        split
        case isFalse hOther =>
          rw [hReads]
          simp only [hNotIcmp, hOther, false_imp_iff, and_true]
        case isTrue hTcp =>
          have hNotIcmp : ¬ ipProtoTcp = ipProtoIcmp := by decide
          rw [allOk_append, allOk_append, hReads]
          simp only [hNotIcmp, hTcp, false_imp_iff, forall_true_left, true_and, and_assoc]
          refine and_congr_right fun hNest => ?_
          have hTotal := ipTotalLen_lt frame ip
          have hAddresses : AllOk len [.read (ip + 12) 4, .read (ip + 16) 4] := by
            simp only [allOk_cons, allOk_nil, ok_read (show 0 < 4 by decide), and_true]
            omega
          rw [sub64_of_le hNest (by omega), and_iff_right hAddresses]
          exact tcpHandleSegment_allOk hInv (by omega) (by omega) _ _ frame mem

theorem arpHandle_allOk {len arp : Nat} (hHeader : arp + arpHdrLen ≤ len) (s : NetStack) (k : Nat)
    (frame : Mem) : AllOk len (arpHandle s k frame arp).2 := by
  have hFixed : arp + 28 ≤ len := hHeader
  have hRead : ∀ off n, off + n ≤ 28 → (Access.read (arp + off) n).Ok len := by
    intro off n hEnd j hj
    omega
  unfold arpHandle
  dsimp only
  split
  case isTrue hRequest =>
    split
    case isTrue hOurs =>
      simp only [allOk_cons, allOk_nil, and_true]
      exact ⟨hRead 6 2 (by decide), hRead 24 4 (by decide), hRead 8 6 (by decide),
        hRead 14 4 (by decide)⟩
    case isFalse hOther =>
      simp only [allOk_cons, allOk_nil, and_true]
      exact ⟨hRead 6 2 (by decide), hRead 24 4 (by decide)⟩
  case isFalse hNotRequest =>
    split
    case isTrue hReply =>
      simp only [allOk_cons, allOk_nil, and_true]
      exact ⟨hRead 6 2 (by decide), hRead 14 4 (by decide), hRead 8 6 (by decide)⟩
    case isFalse hOther =>
      simp only [allOk_cons, allOk_nil, and_true]
      exact hRead 6 2 (by decide)

theorem netRx_allOk {s : NetStack} (hInv : TableInv s) {len : Nat} (hLen : len < 2 ^ 64) (k : Nat)
    (frame : Mem) (mem : Bool) :
    AllOk len (netRx s k frame len mem).2 ↔ FrameFits s frame len := by
  unfold netRx FrameFits
  dsimp only
  split
  case isTrue hShort =>
    have hShort : len < 14 := hShort
    exact iff_of_true (allOk_nil len) fun hLong => by
      have hLong : 14 + 20 ≤ len := hLong
      omega
  case isFalse hWhole =>
    have hWhole : 14 ≤ len := Nat.le_of_not_lt hWhole
    have hHeader : AllOk len [.read 12 2, .sub len ethHlen] := by
      simp only [allOk_cons, allOk_nil, ok_read Nat.zero_lt_two, ok_sub, and_true]
      exact ⟨hWhole, hWhole⟩
    have hPayload : sub64 len ethHlen = len - ethHlen := sub64_of_le hWhole hLen
    rw [hPayload]
    split
    case isTrue hArp =>
      have hNotIp : ntohs (load16 frame 12) ≠ ethPIp := by
        rw [hArp]
        decide
      refine iff_of_true ?_ fun _ hIp => absurd hIp hNotIp
      split
      case isTrue hRoom =>
        have hRoom : 28 ≤ len - 14 := hRoom
        rw [allOk_append]
        refine ⟨hHeader, arpHandle_allOk ?_ _ k frame⟩
        show 14 + 28 ≤ len
        omega
      case isFalse hNone => exact hHeader
    case isFalse hNotArp =>
      split
      case isFalse hOther => exact iff_of_true hHeader fun _ hIp => absurd hIp hOther
      case isTrue hIp =>
        split
        case isFalse hNone =>
          have hNone : ¬ 20 ≤ len - 14 := hNone
          refine iff_of_true hHeader fun hLong => ?_
          have hLong : 14 + 20 ≤ len := hLong
          omega
        case isTrue hRoom =>
          have hRoom : 20 ≤ len - 14 := hRoom
          have hLong : ethHlen + ipHdrLen ≤ len := by
            show 14 + 20 ≤ len
            omega
          have hCounted : ∀ iface, AllOk len
              (ipHandle (s.setInterface k iface) frame ethHlen (len - ethHlen) mem).2 ↔
              (frame ethHlen >>> 4 = 4 → ethHlen + ipTotalLen frame ethHlen ≤ len →
                IpFits s frame ethHlen len) := by
            intro iface
            have hSame : TableInv (s.setInterface k iface) := hInv.of_table rfl
            exact ipHandle_allOk hSame hLong frame mem
          rw [allOk_append, and_iff_right hHeader, hCounted]
          simp only [hLong, hIp, forall_true_left]

/-- On every reachable table, a frame is received without a wrapped length, without a read behind
its end and with every receive buffer within its capacity exactly when its headers fit it. -/
theorem rx_bounds_iff {s : NetStack} (hReach : NetReachable s) {len : Nat} (hLen : len < 2 ^ 64)
    (k : Nat) (frame : Mem) (mem : Bool) :
    AllOk len (netRx s k frame len mem).2 ∧ RecvBounded (netRx s k frame len mem).1 ↔
      FrameFits s frame len := by
  rw [netRx_allOk hReach.tableInv hLen k frame mem]
  exact and_iff_left (hReach.tableInv.netRx k frame len mem).bounded

/-- An IPv4 packet of `total` bytes to a protocol that is only counted, in a frame of 34 bytes. -/
def shortIpFrame (total : UInt8) : Mem := fun a =>
  if a = 12 then 8 else if a = 14 then 0x45 else if a = 17 then total else 0

theorem rx_bounds_iff_whole_header :
    NetReachable (tcpipInit staticStack) ∧
      AllOk 34 (netRx (tcpipInit staticStack) 0 (shortIpFrame 20) 34 true).2 ∧
      RecvBounded (netRx (tcpipInit staticStack) 0 (shortIpFrame 20) 34 true).1 :=
  ⟨.refl, (rx_bounds_iff .refl (by decide) 0 (shortIpFrame 20) true).mpr fun _ _ _ _ =>
    ⟨by decide +kernel, fun hIcmp => absurd hIcmp (by decide +kernel),
      fun hTcp => absurd hTcp (by decide +kernel)⟩⟩

theorem rx_bounds_total_below_header :
    NetReachable (tcpipInit staticStack) ∧
      ¬ AllOk 34 (netRx (tcpipInit staticStack) 0 (shortIpFrame 0) 34 true).2 := by
  refine ⟨.refl, fun hOk => ?_⟩
  have hWrapped : Access.sub 0 20 ∈
      (netRx (tcpipInit staticStack) 0 (shortIpFrame 0) 34 true).2 := by decide +kernel
  have hNest := ok_sub.mp (hOk _ hWrapped)
  omega

end UnixOS.Net
