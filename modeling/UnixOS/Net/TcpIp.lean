import UnixOS.Lib.Memory
import Mathlib.Data.Vector.Defs
import Mathlib.Logic.Function.Basic

/-! # The network stack of `kernel/net/tcp_ip.c`

Interfaces, the ARP cache, the connection table and every function that reads or changes them on
the receive path and in the TCP calls. Received frames lie in a byte memory that goes on after
their last byte, and the receive path records each range of bytes it reads and the operands of
each length it computes.
-/

namespace UnixOS.Net

open ByteMemory

def ethHlen : Nat := 14
def ethPIp : UInt16 := 0x0800
def ethPArp : UInt16 := 0x0806
def arpHdrLen : Nat := 28
def ipHdrLen : Nat := 20
def tcpHdrLen : Nat := 20
def icmpHdrLen : Nat := 8
def udpHdrLen : Nat := 8
def ipProtoIcmp : UInt8 := 1
def ipProtoTcp : UInt8 := 6
def ipProtoUdp : UInt8 := 17
def tcpFin : UInt8 := 0x01
def tcpSyn : UInt8 := 0x02
def tcpRst : UInt8 := 0x04
def tcpPsh : UInt8 := 0x08
def tcpAck : UInt8 := 0x10
def arpCacheSize : Nat := 64
def maxInterfaces : Nat := 4
def maxTcpConnections : Nat := 256

def add64 (a b : Nat) : Nat := (a + b) % 2 ^ 64
def sub64 (a b : Nat) : Nat := (a + 2 ^ 64 - b) % 2 ^ 64

def htons (v : UInt16) : UInt16 := ((v >>> 8) &&& (0xFF : UInt16)) ||| ((v &&& 0xFF) <<< 8)
def ntohs (v : UInt16) : UInt16 := htons v
def htonl (v : UInt32) : UInt32 :=
  ((v >>> 24) &&& (0xFF : UInt32)) ||| ((v >>> 8) &&& (0xFF00 : UInt32)) |||
    ((v &&& 0xFF00) <<< 8) ||| ((v &&& 0xFF) <<< 24)
def ntohl (v : UInt32) : UInt32 := htonl v

def load16 (m : Mem) (a : Nat) : UInt16 := UInt16.ofNat (load m 2 a)
def load32 (m : Mem) (a : Nat) : UInt32 := UInt32.ofNat (load m 4 a)

theorem toNat_shift8 (v : UInt16) : (v >>> 8).toNat = v.toNat / 256 := by
  rw [UInt16.toNat_shiftRight]
  exact Nat.shiftRight_eq_div_pow v.toNat 8

theorem toNat_htons (v : UInt16) : (htons v).toNat = v.toNat % 256 * 256 + v.toNat / 256 := by
  have hv := v.toNat_lt
  have hDiv : v.toNat / 256 < 256 := by omega
  have hMask : ∀ n : Nat, n &&& 255 = n % 256 := fun n => Nat.and_two_pow_sub_one_eq_mod n 8
  have hHigh : ((v >>> 8) &&& (0xFF : UInt16)).toNat = v.toNat / 256 := by
    rw [UInt16.toNat_and, toNat_shift8]
    exact (hMask _).trans (Nat.mod_eq_of_lt hDiv)
  have hLow : ((v &&& (0xFF : UInt16)) <<< 8).toNat = 2 ^ 8 * (v.toNat % 256) := by
    rw [UInt16.toNat_shiftLeft, UInt16.toNat_and, Nat.shiftLeft_eq, Nat.mul_comm]
    exact (congrArg (fun n => 2 ^ 8 * n % 2 ^ 16) (hMask v.toNat)).trans (Nat.mod_eq_of_lt (by omega))
  rw [htons, UInt16.toNat_or, hHigh, hLow, Nat.or_comm, ← Nat.two_pow_add_eq_or_of_lt (by omega)]
  omega

abbrev Mac := Vector UInt8 6

def loadMac (m : Mem) (a : Nat) : Mac := Vector.ofFn fun i => m (a + i)

/-! ### Headers, interfaces and connections -/

structure EthHdr where
  dest : Mac
  src : Mac
  type : UInt16
deriving DecidableEq

structure ArpHdr where
  hwType : UInt16
  protoType : UInt16
  hwLen : UInt8
  protoLen : UInt8
  opcode : UInt16
  senderMac : Mac
  senderIp : UInt32
  targetMac : Mac
  targetIp : UInt32
deriving DecidableEq

structure IpHdr where
  versionIhl : UInt8
  tos : UInt8
  totalLen : UInt16
  id : UInt16
  flagsFrag : UInt16
  ttl : UInt8
  protocol : UInt8
  checksum : UInt16
  srcIp : UInt32
  dstIp : UInt32
deriving DecidableEq

structure TcpHdr where
  srcPort : UInt16
  dstPort : UInt16
  seq : UInt32
  ack : UInt32
  dataOffset : UInt8
  flags : UInt8
  window : UInt16
  checksum : UInt16
  urgent : UInt16
deriving DecidableEq

structure IcmpHdr where
  type : UInt8
  code : UInt8
  checksum : UInt16
  id : UInt16
  seq : UInt16
deriving DecidableEq

structure UdpHdr where
  srcPort : UInt16
  dstPort : UInt16
  length : UInt16
  checksum : UInt16
deriving DecidableEq

/-- A packet handed to a driver; the fields hold the values as they stand in memory. -/
inductive Packet where
  | arp (eth : EthHdr) (arp : ArpHdr)
  | tcp (eth : EthHdr) (ip : IpHdr) (tcp : TcpHdr) (payload : List UInt8)
  | icmp (eth : EthHdr) (ip : IpHdr) (icmp : IcmpHdr)
  | udp (eth : EthHdr) (ip : IpHdr) (udp : UdpHdr) (payload : List UInt8)
deriving DecidableEq

structure ArpEntry where
  ip : UInt32
  mac : Mac
  timestamp : UInt64
  valid : Bool

structure NetInterface where
  name : List UInt8
  mac : Mac
  ip : UInt32
  netmask : UInt32
  gateway : UInt32
  up : Bool
  rxPackets : UInt64
  txPackets : UInt64
  rxBytes : UInt64
  txBytes : UInt64
  send : Bool

inductive TcpState where
  | closed | listen | synSent | synReceived | established | finWait1 | finWait2 | closeWait
  | closing | lastAck | timeWait
deriving DecidableEq

structure TcpConnection where
  localIp : UInt32
  localPort : UInt16
  remoteIp : UInt32
  remotePort : UInt16
  state : TcpState
  seq : UInt32
  ack : UInt32
  recvWnd : UInt32
  sendWnd : UInt32
  recvBuf : Mem
  recvLen : Nat
  recvCapacity : Nat
  sendBuf : Mem
  sendLen : Nat
  sendCapacity : Nat
  inUse : Bool

structure NetStack where
  arpCache : List ArpEntry
  interfaces : Nat → NetInterface
  numInterfaces : Nat
  tcpConnections : Nat → TcpConnection
  nextEphemeralPort : UInt16
  tcpIsnCounter : UInt32
  /-- Packets handed to a driver so far, each with its interface. -/
  sent : List (Nat × Packet)

def NetStack.setConnection (s : NetStack) (i : Nat) (conn : TcpConnection) : NetStack :=
  { s with tcpConnections := Function.update s.tcpConnections i conn }

def NetStack.setInterface (s : NetStack) (k : Nat) (iface : NetInterface) : NetStack :=
  { s with interfaces := Function.update s.interfaces k iface }

/-- `iface->send(iface, packet, len)`, where a driver has installed it. -/
def NetStack.transmit (s : NetStack) (k : Nat) (packet : Packet) : NetStack :=
  if (s.interfaces k).send then { s with sent := s.sent ++ [(k, packet)] } else s

/-! ### Initialisation -/

def zeroMac : Mac := Vector.replicate 6 0

def zeroInterface : NetInterface :=
  { name := [], mac := zeroMac, ip := 0, netmask := 0, gateway := 0, up := false,
    rxPackets := 0, txPackets := 0, rxBytes := 0, txBytes := 0, send := false }

def zeroConnection : TcpConnection :=
  { localIp := 0, localPort := 0, remoteIp := 0, remotePort := 0, state := .closed,
    seq := 0, ack := 0, recvWnd := 0, sendWnd := 0,
    recvBuf := fun _ => 0, recvLen := 0, recvCapacity := 0,
    sendBuf := fun _ => 0, sendLen := 0, sendCapacity := 0, inUse := false }

/-- The static data of the file, before `tcpip_init`. -/
def staticStack : NetStack :=
  { arpCache := List.replicate arpCacheSize ⟨0, zeroMac, 0, false⟩
    interfaces := fun _ => zeroInterface
    numInterfaces := 0
    tcpConnections := fun _ => zeroConnection
    nextEphemeralPort := 49152
    tcpIsnCounter := 0x12345678
    sent := [] }

def tcpipInit (s : NetStack) : NetStack :=
  { s with
    arpCache := s.arpCache.map fun e => { e with valid := false }
    tcpConnections := fun i =>
      if i < maxTcpConnections then { s.tcpConnections i with inUse := false }
      else s.tcpConnections i
    interfaces := Function.update s.interfaces s.numInterfaces
      { s.interfaces s.numInterfaces with
        name := [108, 111], ip := 0x7F000001, netmask := 0xFF000000, gateway := 0, up := true }
    numInterfaces := s.numInterfaces + 1 }

/-- Returns the index of the new interface, or `none` for `NULL`. -/
def netAddInterface (s : NetStack) (name : List UInt8) (mac : Mac) (ip netmask gateway : UInt32) :
    NetStack × Option Nat :=
  if s.numInterfaces ≥ maxInterfaces then (s, none)
  else
    ({ s.setInterface s.numInterfaces
        { zeroInterface with
          name := (name.take 15).takeWhile (· ≠ 0)
          mac := mac, ip := ip, netmask := netmask, gateway := gateway, up := true } with
        numInterfaces := s.numInterfaces + 1 },
      some s.numInterfaces)

/-- The index of the interface that is reported: the first that is not named `lo`, else the first;
`none` for `-1`. -/
def netGetPrimaryInterfaceInfo (s : NetStack) : Option Nat :=
  if s.numInterfaces = 0 then none
  else some (((List.range s.numInterfaces).find? fun k => (s.interfaces k).name ≠ [108, 111]).getD 0)

/-! ### Checksums -/

def sumWords : List UInt8 → UInt32 → UInt32
  | a :: b :: rest, sum => sumWords rest (sum + (a.toUInt32 ||| (b.toUInt32 <<< 8)))
  | [a], sum => sum + a.toUInt32
  | [], sum => sum

def foldSum (sum : UInt32) : UInt32 :=
  if sum.toNat / 65536 ≠ 0 then foldSum ((sum &&& (0xFFFF : UInt32)) + (sum >>> 16)) else sum
termination_by sum.toNat
decreasing_by
  have hAnd : (sum &&& 0xFFFF).toNat = sum.toNat % 65536 := by
    rw [UInt32.toNat_and]
    exact Nat.and_two_pow_sub_one_eq_mod sum.toNat 16
  have hShift : (sum >>> 16).toNat = sum.toNat / 65536 := by
    rw [UInt32.toNat_shiftRight]
    exact Nat.shiftRight_eq_div_pow sum.toNat 16
  rw [UInt32.toNat_add, hAnd, hShift]
  exact Nat.lt_of_le_of_lt (Nat.mod_le _ _) (by omega)

def checksum (data : List UInt8) : UInt16 := ~~~(foldSum (sumWords data 0)).toUInt16

def bytes16 (v : UInt16) : List UInt8 := [v.toUInt8, (v >>> 8).toUInt8]
def bytes32 (v : UInt32) : List UInt8 :=
  [v.toUInt8, (v >>> 8).toUInt8, (v >>> 16).toUInt8, (v >>> 24).toUInt8]

def IpHdr.bytes (ip : IpHdr) : List UInt8 :=
  [ip.versionIhl, ip.tos] ++ bytes16 ip.totalLen ++ bytes16 ip.id ++ bytes16 ip.flagsFrag ++
    [ip.ttl, ip.protocol] ++ bytes16 ip.checksum ++ bytes32 ip.srcIp ++ bytes32 ip.dstIp

def TcpHdr.bytes (tcp : TcpHdr) : List UInt8 :=
  bytes16 tcp.srcPort ++ bytes16 tcp.dstPort ++ bytes32 tcp.seq ++ bytes32 tcp.ack ++
    [tcp.dataOffset, tcp.flags] ++ bytes16 tcp.window ++ bytes16 tcp.checksum ++
    bytes16 tcp.urgent

def tcpChecksum (ip : IpHdr) (segment : List UInt8) (tcpLen : Nat) : UInt16 :=
  let sum : UInt32 := ((ip.srcIp >>> 16) &&& (0xFFFF : UInt32)) + (ip.srcIp &&& (0xFFFF : UInt32)) +
    ((ip.dstIp >>> 16) &&& (0xFFFF : UInt32)) + (ip.dstIp &&& (0xFFFF : UInt32)) +
    (htons ipProtoTcp.toUInt16).toUInt32 + (htons (UInt16.ofNat tcpLen)).toUInt32
  ~~~(foldSum (sumWords (segment.take tcpLen) sum)).toUInt16

/-! ### ARP, ICMP and UDP -/

def NetStack.sendOn (s : NetStack) (k : Nat) (packet : Packet) (len : Nat) : NetStack :=
  let iface := s.interfaces k
  if iface.send then
    (s.transmit k packet).setInterface k
      { iface with txPackets := iface.txPackets + 1, txBytes := iface.txBytes + UInt64.ofNat len }
  else s

/-- The flag returned is the success of the call. -/
def arpSendRequest (s : NetStack) (targetIp : UInt32) : NetStack × Bool :=
  if s.numInterfaces = 0 then (s, false)
  else
    let iface := s.interfaces 0
    let eth : EthHdr := { dest := Vector.replicate 6 0xFF, src := iface.mac, type := htons ethPArp }
    let arp : ArpHdr :=
      { hwType := htons 1, protoType := htons ethPIp, hwLen := 6, protoLen := 4, opcode := htons 1
        senderMac := iface.mac, senderIp := iface.ip, targetMac := zeroMac, targetIp := targetIp }
    (s.sendOn 0 (.arp eth arp) (ethHlen + arpHdrLen), true)

def plainIpHdr (iface : NetInterface) (protocol : UInt8) (dstIp : UInt32) (len : Nat) : IpHdr :=
  let ip : IpHdr :=
    { versionIhl := 0x45, tos := 0, totalLen := htons (UInt16.ofNat (ipHdrLen + len)), id := htons 1
      flagsFrag := 0, ttl := 64, protocol := protocol, checksum := 0, srcIp := iface.ip, dstIp := dstIp }
  { ip with checksum := checksum ip.bytes }

def IcmpHdr.bytes (icmp : IcmpHdr) : List UInt8 :=
  [icmp.type, icmp.code] ++ bytes16 icmp.checksum ++ bytes16 icmp.id ++ bytes16 icmp.seq

/-- `mem` is what the first six bytes of the packet hold when `kmalloc` finds room for it: the
destination address is not written. -/
def icmpSendEcho (s : NetStack) (destIp : UInt32) (id seq : UInt16) (mem : Option Mac) :
    NetStack × Bool :=
  if s.numInterfaces = 0 then (s, false)
  else
    match mem with
    | none => (s, false)
    | some dest =>
      let iface := s.interfaces 0
      let eth : EthHdr := { dest := dest, src := iface.mac, type := htons ethPIp }
      let icmp : IcmpHdr := { type := 8, code := 0, checksum := 0, id := htons id, seq := htons seq }
      let icmp := { icmp with checksum := checksum icmp.bytes }
      (s.sendOn 0 (.icmp eth (plainIpHdr iface ipProtoIcmp destIp icmpHdrLen) icmp)
        (ethHlen + ipHdrLen + icmpHdrLen), true)

def udpSend (s : NetStack) (destIp : UInt32) (srcPort destPort : UInt16) (data : List UInt8)
    (mem : Option Mac) : NetStack × Bool :=
  if s.numInterfaces = 0 then (s, false)
  else
    match mem with
    | none => (s, false)
    | some dest =>
      let iface := s.interfaces 0
      let eth : EthHdr := { dest := dest, src := iface.mac, type := htons ethPIp }
      let udp : UdpHdr :=
        { srcPort := htons srcPort, dstPort := htons destPort
          length := htons (UInt16.ofNat (udpHdrLen + data.length)), checksum := 0 }
      (s.sendOn 0 (.udp eth (plainIpHdr iface ipProtoUdp destIp (udpHdrLen + data.length)) udp data)
        (ethHlen + ipHdrLen + udpHdrLen + data.length), true)

/-! ### TCP calls -/

def tcpFreeConnection (conn : TcpConnection) : TcpConnection := { conn with inUse := false }

def tcpPacket (iface : NetInterface) (conn : TcpConnection) (flags : UInt8)
    (data : List UInt8) : Packet :=
  let tcpLen := tcpHdrLen + data.length
  let eth : EthHdr :=
    { dest := Vector.replicate 6 0xFF, src := iface.mac, type := htons ethPIp }
  let ip : IpHdr :=
    { versionIhl := 0x45, tos := 0
      totalLen := htons (UInt16.ofNat (ipHdrLen + tcpLen))
      id := htons (conn.seq &&& 0xFFFF).toUInt16
      flagsFrag := htons 0x4000, ttl := 64, protocol := ipProtoTcp, checksum := 0
      srcIp := conn.localIp, dstIp := conn.remoteIp }
  let ip := { ip with checksum := checksum ip.bytes }
  let tcp : TcpHdr :=
    { srcPort := htons conn.localPort, dstPort := htons conn.remotePort
      seq := htonl conn.seq, ack := htonl conn.ack
      dataOffset := 0x50, flags := flags
      window := htons conn.recvWnd.toUInt16, checksum := 0, urgent := 0 }
  let tcp := { tcp with checksum := tcpChecksum ip (tcp.bytes ++ data) tcpLen }
  .tcp eth ip tcp data

/-- `mem` tells whether `kmalloc` finds room for the packet; the flag returned is the success of
the call. -/
def tcpSendPacket (s : NetStack) (conn : TcpConnection) (flags : UInt8) (data : List UInt8)
    (mem : Bool) : NetStack × Bool :=
  if s.numInterfaces = 0 then (s, false)
  else if !mem then (s, false)
  else
    let iface := s.interfaces 0
    let s := s.transmit 0 (tcpPacket iface conn flags data)
    if iface.send then
      (s.setInterface 0
        { iface with
          txPackets := iface.txPackets + 1
          txBytes := iface.txBytes +
            UInt64.ofNat (ethHlen + ipHdrLen + tcpHdrLen + data.length) }, true)
    else (s, true)

/-- What `kmalloc` gives a call of `tcp_connect`: the two buffers, with whatever they hold, and
whether the packet finds room. -/
structure ConnectMem where
  recvBuf : Mem
  sendBuf : Mem
  packet : Bool

def tcpAllocConnection (s : NetStack) (mem : ConnectMem) : Option (Nat × TcpConnection) :=
  match (List.range maxTcpConnections).find? fun i => !(s.tcpConnections i).inUse with
  | none => none
  | some i =>
    some (i, { s.tcpConnections i with
      inUse := true, state := .closed, recvCapacity := 65536, sendCapacity := 65536
      recvBuf := mem.recvBuf, sendBuf := mem.sendBuf, recvLen := 0, sendLen := 0
      recvWnd := 65535, sendWnd := 65535 })

def tcpGenerateIsn (counter : UInt32) : UInt32 := counter * 1103515245 + 12345

/-- Returns the index of the connection, or `none` for `-1`. -/
def tcpConnect (s : NetStack) (destIp : UInt32) (destPort : UInt16) (mem : ConnectMem) :
    NetStack × Option Nat :=
  match tcpAllocConnection s mem with
  | none => (s, none)
  | some (i, conn) =>
    if s.numInterfaces = 0 then (s.setConnection i (tcpFreeConnection conn), none)
    else
      let port := s.nextEphemeralPort
      let isn := tcpGenerateIsn s.tcpIsnCounter
      let conn := { conn with
        localIp := (s.interfaces 0).ip, localPort := port
        remoteIp := destIp, remotePort := destPort
        seq := isn, ack := 0, state := .synSent }
      let s := { s with
        nextEphemeralPort := if port + 1 > 65000 then 49152 else port + 1
        tcpIsnCounter := isn }
      match tcpSendPacket s conn tcpSyn [] mem.packet with
      | (s, false) => (s.setConnection i (tcpFreeConnection conn), none)
      | (s, true) => (s.setConnection i { conn with seq := conn.seq + 1 }, some i)

def appendBytes (buf : Mem) (len : Nat) (data : Mem) : Nat → Mem × Nat
  | 0 => (buf, len)
  | n + 1 =>
    let (buf, len) := appendBytes buf len data n
    (Function.update buf len (data n), add64 len 1)

/-- Returns the number of bytes sent, or `none` for `-1`. -/
def tcpSend (s : NetStack) (i : Nat) (data : List UInt8) (mem : Bool) : NetStack × Option Nat :=
  let conn := s.tcpConnections i
  if conn.state ≠ .established then (s, none)
  else if add64 conn.sendLen data.length > conn.sendCapacity then (s, none)
  else
    let filled := appendBytes conn.sendBuf conn.sendLen (fun j => data.getD j 0) data.length
    let conn := { conn with sendBuf := filled.1, sendLen := filled.2 }
    match tcpSendPacket (s.setConnection i conn) conn (tcpPsh ||| tcpAck) data mem with
    | (s, false) => (s, none)
    | (s, true) =>
      (s.setConnection i { conn with seq := conn.seq + UInt32.ofNat data.length },
        some data.length)

/-- Returns the bytes copied to the caller. -/
def tcpRecv (s : NetStack) (i : Nat) (len : Nat) : NetStack × List UInt8 :=
  let conn := s.tcpConnections i
  if conn.recvLen = 0 then (s, [])
  else
    let toCopy := if len < conn.recvLen then len else conn.recvLen
    (s.setConnection i { conn with
        recvBuf := copy conn.recvBuf 0 toCopy (conn.recvLen - toCopy)
        recvLen := conn.recvLen - toCopy },
      (List.range toCopy).map conn.recvBuf)

/-- The flag returned is the success of the call. -/
def tcpClose (s : NetStack) (i : Nat) (mem : Bool) : NetStack × Bool :=
  let conn := s.tcpConnections i
  if !conn.inUse then (s, false)
  else
    let sendFin (state : TcpState) : NetStack :=
      let conn := { conn with state := state }
      (tcpSendPacket s conn (tcpFin ||| tcpAck) [] mem).1.setConnection i
        { conn with seq := conn.seq + 1 }
    match conn.state with
    | .established => (sendFin .finWait1, true)
    | .closeWait => (sendFin .lastAck, true)
    | .synSent | .listen => (s.setConnection i (tcpFreeConnection conn), true)
    | _ => (s, true)

/-! ### The receive path -/

/-- What the receive path does with the bytes and lengths of a frame: it reads the `n` bytes from
`off` on, and computes the lengths `a - b` and `a + b`. -/
inductive Access where
  | read (off n : Nat)
  | sub (a b : Nat)
  | add (a b : Nat)
deriving DecidableEq

def tcpFindConnection (s : NetStack) (remoteIp : UInt32) (remotePort : UInt16)
    (localIp : UInt32) (localPort : UInt16) : Option Nat :=
  (List.range maxTcpConnections).find? fun i =>
    let c := s.tcpConnections i
    c.inUse && c.remoteIp == remoteIp && c.remotePort == remotePort &&
      c.localIp == localIp && c.localPort == localPort

/-- What the state machine uses of a segment: its sequence number, its flags, and where in the
frame its data lies. -/
structure Segment where
  seq : UInt32
  flags : UInt8
  frame : Mem
  data : Nat
  dataLen : Nat

def Segment.has (seg : Segment) (flag : UInt8) : Prop := seg.flags &&& flag ≠ 0

instance (seg : Segment) (flag : UInt8) : Decidable (seg.has flag) :=
  inferInstanceAs (Decidable (_ ≠ _))

/-- The connection takes its new value, and an `ACK` with its acknowledgement number goes out. -/
def acknowledge (s : NetStack) (i : Nat) (conn : TcpConnection) (mem : Bool) : NetStack :=
  (tcpSendPacket (s.setConnection i conn) conn tcpAck [] mem).1

def handleEstablished (s : NetStack) (i : Nat) (seg : Segment) (mem : Bool) :
    NetStack × List Access :=
  let conn := s.tcpConnections i
  if seg.has tcpFin then
    let conn := { conn with
      ack := UInt32.ofNat (seg.seq.toNat + seg.dataLen + 1), state := .closeWait }
    (acknowledge s i conn mem, [])
  else if seg.dataLen > 0 then
    if add64 conn.recvLen seg.dataLen ≤ conn.recvCapacity then
      let filled := appendBytes conn.recvBuf conn.recvLen (fun j => seg.frame (seg.data + j))
        seg.dataLen
      let conn := { conn with
        recvBuf := filled.1, recvLen := filled.2
        ack := UInt32.ofNat (seg.seq.toNat + seg.dataLen) }
      (acknowledge s i conn mem,
        [.add (s.tcpConnections i).recvLen seg.dataLen, .read seg.data seg.dataLen])
    else (s, [.add conn.recvLen seg.dataLen])
  else (s, [])

def handleFinWait1 (s : NetStack) (i : Nat) (seg : Segment) (mem : Bool) : NetStack :=
  let conn := s.tcpConnections i
  let conn := { conn with state := if seg.has tcpAck then .finWait2 else conn.state }
  if seg.has tcpFin then
    let conn := { conn with ack := seg.seq + 1 }
    let s := acknowledge s i conn mem
    s.setConnection i
      { conn with state := if conn.state = .finWait2 then .timeWait else .closing }
  else s.setConnection i conn

def tcpStateMachine (s : NetStack) (i : Nat) (seg : Segment) (mem : Bool) :
    NetStack × List Access :=
  let conn := s.tcpConnections i
  match conn.state with
  | .synSent =>
    if seg.flags &&& (tcpSyn ||| tcpAck) = tcpSyn ||| tcpAck then
      (acknowledge s i { conn with ack := seg.seq + 1, state := .established } mem, [])
    else if seg.has tcpRst then
      (s.setConnection i (tcpFreeConnection { conn with state := .closed }), [])
    else (s, [])
  | .established => handleEstablished s i seg mem
  | .finWait1 => (handleFinWait1 s i seg mem, [])
  | .finWait2 =>
    if seg.has tcpFin then
      let conn := { conn with ack := seg.seq + 1 }
      ((acknowledge s i conn mem).setConnection i { conn with state := .timeWait }, [])
    else (s, [])
  | .closing =>
    if seg.has tcpAck then (s.setConnection i { conn with state := .timeWait }, []) else (s, [])
  | .lastAck =>
    if seg.has tcpAck then
      (s.setConnection i (tcpFreeConnection { conn with state := .closed }), [])
    else (s, [])
  | .timeWait => (s.setConnection i (tcpFreeConnection conn), [])
  | _ => (s, [])

def tcpHeaderLen (frame : Mem) (tcp : Nat) : Nat := ((frame (tcp + 12) >>> 4) &&& 0xF).toNat * 4

def segmentAt (frame : Mem) (tcp tcpLen : Nat) : Segment :=
  { seq := ntohl (load32 frame (tcp + 4)), flags := frame (tcp + 13), frame := frame
    data := tcp + tcpHeaderLen frame tcp, dataLen := sub64 tcpLen (tcpHeaderLen frame tcp) }

def tcpHandleSegment (s : NetStack) (srcIp dstIp : UInt32) (frame : Mem) (tcp tcpLen : Nat)
    (mem : Bool) : NetStack × List Access :=
  let srcPort := ntohs (load16 frame tcp)
  let dstPort := ntohs (load16 frame (tcp + 2))
  let header : List Access :=
    [.read tcp 2, .read (tcp + 2) 2, .read (tcp + 4) 4, .read (tcp + 8) 4, .read (tcp + 13) 1]
  match tcpFindConnection s srcIp srcPort dstIp dstPort with
  | none => (s, header)
  | some i =>
    let next := tcpStateMachine s i (segmentAt frame tcp tcpLen) mem
    (next.1, header ++ [.read (tcp + 12) 1, .sub tcpLen (tcpHeaderLen frame tcp)] ++ next.2)

def arpSlot : List ArpEntry → Nat → Nat → UInt64 → Nat
  | [], _, oldest, _ => oldest
  | e :: rest, i, oldest, oldestTime =>
    if !e.valid then i
    else if e.timestamp < oldestTime then arpSlot rest (i + 1) i e.timestamp
    else arpSlot rest (i + 1) oldest oldestTime

def arpAdd (s : NetStack) (ip : UInt32) (mac : Mac) : NetStack :=
  let oldest := arpSlot s.arpCache 0 0 (~~~0)
  { s with arpCache := s.arpCache.set oldest ⟨ip, mac, 0, true⟩ }

def arpHandle (s : NetStack) (k : Nat) (frame : Mem) (arp : Nat) : NetStack × List Access :=
  let iface := s.interfaces k
  let opcode := ntohs (load16 frame (arp + 6))
  if opcode = 1 then
    if load32 frame (arp + 24) = iface.ip then
      let senderMac := loadMac frame (arp + 8)
      let eth : EthHdr := { dest := senderMac, src := iface.mac, type := htons ethPArp }
      let reply : ArpHdr :=
        { hwType := htons 1, protoType := htons ethPIp, hwLen := 6, protoLen := 4
          opcode := htons 2, senderMac := iface.mac, senderIp := iface.ip
          targetMac := senderMac, targetIp := load32 frame (arp + 14) }
      (s.transmit k (.arp eth reply),
        [.read (arp + 6) 2, .read (arp + 24) 4, .read (arp + 8) 6, .read (arp + 14) 4])
    else (s, [.read (arp + 6) 2, .read (arp + 24) 4])
  else if opcode = 2 then
    (arpAdd s (load32 frame (arp + 14)) (loadMac frame (arp + 8)),
      [.read (arp + 6) 2, .read (arp + 14) 4, .read (arp + 8) 6])
  else (s, [.read (arp + 6) 2])

def icmpHandle (frame : Mem) (icmp : Nat) : List Access :=
  if frame icmp = 0 then [.read icmp 1, .read (icmp + 6) 2] else [.read icmp 1]

def ipHeaderLen (frame : Mem) (ip : Nat) : Nat := (frame ip &&& 0xF).toNat * 4

def ipTotalLen (frame : Mem) (ip : Nat) : Nat := (ntohs (load16 frame (ip + 2))).toNat

def ipHandle (s : NetStack) (frame : Mem) (ip len : Nat) (mem : Bool) :
    NetStack × List Access :=
  if frame ip >>> 4 ≠ 4 then (s, [.read ip 1])
  else
    let ipHlen := ipHeaderLen frame ip
    let totalLen := ipTotalLen frame ip
    if len < totalLen then (s, [.read ip 1, .read (ip + 2) 2])
    else
      let payload := ip + ipHlen
      let payloadLen := sub64 totalLen ipHlen
      let header : List Access :=
        [.read ip 1, .read (ip + 2) 2, .sub totalLen ipHlen, .read (ip + 9) 1]
      let protocol := frame (ip + 9)
      if protocol = ipProtoIcmp then (s, header ++ icmpHandle frame payload)
      else if protocol = ipProtoTcp then
        let next := tcpHandleSegment s (load32 frame (ip + 12)) (load32 frame (ip + 16)) frame
          payload payloadLen mem
        (next.1, header ++ [.read (ip + 12) 4, .read (ip + 16) 4] ++ next.2)
      else (s, header)

def netRx (s : NetStack) (k : Nat) (frame : Mem) (len : Nat) (mem : Bool) :
    NetStack × List Access :=
  if len < ethHlen then (s, [])
  else
    let type := ntohs (load16 frame 12)
    let iface := s.interfaces k
    let s := s.setInterface k
      { iface with
        rxPackets := iface.rxPackets + 1, rxBytes := iface.rxBytes + UInt64.ofNat len }
    let payloadLen := sub64 len ethHlen
    let header : List Access := [.read 12 2, .sub len ethHlen]
    if type = ethPArp then
      if payloadLen ≥ arpHdrLen then
        let next := arpHandle s k frame ethHlen
        (next.1, header ++ next.2)
      else (s, header)
    else if type = ethPIp then
      if payloadLen ≥ ipHdrLen then
        let next := ipHandle s frame ethHlen payloadLen mem
        (next.1, header ++ next.2)
      else (s, header)
    else (s, header)

end UnixOS.Net
