import UnixOS.Lib.OnesComplement
import UnixOS.Net.AddressOrder

/-! # The bytes of a packet

What `tcp_send_packet`, `icmp_send_echo` and `udp_send` lay down behind the Ethernet header: the lengths that stand
in the headers, and the checksums as a receiver checks them. All sums are made of words with the first byte lowest,
a receiver takes the first byte as the highest.
-/

namespace UnixOS.Net

open OnesComplement

/-! ### Headers and payload -/

def UdpHdr.bytes (udp : UdpHdr) : List UInt8 :=
  bytes16 udp.srcPort ++ bytes16 udp.dstPort ++ bytes16 udp.length ++ bytes16 udp.checksum

def Packet.ipPayload : Packet → List UInt8
  | .arp _ _ => []
  | .tcp _ _ hdr payload => hdr.bytes ++ payload
  | .icmp _ _ hdr => hdr.bytes
  | .udp _ _ hdr payload => hdr.bytes ++ payload

def Packet.datagram (packet : Packet) : List UInt8 :=
  (packet.ipHdr.elim [] IpHdr.bytes) ++ packet.ipPayload

def fieldAt (bytes : List UInt8) (i : Nat) : Nat := 256 * (bytes.getD i 0).toNat + (bytes.getD (i + 1) 0).toNat

def tcpBuilt (s : NetStack) (conn : TcpConnection) (flags : UInt8) (data : List UInt8) (mem : Bool) : List Packet :=
  ((tcpSendPacket s.driven conn flags data mem).1.sent.drop s.sent.length).map Prod.snd

/-- The `int` that `udp_send` returns. -/
def udpSendRet (s : NetStack) (destIp : UInt32) (srcPort destPort : UInt16) (data : List UInt8) (mem : Option Mac) : Int :=
  if (udpSend s destIp srcPort destPort data mem).2 then Int.bmod data.length (2 ^ 32) else -1

/-- `total_len` counts the bytes behind the Ethernet header, and the length field of UDP those behind the IP header. -/
structure Packet.LengthsMatch (packet : Packet) : Prop where
  ip : packet.ipHdr.isSome → fieldAt packet.datagram 2 = packet.datagram.length
  udp : ∀ eth ip udp payload, packet = .udp eth ip udp payload → fieldAt packet.ipPayload 4 = packet.ipPayload.length

section Built

variable {s : NetStack}

theorem tcpBuilt_eq (conn : TcpConnection) (flags : UInt8) (data : List UInt8) (mem : Bool) :
    tcpBuilt s conn flags data mem =
      if s.numInterfaces ≠ 0 ∧ mem = true then [tcpPacket (s.driven.interfaces 0) conn flags data] else [] := by
  unfold tcpBuilt tcpSendPacket
  rw [driven_numInterfaces]
  by_cases hNone : s.numInterfaces = 0
  · simp [hNone, NetStack.driven]
  · cases mem
    · simp [hNone, NetStack.driven]
    · simp [hNone, NetStack.transmit, NetStack.driven, NetStack.setInterface]

theorem tcpSendPacket_ok_iff (conn : TcpConnection) (flags : UInt8) (data : List UInt8) (mem : Bool) :
    (tcpSendPacket s conn flags data mem).2 = true ↔ s.numInterfaces ≠ 0 ∧ mem = true := by
  unfold tcpSendPacket
  by_cases hNone : s.numInterfaces = 0
  · simp [hNone]
  · cases mem
    · simp [hNone]
    · simp only [hNone, Bool.not_true, Bool.false_eq_true, if_false]
      split <;> simp [hNone]

theorem udpSend_ok_iff (destIp : UInt32) (srcPort destPort : UInt16) (data : List UInt8) (mem : Option Mac) :
    (udpSend s destIp srcPort destPort data mem).2 = true ↔ s.numInterfaces ≠ 0 ∧ mem ≠ none := by
  unfold udpSend
  by_cases hNone : s.numInterfaces = 0
  · simp [hNone]
  · cases mem <;> simp [hNone]

end Built

/-! ### Fields of two bytes -/

theorem bytes16_high (v : UInt16) : (v >>> 8).toUInt8.toNat = v.toNat / 256 := by
  have hv := v.toNat_lt
  have hDiv : v.toNat / 256 < 256 := by omega
  rw [UInt16.toNat_toUInt8, toNat_shift8]
  exact Nat.mod_eq_of_lt hDiv

theorem field_htons (v : UInt16) :
    256 * (htons v).toUInt8.toNat + ((htons v) >>> 8).toUInt8.toNat = v.toNat := by
  have hv := v.toNat_lt
  rw [bytes16_high, UInt16.toNat_toUInt8, toNat_htons]
  omega

/-! ### Lengths -/

section Lengths

variable {s : NetStack}

theorem field_totalLen (ip : IpHdr) (rest : List UInt8) (n : Nat) (h : ip.totalLen = htons (UInt16.ofNat n)) :
    fieldAt (ip.bytes ++ rest) 2 = n % 2 ^ 16 := by
  have hField : fieldAt (ip.bytes ++ rest) 2 = 256 * ip.totalLen.toUInt8.toNat + (ip.totalLen >>> 8).toUInt8.toNat := rfl
  rw [hField, h, field_htons, UInt16.toNat_ofNat']

theorem length_tcp (eth : EthHdr) (ip : IpHdr) (tcp : TcpHdr) (payload : List UInt8) :
    (Packet.tcp eth ip tcp payload).datagram.length = ipHdrLen + (tcpHdrLen + payload.length) := by
  simp only [Packet.datagram, Packet.ipPayload, List.length_append]
  rfl

theorem length_udp (eth : EthHdr) (ip : IpHdr) (udp : UdpHdr) (payload : List UInt8) :
    (Packet.udp eth ip udp payload).datagram.length = ipHdrLen + (udpHdrLen + payload.length) := by
  simp only [Packet.datagram, Packet.ipPayload, List.length_append]
  rfl

theorem tcpPacket_lengthsMatch_iff (iface : NetInterface) (conn : TcpConnection) (flags : UInt8) (data : List UInt8) :
    (tcpPacket iface conn flags data).LengthsMatch ↔ ipHdrLen + tcpHdrLen + data.length < 2 ^ 16 := by
  have hLength : (tcpPacket iface conn flags data).datagram.length = ipHdrLen + (tcpHdrLen + data.length) :=
    length_tcp _ _ _ _
  have hField : fieldAt (tcpPacket iface conn flags data).datagram 2 =
      (ipHdrLen + (tcpHdrLen + data.length)) % 2 ^ 16 := field_totalLen _ _ _ rfl
  constructor
  · intro h
    have hMatch := h.ip rfl
    rw [hLength, hField] at hMatch
    omega
  · intro h
    refine ⟨fun _ => ?_, nofun⟩
    rw [hLength, hField]
    omega

def udpPacket (eth : EthHdr) (iface : NetInterface) (destIp : UInt32) (srcPort destPort : UInt16) (data : List UInt8) :
    Packet :=
  .udp eth (plainIpHdr iface ipProtoUdp destIp (udpHdrLen + data.length))
    { srcPort := htons srcPort, dstPort := htons destPort
      length := htons (UInt16.ofNat (udpHdrLen + data.length)), checksum := 0 } data

theorem udpPacket_lengthsMatch_iff (eth : EthHdr) (iface : NetInterface) (destIp : UInt32) (srcPort destPort : UInt16)
    (data : List UInt8) :
    (udpPacket eth iface destIp srcPort destPort data).LengthsMatch ↔ ipHdrLen + udpHdrLen + data.length < 2 ^ 16 := by
  have hLength : (udpPacket eth iface destIp srcPort destPort data).datagram.length =
      ipHdrLen + (udpHdrLen + data.length) := length_udp _ _ _ _
  have hField : fieldAt (udpPacket eth iface destIp srcPort destPort data).datagram 2 =
      (ipHdrLen + (udpHdrLen + data.length)) % 2 ^ 16 := field_totalLen _ _ _ rfl
  constructor
  · intro h
    have hMatch := h.ip rfl
    rw [hLength, hField] at hMatch
    omega
  · intro h
    refine ⟨fun _ => ?_, ?_⟩
    · rw [hLength, hField]
      omega
    · rintro _ _ udp payload hPacket
      obtain ⟨-, -, rfl, rfl⟩ := Packet.udp.inj hPacket
      have hOwn : fieldAt (udpPacket eth iface destIp srcPort destPort data).ipPayload 4 =
          (udpHdrLen + data.length) % 2 ^ 16 := by
        refine Eq.trans ?_ ((field_htons _).trans (UInt16.toNat_ofNat' (n := udpHdrLen + data.length)))
        rfl
      have hLen : (udpPacket eth iface destIp srcPort destPort data).ipPayload.length = udpHdrLen + data.length :=
        List.length_append
      exact (hOwn.trans (Nat.mod_eq_of_lt (by omega))).trans hLen.symm

theorem udp_produced (destIp : UInt32) (srcPort destPort : UInt16) (data : List UInt8) (mem : Option Mac) :
    ((s.numInterfaces = 0 ∨ mem = none) ∧ (SendCall.udp destIp srcPort destPort data mem).produced s = []) ∨
      (s.numInterfaces ≠ 0 ∧ mem ≠ none) ∧ ∃ eth, (SendCall.udp destIp srcPort destPort data mem).produced s =
        [udpPacket eth (s.driven.interfaces 0) destIp srcPort destPort data] := by
  by_cases hNone : s.numInterfaces = 0
  · exact Or.inl ⟨Or.inl hNone, produced_nothing (congrArg Prod.fst (if_pos hNone))⟩
  · cases mem with
    | none => exact Or.inl ⟨Or.inr rfl, produced_nothing (congrArg Prod.fst (if_neg hNone))⟩
    | some dest => exact Or.inr ⟨⟨hNone, nofun⟩, _, produced_sendOn (congrArg Prod.fst (if_neg hNone))⟩

end Lengths

/-- Exactly the packets of less than 2^16 bytes have their length in their headers. -/
theorem header_lengths_iff (s : NetStack) :
    (∀ conn flags data mem, ((tcpSendPacket s conn flags data mem).2 = true →
        tcpBuilt s conn flags data mem ≠ [] ∧ ∀ packet ∈ tcpBuilt s conn flags data mem, packet.LengthsMatch) ↔
      s.numInterfaces = 0 ∨ mem = false ∨ ipHdrLen + tcpHdrLen + data.length < 2 ^ 16) ∧
    ∀ destIp srcPort destPort data mem, (0 ≤ udpSendRet s destIp srcPort destPort data mem →
        (SendCall.udp destIp srcPort destPort data mem).produced s ≠ [] ∧
          ∀ packet ∈ (SendCall.udp destIp srcPort destPort data mem).produced s, packet.LengthsMatch) ↔
      s.numInterfaces = 0 ∨ mem = none ∨ 2 ^ 31 ≤ data.length % 2 ^ 32 ∨
        ipHdrLen + udpHdrLen + data.length < 2 ^ 16 := by
  constructor
  · intro conn flags data mem
    rw [tcpSendPacket_ok_iff, tcpBuilt_eq]
    by_cases hBuilt : s.numInterfaces ≠ 0 ∧ mem = true
    · rw [if_pos hBuilt]
      simp [hBuilt, tcpPacket_lengthsMatch_iff]
    · rw [if_neg hBuilt]
      simp only [hBuilt, false_implies, true_iff]
      rw [not_and_or, not_not, Bool.not_eq_true] at hBuilt
      exact hBuilt.imp_right Or.inl
  · intro destIp srcPort destPort data mem
    have hSmall : 0 ≤ Int.bmod data.length (2 ^ 32) ↔ ¬ 2 ^ 31 ≤ data.length % 2 ^ 32 := by
      rw [Int.bmod_def]
      split <;> omega
    rcases udp_produced destIp srcPort destPort data mem with ⟨hNone, -⟩ | ⟨hSome, eth, hBuilt⟩
    · have hFails : ¬ 0 ≤ udpSendRet s destIp srcPort destPort data mem := by
        unfold udpSendRet
        rw [if_neg fun hOk => hNone.elim ((udpSend_ok_iff ..).mp hOk).1 ((udpSend_ok_iff ..).mp hOk).2]
        decide
      exact iff_of_true (fun h => absurd h hFails) (hNone.imp_right Or.inl)
    · have hRet : udpSendRet s destIp srcPort destPort data mem = Int.bmod data.length (2 ^ 32) :=
        if_pos ((udpSend_ok_iff ..).mpr hSome)
      rw [hRet, hSmall, hBuilt]
      simp only [List.mem_singleton, forall_eq, udpPacket_lengthsMatch_iff]
      constructor
      · intro h
        by_cases hLarge : 2 ^ 31 ≤ data.length % 2 ^ 32
        · exact Or.inr (Or.inr (Or.inl hLarge))
        · exact Or.inr (Or.inr (Or.inr (h hLarge).2))
      · rintro (hDown | hFull | hLarge | hFits) hOk
        · exact absurd hDown hSome.1
        · exact absurd hFull hSome.2
        · exact absurd hLarge hOk
        · exact ⟨List.cons_ne_nil _ _, hFits⟩

theorem tcpSend_ok {s : NetStack} {i : Nat} {data : List UInt8} (hUp : s.numInterfaces ≠ 0)
    (hState : (s.tcpConnections i).state = .established)
    (hRoom : add64 (s.tcpConnections i).sendLen data.length ≤ (s.tcpConnections i).sendCapacity) :
    (tcpSend s i data true).2 = some data.length := by
  unfold tcpSend
  dsimp only
  rw [if_neg (not_not.mpr hState), if_neg (Nat.not_lt.mpr hRoom)]
  split
  case h_1 hFail =>
    have hOk := (congrArg Prod.snd hFail).symm.trans ((tcpSendPacket_ok_iff ..).mpr ⟨hUp, rfl⟩)
    exact absurd hOk Bool.false_ne_true
  case h_2 => rfl

def oneConnection : NetStack :=
  (tcpipInit staticStack).setConnection 0 { zeroConnection with state := .established, sendCapacity := 65536, inUse := true }

/-- `tcp_send` takes 65496 bytes and `udp_send` 65508; both packets have 65536 bytes, and a length of zero. -/
theorem long_packets_lengths_wrap :
    (tcpSend oneConnection 0 (List.replicate 65496 0) true).2 = some 65496 ∧
      ¬ ((tcpSendPacket oneConnection (oneConnection.tcpConnections 0) (tcpPsh ||| tcpAck) (List.replicate 65496 0)
          true).2 = true →
        tcpBuilt oneConnection (oneConnection.tcpConnections 0) (tcpPsh ||| tcpAck) (List.replicate 65496 0) true ≠ [] ∧
          ∀ packet ∈ tcpBuilt oneConnection (oneConnection.tcpConnections 0) (tcpPsh ||| tcpAck)
            (List.replicate 65496 0) true, packet.LengthsMatch) ∧
      ¬ (0 ≤ udpSendRet oneConnection 0 0 0 (List.replicate 65508 0) (some zeroMac) →
        (SendCall.udp 0 0 0 (List.replicate 65508 0) (some zeroMac)).produced oneConnection ≠ [] ∧
          ∀ packet ∈ (SendCall.udp 0 0 0 (List.replicate 65508 0) (some zeroMac)).produced oneConnection,
            packet.LengthsMatch) := by
  have hUp : oneConnection.numInterfaces ≠ 0 := by decide
  have hTcp : (List.replicate 65496 (0 : UInt8)).length = 65496 := List.length_replicate
  have hUdp : (List.replicate 65508 (0 : UInt8)).length = 65508 := List.length_replicate
  refine ⟨?_, fun h => ?_, fun h => ?_⟩
  · have hSent := @tcpSend_ok oneConnection 0 (List.replicate 65496 0) hUp rfl (by rw [hTcp]; decide)
    rwa [hTcp] at hSent
  · have hFits := (tcpPacket_lengthsMatch_iff ..).mp ((h ((tcpSendPacket_ok_iff ..).mpr ⟨hUp, rfl⟩)).2 _
      (by rw [tcpBuilt_eq, if_pos ⟨hUp, rfl⟩]; exact List.mem_singleton_self _))
    rw [hTcp] at hFits
    exact absurd hFits (by decide)
  · rcases @udp_produced oneConnection 0 0 0 (List.replicate 65508 0) (some zeroMac) with ⟨hNone, -⟩ | ⟨hSome, eth, hBuilt⟩
    · exact hNone.elim hUp nofun
    · have hRet : udpSendRet oneConnection 0 0 0 (List.replicate 65508 0) (some zeroMac) = 65508 := by
        rw [udpSendRet, if_pos ((udpSend_ok_iff ..).mpr hSome), hUdp]
        decide
      have hFits := (udpPacket_lengthsMatch_iff ..).mp ((h (by rw [hRet]; decide)).2 _
        (by rw [hBuilt]; exact List.mem_singleton_self _))
      rw [hUdp] at hFits
      exact absurd hFits (by decide)

/-! ### Checksums -/

def Verifies (bytes : List UInt8) : Prop := total 65535 (bigWords bytes) = 65535

def pseudoHeader (ip : IpHdr) (tcpLen : Nat) : List UInt8 :=
  bytes32 ip.srcIp ++ bytes32 ip.dstIp ++ [0, ip.protocol, UInt8.ofNat (tcpLen / 256), UInt8.ofNat tcpLen]

/-- The part of the sum of `tcp_checksum` before the segment. -/
def pseudoSum (ip : IpHdr) (tcpLen : Nat) : UInt32 :=
  ((ip.srcIp >>> 16) &&& (0xFFFF : UInt32)) + (ip.srcIp &&& (0xFFFF : UInt32)) +
    ((ip.dstIp >>> 16) &&& (0xFFFF : UInt32)) + (ip.dstIp &&& (0xFFFF : UInt32)) +
    (htons ipProtoTcp.toUInt16).toUInt32 + (htons (UInt16.ofNat tcpLen)).toUInt32

/-- The accumulator of the loop over these bytes never overflows: after any number of them it holds the sum. -/
def Accumulates (bytes : List UInt8) (sum : UInt32) : Prop :=
  ∀ n, (sumWords (bytes.take n) sum).toNat = sum.toNat + (littleWords (bytes.take n)).sum

/-- The checksum of the IP header, and that of a TCP segment with its pseudo header, hold at a receiver. -/
def Packet.Verified : Packet → Prop
  | .arp _ _ => True
  | .tcp _ ip hdr payload =>
    Verifies ip.bytes ∧ Verifies (pseudoHeader ip (hdr.bytes ++ payload).length ++ (hdr.bytes ++ payload))
  | .icmp _ ip _ | .udp _ ip _ _ => Verifies ip.bytes

def Packet.Summed : Packet → Prop
  | .arp _ _ => True
  | .tcp _ ip hdr payload =>
    Accumulates { ip with checksum := 0 }.bytes 0 ∧
      (pseudoSum ip (tcpHdrLen + payload.length)).toNat =
        (littleWords (pseudoHeader ip (tcpHdrLen + payload.length))).sum ∧
      Accumulates ({ hdr with checksum := 0 }.bytes ++ payload) (pseudoSum ip (tcpHdrLen + payload.length))
  | .icmp _ ip _ | .udp _ ip _ _ => Accumulates { ip with checksum := 0 }.bytes 0

def foldStep (sum : UInt32) : UInt32 := (sum &&& (0xFFFF : UInt32)) + (sum >>> 16)

section Checksums

variable {bytes pre front back : List UInt8} {sum : UInt32}

theorem toNat_word (a b : UInt8) : (a.toUInt32 ||| (b.toUInt32 <<< 8)).toNat = a.toNat + 256 * b.toNat := by
  have ha := a.toNat_lt
  have hb := toNat_shifted b 8 (by decide)
  rw [UInt32.toNat_or, hb, UInt8.toNat_toUInt32, Nat.or_comm]
  exact (Nat.two_pow_add_eq_or_of_lt (i := 8) ha b.toNat).symm.trans (Nat.add_comm _ _)

theorem toNat_sumWords (bytes : List UInt8) (sum : UInt32) (h : sum.toNat + (littleWords bytes).sum < 2 ^ 32) :
    (sumWords bytes sum).toNat = sum.toNat + (littleWords bytes).sum := by
  fun_induction sumWords bytes sum with
  | case1 a b rest sum ih =>
    simp only [littleWords, List.sum_cons] at h ⊢
    have hStep : (sum + (a.toUInt32 ||| (b.toUInt32 <<< 8))).toNat = sum.toNat + (a.toNat + 256 * b.toNat) := by
      rw [UInt32.toNat_add, toNat_word]
      exact Nat.mod_eq_of_lt (by omega)
    rw [ih (by omega), hStep, Nat.add_assoc]
  | case2 a sum =>
    simp only [littleWords, List.sum_cons, List.sum_nil, Nat.add_zero] at h ⊢
    rw [UInt32.toNat_add, UInt8.toNat_toUInt32]
    exact Nat.mod_eq_of_lt h
  | case3 sum => rfl

theorem accumulates_of_short (h : sum.toNat + 65535 * ((bytes.length + 1) / 2) < 2 ^ 32) : Accumulates bytes sum := by
  intro n
  have hLe := sum_littleWords_le (bytes.take n)
  have hShort : (bytes.take n).length ≤ bytes.length := List.length_take_le' n bytes
  refine toNat_sumWords _ _ ?_
  omega

theorem toNat_foldStep (sum : UInt32) : (foldStep sum).toNat = sum.toNat % 65536 + sum.toNat / 65536 := by
  have hLt := sum.toNat_lt
  have hAnd : (sum &&& 0xFFFF).toNat = sum.toNat % 65536 := by
    rw [UInt32.toNat_and]
    exact Nat.and_two_pow_sub_one_eq_mod sum.toNat 16
  have hShift : (sum >>> 16).toNat = sum.toNat / 65536 := toNat_shiftRight_of_lt sum (by decide)
  rw [foldStep, UInt32.toNat_add, hAnd, hShift]
  exact Nat.mod_eq_of_lt (by omega)

theorem foldSum_represents (sum : UInt32) : Represents 65535 (foldSum sum).toNat sum.toNat := by
  fun_induction foldSum sum with
  | case1 sum hHigh ih =>
    have hStep := toNat_foldStep sum
    rw [foldStep] at hStep
    rw [hStep] at ih
    exact ⟨ih.le, ih.mod.trans (by omega), ih.zero.trans (by omega)⟩
  | case2 sum hHigh => exact ⟨by omega, rfl, Iff.rfl⟩

theorem foldSum_rounds (sum : UInt32) :
    ∃ n ≤ 2, (foldStep^[n] sum).toNat / 65536 = 0 ∧ foldSum sum = foldStep^[n] sum := by
  have hEnd : ∀ v : UInt32, v.toNat / 65536 = 0 → foldSum v = v := by
    intro v hv
    rw [foldSum, if_neg (not_not.mpr hv)]
  have hMore : ∀ v : UInt32, v.toNat / 65536 ≠ 0 → foldSum v = foldSum (foldStep v) := by
    intro v hv
    rw [foldSum, if_pos hv, foldStep]
  have hLt := sum.toNat_lt
  have hFirst := toNat_foldStep sum
  have hSecond := toNat_foldStep (foldStep sum)
  by_cases hZero : sum.toNat / 65536 = 0
  · exact ⟨0, by decide, hZero, hEnd sum hZero⟩
  by_cases hOne : (foldStep sum).toNat / 65536 = 0
  · exact ⟨1, by decide, hOne, (hMore sum hZero).trans (hEnd _ hOne)⟩
  · have hTwo : (foldStep (foldStep sum)).toNat / 65536 = 0 := by omega
    exact ⟨2, by decide, hTwo, ((hMore sum hZero).trans (hMore _ hOne)).trans (hEnd _ hTwo)⟩

theorem toNat_complement (sum : UInt32) : (~~~(foldSum sum).toUInt16).toNat = 65535 - (foldSum sum).toNat := by
  have hLe := (foldSum_represents sum).le
  have hSize : UInt16.size = 65536 := rfl
  rw [UInt16.toNat_not, UInt32.toNat_toUInt16, hSize]
  omega

theorem sum_littleWords_bytes16 (v : UInt16) : (littleWords (bytes16 v)).sum = v.toNat := by
  have hv := v.toNat_lt
  have hWords : (littleWords (bytes16 v)).sum = v.toUInt8.toNat + 256 * (v >>> 8).toUInt8.toNat := rfl
  rw [hWords, bytes16_high, UInt16.toNat_toUInt8]
  omega

theorem inserted_verifies (hPre : pre.length % 2 = 0) (hFront : front.length % 2 = 0)
    (hSum : sum.toNat = (littleWords pre).sum)
    (hFits : sum.toNat + (littleWords (front ++ (bytes16 0 ++ back))).sum < 2 ^ 32)
    (hPos : (littleWords pre).sum + (littleWords front).sum ≠ 0) :
    Verifies (pre ++ (front ++
      (bytes16 (~~~(foldSum (sumWords (front ++ (bytes16 0 ++ back)) sum)).toUInt16) ++ back))) := by
  have hWords : ∀ c, (littleWords (front ++ (bytes16 c ++ back))).sum =
      (littleWords front).sum + (c.toNat + (littleWords back).sum) := by
    intro c
    have hTwo : (bytes16 c).length = 2 := rfl
    rw [sum_littleWords_append hFront, sum_littleWords_append (by rw [hTwo]), sum_littleWords_bytes16]
  have hTotal := toNat_sumWords _ sum hFits
  have hFold := (foldSum_represents (sumWords (front ++ (bytes16 0 ++ back)) sum)).add_complement
  have hZero : (0 : UInt16).toNat = 0 := rfl
  rw [hTotal, hWords, hZero] at hFold
  rw [Verifies, total_bigWords_iff, sum_littleWords_append hPre, hWords, toNat_complement]
  omega

theorem toNat_highHalf (v : UInt32) : ((v >>> 16) &&& (0xFFFF : UInt32)).toNat = v.toNat / 65536 := by
  have hv := v.toNat_lt
  have hShift : (v >>> 16).toNat = v.toNat / 65536 := toNat_shiftRight_of_lt v (by decide)
  rw [UInt32.toNat_and, hShift]
  exact (Nat.and_two_pow_sub_one_eq_mod _ 16).trans (Nat.mod_eq_of_lt (by omega))

theorem toNat_lowHalf (v : UInt32) : (v &&& (0xFFFF : UInt32)).toNat = v.toNat % 65536 := by
  rw [UInt32.toNat_and]
  exact Nat.and_two_pow_sub_one_eq_mod _ 16

theorem littleWords_bytes32 (v : UInt32) (rest : List UInt8) :
    littleWords (bytes32 v ++ rest) = v.toNat % 65536 :: v.toNat / 65536 :: littleWords rest := by
  have hv := v.toNat_lt
  have hByte : ∀ {k : UInt32}, k.toNat < 32 → (v >>> k).toUInt8.toNat = v.toNat / 2 ^ k.toNat % 256 := by
    intro k hk
    rw [UInt32.toNat_toUInt8, toNat_shiftRight_of_lt v hk]
  have hWords : littleWords (bytes32 v ++ rest) = (v.toUInt8.toNat + 256 * (v >>> 8).toUInt8.toNat) ::
      ((v >>> 16).toUInt8.toNat + 256 * (v >>> 24).toUInt8.toNat) :: littleWords rest := rfl
  have h8 : (v >>> 8).toUInt8.toNat = v.toNat / 256 % 256 := hByte (by decide)
  have h16 : (v >>> 16).toUInt8.toNat = v.toNat / 65536 % 256 := hByte (by decide)
  have h24 : (v >>> 24).toUInt8.toNat = v.toNat / 16777216 % 256 := hByte (by decide)
  have hLow : v.toNat % 256 + 256 * (v.toNat / 256 % 256) = v.toNat % 65536 := by omega
  have hHigh : v.toNat / 65536 % 256 + 256 * (v.toNat / 16777216 % 256) = v.toNat / 65536 := by omega
  rw [hWords, UInt32.toNat_toUInt8, h8, h16, h24, hLow, hHigh]

theorem sum_pseudoHeader (ip : IpHdr) {n : Nat} (hProto : ip.protocol = ipProtoTcp) (h : n < 2 ^ 16) :
    (littleWords (pseudoHeader ip n)).sum = ip.srcIp.toNat % 65536 + (ip.srcIp.toNat / 65536 +
      (ip.dstIp.toNat % 65536 + (ip.dstIp.toNat / 65536 + (1536 + (n / 256 + 256 * (n % 256)))))) := by
  have hTail : littleWords [0, ipProtoTcp, UInt8.ofNat (n / 256), UInt8.ofNat n] =
      [1536, (UInt8.ofNat (n / 256)).toNat + 256 * (UInt8.ofNat n).toNat] := rfl
  have hHigh : n / 256 % 256 = n / 256 := by omega
  rw [pseudoHeader, List.append_assoc, littleWords_bytes32, littleWords_bytes32, hProto, hTail,
    UInt8.toNat_ofNat', UInt8.toNat_ofNat']
  simp only [List.sum_cons, List.sum_nil, Nat.add_zero, Nat.reducePow, hHigh]

theorem toNat_pseudoSum (ip : IpHdr) {n : Nat} (hProto : ip.protocol = ipProtoTcp) (h : n < 2 ^ 16) :
    (pseudoSum ip n).toNat = (littleWords (pseudoHeader ip n)).sum := by
  have hSrc := ip.srcIp.toNat_lt
  have hDst := ip.dstIp.toNat_lt
  have hLen : (htons (UInt16.ofNat n)).toUInt32.toNat = n % 256 * 256 + n / 256 := by
    rw [UInt16.toNat_toUInt32, toNat_htons, UInt16.toNat_ofNat', Nat.mod_eq_of_lt h]
  have hTcp : (htons ipProtoTcp.toUInt16).toUInt32.toNat = 1536 := by decide
  rw [sum_pseudoHeader ip hProto h]
  simp only [pseudoSum, UInt32.toNat_add]
  rw [toNat_highHalf, toNat_highHalf, toNat_lowHalf, toNat_lowHalf, hLen, hTcp]
  generalize ip.srcIp.toNat = a at hSrc ⊢
  generalize ip.dstIp.toNat = b at hDst ⊢
  have ha : a / 65536 < 65536 := by omega
  have hb : b / 65536 < 65536 := by omega
  have ha' : a % 65536 < 65536 := Nat.mod_lt _ (by decide)
  have hb' : b % 65536 < 65536 := Nat.mod_lt _ (by decide)
  have hn : n / 256 < 256 := by omega
  have hn' : n % 256 < 256 := Nat.mod_lt _ (by decide)
  generalize a / 65536 = a₁ at *
  generalize a % 65536 = a₀ at *
  generalize b / 65536 = b₁ at *
  generalize b % 65536 = b₀ at *
  generalize n / 256 = n₁ at *
  generalize n % 256 = n₀ at *
  simp only [Nat.reducePow]
  rw [Nat.mod_eq_of_lt (show a₁ + a₀ < 4294967296 by omega), Nat.mod_eq_of_lt (show a₁ + a₀ + b₁ < 4294967296 by omega),
    Nat.mod_eq_of_lt (show a₁ + a₀ + b₁ + b₀ < 4294967296 by omega),
    Nat.mod_eq_of_lt (show a₁ + a₀ + b₁ + b₀ + 1536 < 4294967296 by omega), Nat.mod_eq_of_lt (by omega)]
  omega

/-! ### The packets that are built -/

theorem ipHdr_verified (ip : IpHdr) (hVersion : ip.versionIhl ≠ 0) (hZero : ip.checksum = 0) :
    Verifies { ip with checksum := checksum ip.bytes }.bytes ∧ Accumulates ip.bytes 0 := by
  have hLength : ip.bytes.length = 20 := rfl
  have hParts : ip.bytes = ([ip.versionIhl, ip.tos] ++ bytes16 ip.totalLen ++ bytes16 ip.id ++ bytes16 ip.flagsFrag ++
      [ip.ttl, ip.protocol]) ++ (bytes16 0 ++ (bytes32 ip.srcIp ++ bytes32 ip.dstIp)) := by
    rw [← hZero]
    rfl
  have hFits : (0 : UInt32).toNat + (littleWords ip.bytes).sum < 2 ^ 32 := by
    have hLe := sum_littleWords_le ip.bytes
    rw [hLength] at hLe
    exact Nat.lt_of_le_of_lt (Nat.add_le_add_left hLe _) (by decide)
  refine ⟨?_, accumulates_of_short (by rw [hLength]; decide)⟩
  rw [hParts] at hFits
  have hVerifies := @inserted_verifies [] _ _ 0 rfl (by simp [bytes16]) rfl hFits ?_
  · rw [← hParts] at hVerifies
    exact hVerifies
  · have hFirst : ip.versionIhl.toNat ≠ 0 := fun h => hVersion (UInt8.toNat_inj.mp h)
    simp only [List.cons_append, littleWords, List.sum_cons]
    omega

def TcpHdr.lead (tcp : TcpHdr) : List UInt8 :=
  bytes16 tcp.srcPort ++ bytes16 tcp.dstPort ++ bytes32 tcp.seq ++ bytes32 tcp.ack ++ [tcp.dataOffset, tcp.flags] ++
    bytes16 tcp.window

theorem TcpHdr.bytes_append (tcp : TcpHdr) (data : List UInt8) :
    tcp.bytes ++ data = tcp.lead ++ (bytes16 tcp.checksum ++ (bytes16 tcp.urgent ++ data)) := by
  simp only [TcpHdr.bytes, TcpHdr.lead, List.append_assoc]

theorem tcpHdr_verified (ip : IpHdr) (hProto : ip.protocol = ipProtoTcp) (tcp : TcpHdr) (hZero : tcp.checksum = 0)
    (data : List UInt8) (hShort : tcpHdrLen + data.length < 2 ^ 16) :
    Verifies (pseudoHeader ip (tcpHdrLen + data.length) ++ ({ tcp with
        checksum := tcpChecksum ip (tcp.bytes ++ data) (tcpHdrLen + data.length) }.bytes ++ data)) ∧
      Accumulates (tcp.bytes ++ data) (pseudoSum ip (tcpHdrLen + data.length)) := by
  have hLength : (tcp.bytes ++ data).length = tcpHdrLen + data.length := List.length_append
  have hPseudo := toNat_pseudoSum ip hProto hShort
  have hPseudoLe := sum_littleWords_le (pseudoHeader ip (tcpHdrLen + data.length))
  have hTwelve : (pseudoHeader ip (tcpHdrLen + data.length)).length = 12 := rfl
  rw [hTwelve, ← hPseudo] at hPseudoLe
  have hChecksum : tcpChecksum ip (tcp.bytes ++ data) (tcpHdrLen + data.length) =
      ~~~(foldSum (sumWords (tcp.bytes ++ data) (pseudoSum ip (tcpHdrLen + data.length)))).toUInt16 := by
    unfold tcpChecksum
    rw [List.take_of_length_le hLength.le]
    rfl
  have hSum := sum_littleWords_le (tcp.bytes ++ data)
  rw [hLength] at hSum
  have hFits : (pseudoSum ip (tcpHdrLen + data.length)).toNat + (littleWords (tcp.bytes ++ data)).sum < 2 ^ 32 := by omega
  refine ⟨?_, accumulates_of_short (by rw [hLength]; omega)⟩
  rw [hChecksum, TcpHdr.bytes_append tcp, hZero, TcpHdr.bytes_append]
  rw [TcpHdr.bytes_append, hZero] at hFits
  refine inserted_verifies (by rw [hTwelve]) ?_ hPseudo hFits ?_
  · simp [TcpHdr.lead, bytes16, bytes32]
  · rw [sum_pseudoHeader ip hProto hShort]
    omega

def tcpIpHdr (conn : TcpConnection) (len : Nat) : IpHdr :=
  { versionIhl := 0x45, tos := 0, totalLen := htons (UInt16.ofNat (ipHdrLen + (tcpHdrLen + len)))
    id := htons (conn.seq &&& 0xFFFF).toUInt16, flagsFrag := htons 0x4000, ttl := 64, protocol := ipProtoTcp
    checksum := 0, srcIp := conn.localIp, dstIp := conn.remoteIp }

def plainTcpHdr (conn : TcpConnection) (flags : UInt8) : TcpHdr :=
  { srcPort := htons conn.localPort, dstPort := htons conn.remotePort, seq := htonl conn.seq, ack := htonl conn.ack
    dataOffset := 0x50, flags := flags, window := htons conn.recvWnd.toUInt16, checksum := 0, urgent := 0 }

theorem tcpPacket_verified (iface : NetInterface) (conn : TcpConnection) (flags : UInt8) (data : List UInt8)
    (hShort : tcpHdrLen + data.length < 2 ^ 16) :
    (tcpPacket iface conn flags data).Verified ∧ (tcpPacket iface conn flags data).Summed := by
  set ip := tcpIpHdr conn data.length with hIp
  obtain ⟨hIpSum, hIpFits⟩ := ipHdr_verified ip (show (0x45 : UInt8) ≠ 0 by decide) rfl
  obtain ⟨hTcpSum, hTcpFits⟩ := tcpHdr_verified { ip with checksum := checksum ip.bytes } rfl (plainTcpHdr conn flags) rfl
    data hShort
  have hPacket : tcpPacket iface conn flags data =
      .tcp { dest := Vector.replicate 6 0xFF, src := iface.mac, type := htons ethPIp }
        { ip with checksum := checksum ip.bytes }
        { plainTcpHdr conn flags with
            checksum := tcpChecksum { ip with checksum := checksum ip.bytes } ((plainTcpHdr conn flags).bytes ++ data)
              (tcpHdrLen + data.length) } data := rfl
  rw [hPacket]
  generalize tcpChecksum { ip with checksum := checksum ip.bytes } ((plainTcpHdr conn flags).bytes ++ data)
    (tcpHdrLen + data.length) = c at hTcpSum ⊢
  have hLength : ({ plainTcpHdr conn flags with checksum := c }.bytes ++ data).length = tcpHdrLen + data.length :=
    List.length_append
  refine ⟨⟨hIpSum, ?_⟩, hIpFits, toNat_pseudoSum _ rfl hShort, hTcpFits⟩
  rw [hLength]
  exact hTcpSum

theorem plainIpHdr_verified (iface : NetInterface) (protocol : UInt8) (dstIp : UInt32) (len : Nat) :
    Verifies (plainIpHdr iface protocol dstIp len).bytes ∧
      Accumulates { plainIpHdr iface protocol dstIp len with checksum := 0 }.bytes 0 :=
  ipHdr_verified { plainIpHdr iface protocol dstIp len with checksum := 0 } (show (0x45 : UInt8) ≠ 0 by decide) rfl

end Checksums

theorem icmp_produced {s : NetStack} (destIp : UInt32) (id seq : UInt16) (mem : Option Mac) :
    (SendCall.icmp destIp id seq mem).produced s = [] ∨ ∃ eth icmp, (SendCall.icmp destIp id seq mem).produced s =
      [.icmp eth (plainIpHdr (s.driven.interfaces 0) ipProtoIcmp destIp icmpHdrLen) icmp] := by
  by_cases hUp : s.numInterfaces = 0
  · exact Or.inl (produced_nothing (congrArg Prod.fst (if_pos hUp)))
  · cases mem with
    | none => exact Or.inl (produced_nothing (congrArg Prod.fst (if_neg hUp)))
    | some dest => exact Or.inr (produced_icmp hUp destIp id seq dest)

/-- A receiver finds the checksums right, the accumulators hold the sums, and at most two rounds fold a sum. -/
theorem checksums_verify (s : NetStack) :
    (∀ conn flags data mem, tcpHdrLen + data.length < 2 ^ 16 →
      ∀ packet ∈ tcpBuilt s conn flags data mem, packet.Verified ∧ packet.Summed) ∧
    (∀ destIp id seq mem, ∀ packet ∈ (SendCall.icmp destIp id seq mem).produced s, packet.Verified ∧ packet.Summed) ∧
    (∀ destIp srcPort destPort data mem, ∀ packet ∈ (SendCall.udp destIp srcPort destPort data mem).produced s,
      packet.Verified ∧ packet.Summed) ∧
    ∀ sum : UInt32, ∃ n ≤ 2, (foldStep^[n] sum).toNat / 65536 = 0 ∧ foldSum sum = foldStep^[n] sum := by
  refine ⟨?_, ?_, ?_, foldSum_rounds⟩
  · intro conn flags data mem hShort packet hPacket
    rw [tcpBuilt_eq] at hPacket
    split at hPacket
    · rw [List.mem_singleton.mp hPacket]
      exact tcpPacket_verified _ conn flags data hShort
    · cases hPacket
  · intro destIp id seq mem packet hPacket
    rcases icmp_produced destIp id seq mem with hNone | ⟨eth, icmp, hBuilt⟩
    · rw [hNone] at hPacket
      cases hPacket
    · rw [hBuilt] at hPacket
      rw [List.mem_singleton.mp hPacket]
      exact plainIpHdr_verified _ _ _ _
  · intro destIp srcPort destPort data mem packet hPacket
    rcases udp_produced destIp srcPort destPort data mem with ⟨-, hNone⟩ | ⟨-, eth, hBuilt⟩
    · rw [hNone] at hPacket
      cases hPacket
    · rw [hBuilt] at hPacket
      rw [List.mem_singleton.mp hPacket]
      exact plainIpHdr_verified _ _ _ _

end UnixOS.Net
