import UnixOS.Net.DnsResponse
import UnixOS.Net.TcpIdentity
import UnixOS.Net.TransmitPath

/-! # The byte order of addresses

`parse_ipv4_string` of `kernel/gui/terminal.c` and `dns_parse_response` of `kernel/net/dns.c` make a number
out of an address, with its first byte on top, and interfaces are configured with such numbers. The network
stack stores these numbers in its headers as they are, least significant byte first, and compares them with
words it loads from frames: on the wire every address stands backwards.
-/

namespace UnixOS.Net

open ByteMemory

/-! ### The parsers -/

def parseIpv4End (ip : UInt32) (octet parts : Nat) : Option UInt32 :=
  if parts ≠ 3 then none else some ((ip <<< 8) ||| UInt32.ofNat octet)

def parseIpv4Loop : List Char → UInt32 → Nat → Nat → Option UInt32
  | [], ip, octet, parts => parseIpv4End ip octet parts
  | c :: src, ip, octet, parts =>
    if '0' ≤ c ∧ c ≤ '9' then
      let octet := octet * 10 + (c.toNat - '0'.toNat)
      if octet > 255 then none else parseIpv4Loop src ip octet parts
    else if c = '.' then
      if parts ≥ 3 then none else parseIpv4Loop src ((ip <<< 8) ||| UInt32.ofNat octet) 0 (parts + 1)
    else if c = ' ' ∨ c = '\n' ∨ c = '\r' then parseIpv4End ip octet parts
    else none

def parseIpv4String (src : List Char) : Option UInt32 :=
  if src = [] then none else parseIpv4Loop (src.dropWhile (· = ' ')) 0 0 0

/-! ### Dotted addresses -/

/-- The address `a.b.c.d`. -/
structure Quad where
  a : UInt8
  b : UInt8
  c : UInt8
  d : UInt8
deriving DecidableEq

theorem toNat_shiftRight_of_lt (v : UInt32) {k : UInt32} (hk : k.toNat < 32) :
    (v >>> k).toNat = v.toNat / 2 ^ k.toNat := by
  rw [UInt32.toNat_shiftRight, Nat.mod_eq_of_lt hk, Nat.shiftRight_eq_div_pow]

namespace Quad

def bytes (q : Quad) : List UInt8 := [q.a, q.b, q.c, q.d]

def value (q : Quad) : UInt32 :=
  UInt32.ofNat (((q.a.toNat * 256 + q.b.toNat) * 256 + q.c.toNat) * 256 + q.d.toNat)

def reverse (q : Quad) : Quad := ⟨q.d, q.c, q.b, q.a⟩

def Symmetric (q : Quad) : Prop := q.a = q.d ∧ q.b = q.c

variable {q r : Quad}

theorem symmetric_iff : q.Symmetric ↔ q.reverse = q := by
  obtain ⟨a, b, c, d⟩ := q
  simp only [Symmetric, reverse, mk.injEq]
  constructor
  · rintro ⟨rfl, rfl⟩
    exact ⟨rfl, rfl, rfl, rfl⟩
  · rintro ⟨hd, hc, -, -⟩
    exact ⟨hd.symm, hc.symm⟩

theorem toNat_value (q : Quad) : q.value.toNat =
    ((q.a.toNat * 256 + q.b.toNat) * 256 + q.c.toNat) * 256 + q.d.toNat := by
  have ha := q.a.toNat_lt
  have hb := q.b.toNat_lt
  have hc := q.c.toNat_lt
  have hd := q.d.toNat_lt
  rw [value, UInt32.toNat_ofNat']
  exact Nat.mod_eq_of_lt (by omega)

theorem value_inj : q.value = r.value ↔ q = r := by
  constructor
  · intro h
    have hNat := congrArg UInt32.toNat h
    rw [toNat_value, toNat_value] at hNat
    obtain ⟨a, b, c, d⟩ := q
    obtain ⟨a', b', c', d'⟩ := r
    have := a.toNat_lt
    have := b.toNat_lt
    have := c.toNat_lt
    have := d.toNat_lt
    have := a'.toNat_lt
    have := b'.toNat_lt
    have := c'.toNat_lt
    have := d'.toNat_lt
    simp only [mk.injEq, ← UInt8.toNat_inj]
    dsimp only at hNat
    omega
  · exact congrArg value

theorem bytes32_value (q : Quad) : bytes32 q.value = q.reverse.bytes := by
  have ha := q.a.toNat_lt
  have hb := q.b.toNat_lt
  have hc := q.c.toNat_lt
  have hd := q.d.toNat_lt
  have hByte : ∀ (k : Nat) (x : UInt8), q.value.toNat / 2 ^ k % 256 = x.toNat → ∀ y : UInt32,
      y.toNat = q.value.toNat / 2 ^ k → y.toUInt8 = x := by
    intro k x hx y hy
    rw [← UInt8.toNat_inj, UInt32.toNat_toUInt8, hy, hx]
  have hNat := q.toNat_value
  simp only [bytes32, bytes, reverse, List.cons.injEq, and_true]
  refine ⟨hByte 0 _ ?_ _ (by simp), hByte 8 _ ?_ _ (toNat_shiftRight_of_lt _ (by decide)),
    hByte 16 _ ?_ _ (toNat_shiftRight_of_lt _ (by decide)),
    hByte 24 _ ?_ _ (toNat_shiftRight_of_lt _ (by decide))⟩
  all_goals omega

theorem load32_eq (m : Mem) (x : Nat) :
    load32 m x = (Quad.mk (m (x + 3)) (m (x + 2)) (m (x + 1)) (m x)).value := by
  rw [load32, value]
  congr 1
  simp only [load]
  ring

end Quad

def decimal (ds : List Char) (n : Nat) : Nat := ds.foldl (fun n c => n * 10 + (c.toNat - '0'.toNat)) n

def IsDigit (c : Char) : Prop := '0' ≤ c ∧ c ≤ '9'

structure Numeral (ds : List Char) (v : UInt8) : Prop where
  nonempty : ds ≠ []
  digits : ∀ c ∈ ds, IsDigit c
  value : decimal ds 0 = v.toNat

def EndsAddress (tail : List Char) : Prop := ∀ c, tail.head? = some c → c = ' ' ∨ c = '\n' ∨ c = '\r'

/-- A text that spells the address in decimal, with blanks before it. -/
def Quad.Dotted (q : Quad) (text : List Char) : Prop :=
  ∃ (blanks : Nat) (da db dc dd tail : List Char),
    Numeral da q.a ∧ Numeral db q.b ∧ Numeral dc q.c ∧ Numeral dd q.d ∧ EndsAddress tail ∧
      text = List.replicate blanks ' ' ++ (da ++ '.' :: (db ++ '.' :: (dc ++ '.' :: (dd ++ tail))))

section Parse

variable {ds tail rest : List Char} {ip : UInt32} {octet parts : Nat}

theorem le_decimal (ds : List Char) (n : Nat) : n ≤ decimal ds n := by
  induction ds generalizing n with
  | nil => exact le_rfl
  | cons c ds ih =>
    have hRest := ih (n * 10 + (c.toNat - '0'.toNat))
    have hStep : decimal (c :: ds) n = decimal ds (n * 10 + (c.toNat - '0'.toNat)) := rfl
    rw [hStep]
    omega

theorem parseIpv4Loop_digits (hDigits : ∀ c ∈ ds, IsDigit c) (hLe : decimal ds octet ≤ 255) :
    parseIpv4Loop (ds ++ rest) ip octet parts = parseIpv4Loop rest ip (decimal ds octet) parts := by
  induction ds generalizing octet with
  | nil => rfl
  | cons c ds ih =>
    have hDigit : '0' ≤ c ∧ c ≤ '9' := hDigits c List.mem_cons_self
    have hNext := le_decimal ds (octet * 10 + (c.toNat - '0'.toNat))
    have hSmall : ¬ octet * 10 + (c.toNat - '0'.toNat) > 255 := not_lt.mpr (hNext.trans hLe)
    rw [List.cons_append, parseIpv4Loop, if_pos hDigit]
    dsimp only
    rw [if_neg hSmall]
    exact ih (fun d hd => hDigits d (List.mem_cons_of_mem c hd)) hLe

theorem parseIpv4Loop_dot (h : parts < 3) : parseIpv4Loop ('.' :: rest) ip octet parts =
    parseIpv4Loop rest ((ip <<< 8) ||| UInt32.ofNat octet) 0 (parts + 1) := by
  rw [parseIpv4Loop, if_neg (by decide), if_pos rfl, if_neg (by omega)]

theorem parseIpv4Loop_end (h : EndsAddress tail) :
    parseIpv4Loop tail ip octet parts = parseIpv4End ip octet parts := by
  cases tail with
  | nil => rfl
  | cons c tail =>
    have hc := h c rfl
    have hDigit : ¬ ('0' ≤ c ∧ c ≤ '9') := by rcases hc with rfl | rfl | rfl <;> decide
    have hDot : c ≠ '.' := by rcases hc with rfl | rfl | rfl <;> decide
    rw [parseIpv4Loop, if_neg hDigit, if_neg hDot, if_pos hc]

theorem shiftLeft_or (ip : UInt32) (v : UInt8) (h : ip.toNat < 2 ^ 24) :
    ((ip <<< 8) ||| UInt32.ofNat v.toNat).toNat = ip.toNat * 256 + v.toNat := by
  have hv := v.toNat_lt
  have hShift : (ip <<< 8).toNat = 2 ^ 8 * ip.toNat := by
    have hEight : (8 : UInt32).toNat % 32 = 8 := rfl
    rw [UInt32.toNat_shiftLeft, hEight, Nat.shiftLeft_eq, mul_comm]
    exact Nat.mod_eq_of_lt (by omega)
  have hOctet : (UInt32.ofNat v.toNat).toNat = v.toNat := by
    rw [UInt32.toNat_ofNat']
    exact Nat.mod_eq_of_lt (by omega)
  rw [UInt32.toNat_or, hShift, hOctet, ← Nat.two_pow_add_eq_or_of_lt (by simpa using hv)]
  ring

theorem parseIpv4_dotted {q : Quad} {text : List Char} (h : q.Dotted text) :
    parseIpv4String text = some q.value := by
  obtain ⟨blanks, da, db, dc, dd, tail, ha, hb, hc, hd, hTail, rfl⟩ := h
  have hNonempty : List.replicate blanks ' ' ++ (da ++ '.' :: (db ++ '.' :: (dc ++ '.' :: (dd ++ tail)))) ≠
      [] := by simp
  have hBlanks : ∀ rest, (List.replicate blanks ' ' ++ (da ++ rest)).dropWhile (· = ' ') = da ++ rest := by
    intro rest
    rw [List.dropWhile_append_of_pos (by simp)]
    obtain ⟨c, ds, rfl⟩ := List.exists_cons_of_ne_nil ha.nonempty
    have hDigit := ha.digits c List.mem_cons_self
    have hBlank : c ≠ ' ' := by
      rintro rfl
      exact absurd hDigit (by unfold IsDigit; decide)
    simp [hBlank]
  have hOctet : ∀ {ds v}, Numeral ds v → decimal ds 0 ≤ 255 := by
    intro ds v hNumeral
    rw [hNumeral.value]
    have := v.toNat_lt
    omega
  rw [parseIpv4String, if_neg hNonempty, hBlanks, parseIpv4Loop_digits ha.digits (hOctet ha),
    parseIpv4Loop_dot (by decide), parseIpv4Loop_digits hb.digits (hOctet hb),
    parseIpv4Loop_dot (by decide), parseIpv4Loop_digits hc.digits (hOctet hc),
    parseIpv4Loop_dot (by decide), parseIpv4Loop_digits hd.digits (hOctet hd), parseIpv4Loop_end hTail,
    ha.value, hb.value, hc.value, hd.value, parseIpv4End, if_neg (by decide), Option.some_inj,
    ← UInt32.toNat_inj]
  have := q.a.toNat_lt
  have := q.b.toNat_lt
  have := q.c.toNat_lt
  have h1 := shiftLeft_or 0 q.a (by decide)
  have h2 := shiftLeft_or _ q.b (h1.trans_lt (by simp; omega))
  have h3 := shiftLeft_or _ q.c (h2.trans_lt (by simp only [h1]; simp; omega))
  have h4 := shiftLeft_or _ q.d (h3.trans_lt (by simp only [h1, h2]; simp; omega))
  rw [h4, h3, h2, h1, q.toNat_value]
  simp

theorem toNat_shifted (v : UInt8) (k : UInt32) (hk : k.toNat ≤ 24) :
    (v.toUInt32 <<< k).toNat = 2 ^ k.toNat * v.toNat := by
  have hv := v.toNat_lt
  have hMod : k.toNat % 32 = k.toNat := Nat.mod_eq_of_lt (by omega)
  rw [UInt32.toNat_shiftLeft, hMod, UInt8.toNat_toUInt32, Nat.shiftLeft_eq, mul_comm]
  apply Nat.mod_eq_of_lt
  calc 2 ^ k.toNat * v.toNat < 2 ^ k.toNat * 2 ^ 8 := by
        exact (Nat.mul_lt_mul_left (Nat.two_pow_pos _)).mpr hv
    _ ≤ 2 ^ 24 * 2 ^ 8 := Nat.mul_le_mul_right _ (Nat.pow_le_pow_right (by decide) hk)
    _ = 2 ^ 32 := by norm_num

theorem shifted_bytes (q : Quad) :
    (q.a.toUInt32 <<< 24) ||| (q.b.toUInt32 <<< 16) ||| (q.c.toUInt32 <<< 8) ||| q.d.toUInt32 = q.value := by
  have hb := q.b.toNat_lt
  have hc := q.c.toNat_lt
  have hd := q.d.toNat_lt
  have h24 := toNat_shifted q.a 24 (by decide)
  have h16 := toNat_shifted q.b 16 (by decide)
  have h8 := toNat_shifted q.c 8 (by decide)
  simp only [UInt32.reduceToNat] at h24 h16 h8
  have hFirst : 2 ^ 24 * q.a.toNat ||| 2 ^ 16 * q.b.toNat = 2 ^ 16 * (2 ^ 8 * q.a.toNat + q.b.toNat) := by
    rw [← Nat.two_pow_add_eq_or_of_lt (by omega)]
    omega
  have hSecond : 2 ^ 16 * (2 ^ 8 * q.a.toNat + q.b.toNat) ||| 2 ^ 8 * q.c.toNat =
      2 ^ 8 * (2 ^ 8 * (2 ^ 8 * q.a.toNat + q.b.toNat) + q.c.toNat) := by
    rw [← Nat.two_pow_add_eq_or_of_lt (by omega)]
    omega
  have hThird : 2 ^ 8 * (2 ^ 8 * (2 ^ 8 * q.a.toNat + q.b.toNat) + q.c.toNat) ||| q.d.toNat =
      2 ^ 8 * (2 ^ 8 * (2 ^ 8 * q.a.toNat + q.b.toNat) + q.c.toNat) + q.d.toNat :=
    (Nat.two_pow_add_eq_or_of_lt (by omega) _).symm
  rw [← UInt32.toNat_inj, UInt32.toNat_or, UInt32.toNat_or, UInt32.toNat_or, h24, h16, h8,
    UInt8.toNat_toUInt32, hFirst, hSecond, hThird, q.toNat_value]
  omega

end Parse

def bytesAt (m : Mem) (x : Nat) : List UInt8 := [m x, m (x + 1), m (x + 2), m (x + 3)]

inductive Quad.Decoded (q : Quad) : UInt32 → Prop
  | parsed {text : List Char} {v : UInt32} (hText : q.Dotted text) (hParse : parseIpv4String text = some v) :
    q.Decoded v
  | answered {response : Mem} {len pos : Nat} {v : UInt32} (hPos : dnsAnswerData response len = some pos)
    (hData : bytesAt response pos = q.bytes) (hParse : dnsParseResponse response len = some v) : q.Decoded v

theorem Quad.Decoded.eq_value {q : Quad} {v : UInt32} (h : q.Decoded v) : v = q.value := by
  cases h with
  | parsed hText hParse =>
    rw [parseIpv4_dotted hText] at hParse
    exact (Option.some.inj hParse).symm
  | @answered response len pos _ hPos hData hParse =>
    rw [dnsParseResponse, hPos, Option.map_some] at hParse
    simp only [bytesAt, bytes, List.cons.injEq, and_true] at hData
    obtain ⟨ha, hb, hc, hd⟩ := hData
    rw [ha, hb, hc, hd, shifted_bytes] at hParse
    exact (Option.some.inj hParse).symm

/-! ### The addresses on the wire -/

def Packet.ipHdr : Packet → Option IpHdr
  | .arp _ _ => none
  | .tcp _ ip _ _ | .icmp _ ip _ | .udp _ ip _ _ => some ip

def Packet.dstBytes (packet : Packet) : Option (List UInt8) :=
  packet.ipHdr.map fun ip => (ip.bytes.drop 16).take 4

def Packet.srcBytes : Packet → List UInt8
  | .arp _ request => bytes32 request.senderIp
  | .tcp _ ip _ _ | .icmp _ ip _ | .udp _ ip _ _ => (ip.bytes.drop 12).take 4

def SendCall.To (v : UInt32) : SendCall → Prop
  | .icmp destIp _ _ _ | .udp destIp _ _ _ _ | .connect destIp _ _ => destIp = v
  | _ => False

/-- The address of a host, of which a parser made the number `v`, keeps its order: in the packets that are
built for it, and in its replies to a connection, which go back to the source address of the `SYN`. -/
structure RemoteKept (s : NetStack) (q : Quad) (v : UInt32) : Prop where
  sender : ∀ call : SendCall, call.To v → ∀ packet ∈ call.produced s, packet.dstBytes = some q.bytes
  reply : ∀ destPort mem s' i frame ip, tcpConnect s v destPort mem = (s', some i) →
    bytesAt frame (ip + 12) = q.bytes → bytesAt frame (ip + 16) = bytes32 (s'.tcpConnections i).localIp →
    ∃ j, tcpFindConnection s' (load32 frame (ip + 12)) destPort (load32 frame (ip + 16))
        (s'.tcpConnections i).localPort = some j ∧
      (s'.tcpConnections j).endpoints = (s'.tcpConnections i).endpoints

def SendCall.FromInterface : SendCall → Prop
  | .arp _ | .icmp _ _ _ _ | .udp _ _ _ _ _ | .connect _ _ _ => True
  | _ => False

/-- The address of the interface `k` keeps its order: in the packets that are built if it is the first
interface, and in the ARP requests that it answers. -/
structure LocalKept (s : NetStack) (k : Nat) (p : Quad) : Prop where
  sender : k = 0 → ∀ call : SendCall, call.FromInterface → ∀ packet ∈ call.produced s,
    packet.srcBytes = p.bytes
  request : ∀ frame arp, ntohs (load16 frame (arp + 6)) = 1 → bytesAt frame (arp + 24) = p.bytes →
    ∃ eth reply, (arpHandle s.driven k frame arp).1.sent = s.sent ++ [(k, .arp eth reply)] ∧
      bytes32 reply.senderIp = p.bytes

section Wire

variable {s : NetStack} {q p : Quad}

theorem produced_sendOn {call : SendCall} {packet : Packet} {len : Nat}
    (h : (call.run s.driven).1 = s.driven.sendOn 0 packet len) : call.produced s = [packet] := by
  rw [SendCall.produced, h]
  simp [NetStack.sendOn, NetStack.transmit, NetStack.driven, NetStack.setInterface]

theorem produced_nothing {call : SendCall} (h : (call.run s.driven).1 = s.driven) : call.produced s = [] := by
  rw [SendCall.produced, h]
  simp [NetStack.driven]

theorem tcpConnect_opens (s : NetStack) (destIp : UInt32) (destPort : UInt16) (mem : ConnectMem) :
    (∀ packet ∈ (tcpConnect s destIp destPort mem).1.sent.drop s.sent.length, ∃ iface conn,
      packet = (0, tcpPacket iface conn tcpSyn []) ∧ conn.remoteIp = destIp ∧
        conn.localIp = (s.interfaces 0).ip) ∧
    ∀ i, (tcpConnect s destIp destPort mem).2 = some i → i < maxTcpConnections ∧
      ((tcpConnect s destIp destPort mem).1.tcpConnections i).inUse = true ∧
      ((tcpConnect s destIp destPort mem).1.tcpConnections i).endpoints =
        ⟨(s.interfaces 0).ip, s.nextEphemeralPort, destIp, destPort⟩ := by
  have hNone : ∀ packet : Nat × Packet, packet ∉ s.sent.drop s.sent.length := by simp
  unfold tcpConnect
  split
  case h_1 => exact ⟨fun packet hMem => absurd hMem (hNone packet), nofun⟩
  case h_2 i conn hAlloc =>
    obtain ⟨hi, hUse⟩ : i < maxTcpConnections ∧ conn.inUse = true := by
      unfold tcpAllocConnection at hAlloc
      split at hAlloc
      case h_1 => cases hAlloc
      case h_2 hFree =>
        cases hAlloc
        exact ⟨List.mem_range.mp (List.mem_of_find?_eq_some hFree), rfl⟩
    split
    case isTrue => exact ⟨fun packet hMem => absurd hMem (hNone packet), nofun⟩
    case isFalse =>
      dsimp only
      -- whatever the packet found, at most the `SYN` was added
      have hSyn : ∀ {s₁ s' : NetStack} {conn : TcpConnection} {ok : Bool},
          tcpSendPacket s₁ conn tcpSyn [] mem.packet = (s', ok) → s₁.sent = s.sent →
          ∀ packet ∈ s'.sent.drop s.sent.length, packet = (0, tcpPacket (s₁.interfaces 0) conn tcpSyn []) := by
        intro s₁ s' conn ok hPacket hSent packet hMem
        rcases (tcpSendPacket_of_eq hPacket).2 with hSame | hMore
        · rw [hSame, hSent] at hMem
          exact absurd hMem (hNone packet)
        · rw [hMore, hSent, List.drop_left] at hMem
          exact List.mem_singleton.mp hMem
      split
      case h_1 hFail => exact ⟨fun packet hMem => ⟨_, _, hSyn hFail rfl packet hMem, rfl, rfl⟩, nofun⟩
      case h_2 hOk =>
        refine ⟨fun packet hMem => ⟨_, _, hSyn hOk rfl packet hMem, rfl, rfl⟩, ?_⟩
        rintro j hj
        obtain rfl := Option.some.inj hj
        simp [hi, hUse, TcpConnection.endpoints]

theorem produced_icmp (hUp : s.numInterfaces ≠ 0) (v : UInt32) (id seq : UInt16) (dest : Mac) :
    ∃ eth icmp, (SendCall.icmp v id seq (some dest)).produced s =
      [.icmp eth (plainIpHdr (s.driven.interfaces 0) ipProtoIcmp v icmpHdrLen) icmp] :=
  ⟨_, _, produced_sendOn (congrArg Prod.fst (if_neg hUp))⟩

theorem produced_udp (hUp : s.numInterfaces ≠ 0) (v : UInt32) (srcPort destPort : UInt16)
    (data : List UInt8) (dest : Mac) :
    ∃ eth udp, (SendCall.udp v srcPort destPort data (some dest)).produced s =
      [.udp eth (plainIpHdr (s.driven.interfaces 0) ipProtoUdp v (udpHdrLen + data.length)) udp data] :=
  ⟨_, _, produced_sendOn (congrArg Prod.fst (if_neg hUp))⟩

theorem produced_arp (hUp : s.numInterfaces ≠ 0) (v : UInt32) :
    ∃ eth request, (SendCall.arp v).produced s = [.arp eth request] ∧
      request.senderIp = (s.interfaces 0).ip :=
  ⟨_, _, produced_sendOn (congrArg Prod.fst (if_neg hUp)), rfl⟩

theorem produced_connect (v : UInt32) (destPort : UInt16) (mem : ConnectMem) :
    ∀ packet ∈ (SendCall.connect v destPort mem).produced s, ∃ iface conn,
      packet = tcpPacket iface conn tcpSyn [] ∧ conn.remoteIp = v ∧ conn.localIp = (s.interfaces 0).ip := by
  intro packet hMem
  obtain ⟨⟨k, packet⟩, hSent, rfl⟩ := List.mem_map.mp hMem
  obtain ⟨iface, conn, hPacket, hRemote, hLocal⟩ :=
    (tcpConnect_opens s.driven v destPort mem).1 (k, packet) hSent
  exact ⟨iface, conn, (Prod.mk.inj hPacket).2, hRemote, hLocal⟩

theorem dst_reversed (hUp : s.numInterfaces ≠ 0) {call : SendCall} (hCall : call.To q.value) :
    ∀ packet ∈ call.produced s, packet.dstBytes = some q.reverse.bytes := by
  have hBytes := congrArg some q.bytes32_value
  intro packet hMem
  cases call with
  | icmp v id seq mem =>
    obtain rfl : v = q.value := hCall
    cases mem with
    | none =>
      rw [produced_nothing (by simp [SendCall.run, icmpSendEcho])] at hMem
      cases hMem
    | some dest =>
      obtain ⟨eth, icmp, hPacket⟩ := produced_icmp hUp q.value id seq dest
      rw [hPacket] at hMem
      rw [List.mem_singleton.mp hMem]
      exact hBytes
  | udp v srcPort destPort data mem =>
    obtain rfl : v = q.value := hCall
    cases mem with
    | none =>
      rw [produced_nothing (by simp [SendCall.run, udpSend])] at hMem
      cases hMem
    | some dest =>
      obtain ⟨eth, udp, hPacket⟩ := produced_udp hUp q.value srcPort destPort data dest
      rw [hPacket] at hMem
      rw [List.mem_singleton.mp hMem]
      exact hBytes
  | connect v destPort mem =>
    obtain rfl : v = q.value := hCall
    obtain ⟨iface, conn, rfl, hRemote, -⟩ := produced_connect q.value destPort mem packet hMem
    change some (bytes32 conn.remoteIp) = _
    rw [hRemote]
    exact hBytes
  | arp targetIp => exact hCall.elim
  | send i data mem => exact hCall.elim
  | close i mem => exact hCall.elim
  | segment srcIp dstIp frame tcp tcpLen mem => exact hCall.elim

theorem src_reversed (hUp : s.numInterfaces ≠ 0) (hIp : (s.interfaces 0).ip = p.value) {call : SendCall}
    (hCall : call.FromInterface) : ∀ packet ∈ call.produced s, packet.srcBytes = p.reverse.bytes := by
  have hBytes : bytes32 (s.interfaces 0).ip = p.reverse.bytes := by rw [hIp, p.bytes32_value]
  intro packet hMem
  cases call with
  | arp targetIp =>
    obtain ⟨eth, request, hPacket, hSender⟩ := produced_arp hUp targetIp
    rw [hPacket] at hMem
    rw [List.mem_singleton.mp hMem, ← hBytes, ← hSender]
    rfl
  | icmp v id seq mem =>
    cases mem with
    | none =>
      rw [produced_nothing (by simp [SendCall.run, icmpSendEcho])] at hMem
      cases hMem
    | some dest =>
      obtain ⟨eth, icmp, hPacket⟩ := produced_icmp hUp v id seq dest
      rw [hPacket] at hMem
      rw [List.mem_singleton.mp hMem]
      exact hBytes
  | udp v srcPort destPort data mem =>
    cases mem with
    | none =>
      rw [produced_nothing (by simp [SendCall.run, udpSend])] at hMem
      cases hMem
    | some dest =>
      obtain ⟨eth, udp, hPacket⟩ := produced_udp hUp v srcPort destPort data dest
      rw [hPacket] at hMem
      rw [List.mem_singleton.mp hMem]
      exact hBytes
  | connect v destPort mem =>
    obtain ⟨iface, conn, rfl, -, hLocal⟩ := produced_connect v destPort mem packet hMem
    change bytes32 conn.localIp = _
    rw [hLocal, hBytes]
  | send i data mem => exact hCall.elim
  | close i mem => exact hCall.elim
  | segment srcIp dstIp frame tcp tcpLen mem => exact hCall.elim

theorem Quad.reverse_bytes_inj : q.reverse.bytes = q.bytes ↔ q.Symmetric := by
  rw [Quad.symmetric_iff]
  constructor
  · intro h
    simp only [Quad.bytes, List.cons.injEq, and_true] at h
    obtain ⟨ha, hb, hc, hd⟩ := h
    rw [Quad.reverse, Quad.mk.injEq]
    exact ⟨ha, hb, hc, hd⟩
  · exact congrArg Quad.bytes

theorem load32_bytes {m : Mem} {x : Nat} (h : bytesAt m x = q.bytes) : load32 m x = q.reverse.value := by
  simp only [bytesAt, Quad.bytes, List.cons.injEq, and_true] at h
  obtain ⟨ha, hb, hc, hd⟩ := h
  rw [Quad.load32_eq, ha, hb, hc, hd]
  rfl

theorem load32_bytes32 {m : Mem} {x : Nat} {v : UInt32} (h : bytesAt m x = bytes32 v) : load32 m x = v := by
  have hv := v.toNat_lt
  have hByte : ∀ y : UInt32, y.toUInt8.toNat = y.toNat % 256 := fun y => UInt32.toNat_toUInt8 y
  have h8 := toNat_shiftRight_of_lt v (k := 8) (by decide)
  have h16 := toNat_shiftRight_of_lt v (k := 16) (by decide)
  have h24 := toNat_shiftRight_of_lt v (k := 24) (by decide)
  simp only [bytesAt, bytes32, List.cons.injEq, and_true] at h
  obtain ⟨h0, h1, h2, h3⟩ := h
  rw [Quad.load32_eq, ← UInt32.toNat_inj, Quad.toNat_value, h0, h1, h2, h3, hByte, hByte, hByte, hByte, h8,
    h16, h24]
  simp only [UInt32.reduceToNat]
  omega

theorem remoteKept_iff (hUp : s.numInterfaces ≠ 0) : RemoteKept s q q.value ↔ q.Symmetric := by
  constructor
  · intro h
    obtain ⟨eth, icmp, hPacket⟩ := produced_icmp hUp q.value 1 0 zeroMac
    obtain ⟨packet, hMem⟩ : ∃ packet, packet ∈ (SendCall.icmp q.value 1 0 (some zeroMac)).produced s :=
      ⟨_, hPacket ▸ List.mem_singleton_self _⟩
    have hTo : (SendCall.icmp q.value 1 0 (some zeroMac)).To q.value := rfl
    have hKept := h.sender _ hTo packet hMem
    rw [dst_reversed hUp hTo packet hMem] at hKept
    exact Quad.reverse_bytes_inj.mp (Option.some.inj hKept)
  · intro h
    have hBytes := Quad.reverse_bytes_inj.mpr h
    have hSame := Quad.symmetric_iff.mp h
    constructor
    · intro call hCall packet hMem
      rw [dst_reversed hUp hCall packet hMem, hBytes]
    · intro destPort mem s' i frame ip hConnect hSrc hDstBytes
      obtain ⟨hi, hUse, hEnds⟩ := (tcpConnect_opens s q.value destPort mem).2 i (by rw [hConnect])
      rw [hConnect] at hUse hEnds
      have hRemote : (s'.tcpConnections i).remoteIp = q.value := congrArg Endpoints.remoteIp hEnds
      have hPort : (s'.tcpConnections i).remotePort = destPort := congrArg Endpoints.remotePort hEnds
      rw [load32_bytes hSrc, load32_bytes32 hDstBytes, hSame, ← hRemote, ← hPort]
      obtain ⟨j, hFound⟩ := Option.ne_none_iff_exists'.mp (tcpFindConnection_ne_none hi hUse)
      exact ⟨j, hFound, (tcpFindConnection_eq_some hFound).2.2⟩

def requestFor (p : Quad) : Mem := fun x =>
  if x = 7 then 1 else if 24 ≤ x then p.bytes.getD (x - 24) 0 else 0

theorem opcode_requestFor (p : Quad) : ntohs (load16 (requestFor p) (0 + 6)) = 1 := by
  have hWord : load (requestFor p) 2 (0 + 6) = 256 := by simp [load, requestFor]
  rw [load16, hWord]
  decide

theorem localKept_iff (hUp : s.numInterfaces ≠ 0) {k : Nat} (hIp : (s.interfaces k).ip = p.value) :
    LocalKept s k p ↔ p.Symmetric := by
  constructor
  · intro h
    obtain ⟨eth, reply, hSent, -⟩ := h.request (requestFor p) 0 (opcode_requestFor p) rfl
    by_contra hOther
    have hMiss : load32 (requestFor p) 24 ≠ (s.driven.interfaces k).ip := by
      intro hEq
      rw [load32_bytes (q := p) rfl] at hEq
      exact hOther (Quad.symmetric_iff.mpr (Quad.value_inj.mp (hEq.trans hIp)))
    have hSilent : (arpHandle s.driven k (requestFor p) 0).1 = s.driven := by
      simp only [arpHandle, opcode_requestFor, if_true]
      rw [if_neg hMiss]
    rw [hSilent] at hSent
    exact absurd (congrArg List.length hSent) (by simp [NetStack.driven])
  · intro h
    have hBytes := Quad.reverse_bytes_inj.mpr h
    have hSame := Quad.symmetric_iff.mp h
    constructor
    · rintro rfl call hCall packet hMem
      rw [src_reversed hUp hIp hCall packet hMem, hBytes]
    · intro frame arp hOpcode hTarget
      have hHit : load32 frame (arp + 24) = (s.driven.interfaces k).ip := by
        rw [load32_bytes hTarget, hSame]
        exact hIp.symm
      have hSender : bytes32 (s.driven.interfaces k).ip = p.bytes := by
        change bytes32 (s.interfaces k).ip = p.bytes
        rw [hIp, p.bytes32_value, hBytes]
      simp only [arpHandle, hOpcode, if_true]
      rw [if_pos hHit]
      exact ⟨_, _, rfl, hSender⟩

end Wire

/-- The address of a host and the address of an interface keep their order exactly if both read the same in
both directions. -/
theorem address_order_iff (s : NetStack) (hUp : s.numInterfaces ≠ 0) (q : Quad) (v : UInt32)
    (hv : q.Decoded v) (k : Nat) (p : Quad) (hIp : (s.interfaces k).ip = p.value) :
    (RemoteKept s q v ∧ LocalKept s k p) ↔ q.Symmetric ∧ p.Symmetric := by
  rw [hv.eq_value]
  exact and_congr (remoteKept_iff hUp) (localKept_iff hUp hIp)

theorem numeral_digit {c : Char} {v : UInt8} (hDigit : IsDigit c) (hValue : decimal [c] 0 = v.toNat) :
    Numeral [c] v := by
  refine ⟨List.cons_ne_nil _ _, ?_, hValue⟩
  intro d hd
  rw [List.mem_singleton.mp hd]
  exact hDigit

theorem isDigit_eight : IsDigit '8' := ⟨by decide, by decide⟩

theorem isDigit_zero_two : IsDigit '0' ∧ IsDigit '2' := ⟨⟨by decide, by decide⟩, by decide, by decide⟩

theorem dotted_eights : Quad.Dotted ⟨8, 8, 8, 8⟩ ['8', '.', '8', '.', '8', '.', '8'] :=
  have hEight : Numeral ['8'] 8 := numeral_digit isDigit_eight rfl
  ⟨0, ['8'], ['8'], ['8'], ['8'], [], hEight, hEight, hEight, hEight, nofun, rfl⟩

theorem address_order_iff_eights :
    RemoteKept ((tcpipInit staticStack).afterEvents [.driver [101] zeroMac 0x0A00000A 0xFFFFFF00 0])
        ⟨8, 8, 8, 8⟩ 0x08080808 ∧
      LocalKept ((tcpipInit staticStack).afterEvents [.driver [101] zeroMac 0x0A00000A 0xFFFFFF00 0]) 1
        ⟨10, 0, 0, 10⟩ := by
  have hValue : Quad.value ⟨10, 0, 0, 10⟩ = 0x0A00000A := by decide
  exact (address_order_iff _ (by decide) ⟨8, 8, 8, 8⟩ 0x08080808 (.parsed dotted_eights (by decide)) 1
    ⟨10, 0, 0, 10⟩ (by rw [hValue]; rfl)).mpr ⟨⟨rfl, rfl⟩, rfl, rfl⟩

theorem dotted_gateway : Quad.Dotted ⟨10, 0, 2, 2⟩ ['1', '0', '.', '0', '.', '2', '.', '2'] := by
  have hTen : Numeral ['1', '0'] 10 := by
    refine ⟨by decide, ?_, rfl⟩
    intro c hc
    rcases List.mem_cons.mp hc with rfl | hc
    · exact ⟨by decide, by decide⟩
    · exact List.mem_singleton.mp hc ▸ isDigit_zero_two.1
  have hZero : Numeral ['0'] 0 := numeral_digit isDigit_zero_two.1 rfl
  have hTwo : Numeral ['2'] 2 := numeral_digit isDigit_zero_two.2 rfl
  exact ⟨0, ['1', '0'], ['0'], ['2'], ['2'], [], hTen, hZero, hTwo, hTwo, nofun, rfl⟩

/-- With the interface that the virtio driver adds, 10.0.2.15, an echo request to `10.0.2.2` is addressed to
2.2.0.10, and ARP requests for the interface are not answered. -/
theorem addresses_backwards :
    Quad.Dotted ⟨10, 0, 2, 2⟩ ['1', '0', '.', '0', '.', '2', '.', '2'] ∧
      parseIpv4String ['1', '0', '.', '0', '.', '2', '.', '2'] = some 0x0A000202 ∧
      ((SendCall.icmp 0x0A000202 1 0 (some zeroMac)).produced ethernetStack).map Packet.dstBytes =
        [some [2, 2, 0, 10]] ∧
      ¬ RemoteKept ethernetStack ⟨10, 0, 2, 2⟩ 0x0A000202 ∧
      (ethernetStack.interfaces 1).ip = Quad.value ⟨10, 0, 2, 15⟩ ∧
      ¬ LocalKept ethernetStack 1 ⟨10, 0, 2, 15⟩ := by
  have hUp : ethernetStack.numInterfaces ≠ 0 := by decide
  have hHost : Quad.value ⟨10, 0, 2, 2⟩ = 0x0A000202 := by decide
  have hIp : (ethernetStack.interfaces 1).ip = Quad.value ⟨10, 0, 2, 15⟩ := by decide
  refine ⟨dotted_gateway, by decide, ?_, ?_, hIp, ?_⟩
  · decide +kernel
  · intro h
    rw [← hHost] at h
    exact absurd ((remoteKept_iff hUp).mp h).1 (by decide)
  · intro h
    exact absurd ((localKept_iff hUp hIp).mp h).1 (by decide)

end UnixOS.Net
