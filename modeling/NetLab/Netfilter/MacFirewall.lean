import NetLab.Foundation.Headers

/-! `mac_firewall.c`: the hook that decides on each IPv4 packet before it is routed. -/
namespace NetLab.MacFirewall

def blockedMacs : List MacAddress :=
  [#v[0xAA,0xBB,0xCC,0xDD,0xEE,0xFF],
   #v[0x11,0x22,0x33,0x44,0x55,0x66],
   #v[0xDE,0xAD,0xBE,0xEF,0x00,0x01]]

/-- `in_aton("10.10.3.60")`, in network byte order. -/
def blockedIp : Ipv4Address := #v[10,10,3,60]

/-- The port whose TCP packets are dropped. -/
def blockedPort : ℕ := 5001

/-- Memory around a packet, and where `eth_hdr`, `ip_hdr` and `tcp_hdr` or `udp_hdr` point;
`none` is `NULL`. -/
structure SkBuff where
  memory : Memory
  ethHdr : Option ℕ
  ipHdr : Option ℕ
  transportHdr : Option ℕ

/-- `NF_ACCEPT` and `NF_DROP` -/
inductive Verdict
  | accept
  | drop
deriving DecidableEq

/-- What is written to the kernel log. -/
inductive Message
  | macs (source dest : List UInt8)
  | blockedMac (source : List UInt8)
  | addresses (saddr daddr : List UInt8) (protocol : UInt8)
  | blockedIp (saddr : List UInt8)
  | tcpPorts (source dest : ℕ)
  | blockedTcpPort
  | udpPorts (source dest : ℕ)
deriving DecidableEq

def isMacBlocked (mac : List UInt8) : Bool := blockedMacs.any (fun b => mac == b.toList)

/-- The tests of the hook on the transport header. -/
def checkTransport (m : Memory) (protocol : UInt8) (transportHdr : Option ℕ) :
    Verdict × List Message :=
  if protocol = ipprotoTcp then
    match transportHdr with
    | none => (.accept,[])
    | some tcph =>
      let ports := .tcpPorts (ntohs m tcph) (ntohs m (tcph+2))
      if ntohs m (tcph+2) = blockedPort then (.drop,[ports,.blockedTcpPort])
      else (.accept,[ports])
  else if protocol = ipprotoUdp then
    match transportHdr with
    | none => (.accept,[])
    | some udph => (.accept,[.udpPorts (ntohs m udph) (ntohs m (udph+2))])
  else (.accept,[])

/-- The tests of the hook on the IPv4 header and what follows it. -/
def checkIp (skb : SkBuff) : Verdict × List Message :=
  match skb.ipHdr with
  | none => (.accept,[])
  | some iph =>
    let saddr := segment skb.memory (iph+12) 4
    let daddr := segment skb.memory (iph+16) 4
    let protocol := skb.memory (iph+9)
    let addresses := .addresses saddr daddr protocol
    if saddr = MacFirewall.blockedIp.toList then (.drop,[addresses,.blockedIp saddr])
    else
      let rest := checkTransport skb.memory protocol skb.transportHdr
      (rest.1,addresses::rest.2)

def macFirewallHook : Option SkBuff → Verdict × List Message
  | none => (.accept,[])
  | some skb =>
    match skb.ethHdr with
    | none => (.accept,[])
    | some eth =>
      let dest := segment skb.memory eth 6
      let source := segment skb.memory (eth+6) 6
      if isMacBlocked source then (.drop,[.macs source dest,.blockedMac source])
      else
        let rest := checkIp skb
        (rest.1,.macs source dest::rest.2)

/-- A packet as the IPv4 receive path hands it to the hook: its header has been checked and lies
in the linear part of the buffer, of which only the first `linear` bytes are the packet's. -/
structure PreRouting where
  ethernet : Ethernet
  packet : Ipv4
  memory : Memory
  ethHdr : ℕ
  ipHdr : ℕ
  linear : ℕ
  pulled : packet.headerLength ≤ linear
  linear_le : linear ≤ packet.totalLength
  ethernet_stored : Stored memory ethHdr ethernet.encode
  packet_stored : Stored memory ipHdr (packet.encode.take linear)

namespace PreRouting

/-- The receive path has put the transport header behind the IPv4 header and its options. -/
def skb (x : PreRouting) : SkBuff :=
  ⟨x.memory,some x.ethHdr,some x.ipHdr,some (x.ipHdr+x.packet.headerLength)⟩

/-- The destination port of a TCP packet that carries one: no later fragment does. -/
def tcpDestination (p : Ipv4) : Option ℕ :=
  if p.protocol = ipprotoTcp ∧ p.fragmentOffset = 0 then
    match p.payload with
    | _::_::high::low::_ => some (256*high.toNat+low.toNat)
    | _ => none
  else none

/-- The packets that are to be dropped. -/
def Forbidden (x : PreRouting) : Prop :=
  x.ethernet.source ∈ blockedMacs ∨ x.packet.source = blockedIp ∨
    tcpDestination x.packet = some blockedPort

/-- The port is not looked at; or it is there to be looked at; or the packet has none and what
lies in its place is not 5001; or it is outside the linear part and what lies there is 5001
exactly if the port is. -/
def PortReliable (x : PreRouting) : Prop :=
  x.ethernet.source ∈ blockedMacs ∨ x.packet.source = blockedIp ∨
    x.packet.protocol ≠ ipprotoTcp ∨
    (x.packet.fragmentOffset = 0 ∧ x.packet.headerLength+4 ≤ x.linear) ∨
    ((x.packet.fragmentOffset ≠ 0 ∨ x.packet.payload.length < 4) ∧
      ntohs x.memory (x.ipHdr+x.packet.headerLength+2) ≠ blockedPort) ∨
    (x.packet.fragmentOffset = 0 ∧ 4 ≤ x.packet.payload.length ∧
      x.linear < x.packet.headerLength+4 ∧
      (ntohs x.memory (x.ipHdr+x.packet.headerLength+2) = blockedPort ↔
        tcpDestination x.packet = some blockedPort))

variable (x : PreRouting)

theorem header_found : x.packet.Found x.memory x.ipHdr := by
  have h := x.packet_stored
  rw [Ipv4.encode,List.take_append,List.take_of_length_le (by simpa using x.pulled),
    stored_append] at h
  exact Ipv4.found h.1

theorem mac_blocked_iff : isMacBlocked (segment x.memory (x.ethHdr+6) 6) = true ↔
    x.ethernet.source ∈ blockedMacs := by
  rw [(Ethernet.found x.ethernet_stored).2.1,isMacBlocked,List.any_eq_true]
  simp

theorem ip_blocked_iff : segment x.memory (x.ipHdr+12) 4 = blockedIp.toList ↔
    x.packet.source = blockedIp := by
  rw [x.header_found.source,Vector.toList_inj]

theorem checkTransport_drop_iff (m : Memory) (protocol : UInt8) (transportHdr : ℕ) :
    (checkTransport m protocol (some transportHdr)).1 = .drop ↔
      protocol = ipprotoTcp ∧ ntohs m (transportHdr+2) = blockedPort := by
  unfold checkTransport
  split_ifs with htcp hudp
  · dsimp only
    split_ifs with hport <;> simp [htcp,hport]
  · simp [htcp]
  · simp [htcp]

/-- Which packets the hook drops: the last test trusts whatever lies behind the IPv4 header. -/
theorem drops_iff : (macFirewallHook (some x.skb)).1 = .drop ↔
    x.ethernet.source ∈ blockedMacs ∨ x.packet.source = blockedIp ∨
      x.packet.protocol = ipprotoTcp ∧
        ntohs x.memory (x.ipHdr+x.packet.headerLength+2) = blockedPort := by
  have hmac := x.mac_blocked_iff
  have hip := x.ip_blocked_iff
  unfold macFirewallHook checkIp skb
  dsimp only
  split_ifs with hmac' hip'
  · exact ⟨fun _ => .inl (hmac.mp hmac'),fun _ => rfl⟩
  · exact ⟨fun _ => .inr (.inl (hip.mp hip')),fun _ => rfl⟩
  · rw [checkTransport_drop_iff,x.header_found.protocol]
    simp [mt hmac.mpr hmac',mt hip.mpr hip']

/-- A first fragment's port is read right when its bytes lie in the linear part. -/
theorem port_read (hfirst : x.packet.fragmentOffset = 0)
    (hlinear : x.packet.headerLength+4 ≤ x.linear) (htcp : x.packet.protocol = ipprotoTcp) :
    tcpDestination x.packet = some (ntohs x.memory (x.ipHdr+x.packet.headerLength+2)) := by
  have hstored := x.packet_stored
  rw [Ipv4.encode,List.take_append,List.take_of_length_le (by simpa using x.pulled),
    stored_append,Ipv4.header_length] at hstored
  obtain ⟨-,hpayload⟩ := hstored
  have hle := x.linear_le
  unfold Ipv4.totalLength at hle
  unfold tcpDestination
  rw [if_pos ⟨htcp,hfirst⟩]
  obtain ⟨n,hn⟩ : ∃ n, x.linear-x.packet.headerLength = n+4 :=
    ⟨x.linear-x.packet.headerLength-4,by omega⟩
  rw [hn] at hpayload
  have hlong : 4 ≤ x.packet.payload.length := by omega
  rcases hp : x.packet.payload with _ | ⟨a,_ | ⟨b,_ | ⟨high,_ | ⟨low,rest⟩⟩⟩⟩
  case cons.cons.cons.cons =>
    rw [hp] at hpayload
    simp only [List.take_succ_cons,stored_cons] at hpayload
    obtain ⟨-,-,hhigh,hlow,-⟩ := hpayload
    simp [ntohs,hhigh,hlow]
  all_goals
    rw [hp] at hlong
    simp at hlong

/-- A later fragment has no port, nor has a payload of fewer than four bytes. -/
theorem tcpDestination_none {p : Ipv4} (h : p.fragmentOffset ≠ 0 ∨ p.payload.length < 4) :
    tcpDestination p = none := by
  unfold tcpDestination
  split_ifs with htcp
  · have hshort := h.resolve_left (not_not_intro htcp.2)
    rcases hp : p.payload with _ | ⟨a,_ | ⟨b,_ | ⟨high,_ | ⟨low,rest⟩⟩⟩⟩
    case cons.cons.cons.cons =>
      rw [hp] at hshort
      simp only [List.length_cons] at hshort
      omega
    all_goals rfl
  · rfl

/-- Where the port is looked at and is not there, it is reliable if what lies in its place says the
same as the packet. -/
theorem portReliable_iff (hmac : x.ethernet.source ∉ blockedMacs)
    (hip : x.packet.source ≠ blockedIp) (htcp : x.packet.protocol = ipprotoTcp) :
    x.PortReliable ↔ (ntohs x.memory (x.ipHdr+x.packet.headerLength+2) = blockedPort ↔
      tcpDestination x.packet = some blockedPort) := by
  unfold PortReliable
  simp only [hmac,hip,htcp,ne_eq,not_true_eq_false,false_or]
  by_cases hnone : x.packet.fragmentOffset ≠ 0 ∨ x.packet.payload.length < 4
  · have hfar : ¬ (x.packet.fragmentOffset = 0 ∧ x.packet.headerLength+4 ≤ x.linear) := by
      have hle := x.linear_le
      unfold Ipv4.totalLength at hle
      omega
    have hshort : ¬ (x.packet.fragmentOffset = 0 ∧ 4 ≤ x.packet.payload.length) := by omega
    simp only [tcpDestination_none hnone,hfar,false_or,reduceCtorEq,iff_false]
    constructor
    · rintro (⟨-,hport⟩ | ⟨hfirst,hlong,-⟩)
      · exact hport
      · exact absurd ⟨hfirst,hlong⟩ hshort
    · exact fun hport => Or.inl ⟨hnone,hport⟩
  · obtain ⟨hfirst,hlong⟩ := not_or.mp hnone
    rw [not_not] at hfirst
    by_cases hlinear : x.packet.headerLength+4 ≤ x.linear
    · simp [hfirst,hlinear,x.port_read hfirst hlinear htcp]
    · simp [hfirst,hlinear,not_lt.mp hlong,not_le.mp hlinear]

end PreRouting

/-- The hook decides as it should on a packet exactly when it does not read a port where the
packet has none or another one. -/
theorem verdict_right_iff (x : PreRouting) :
    ((macFirewallHook (some x.skb)).1 = .drop ↔ x.Forbidden) ↔ x.PortReliable := by
  rw [x.drops_iff]
  unfold PreRouting.Forbidden
  by_cases hmac : x.ethernet.source ∈ blockedMacs
  · simp [PreRouting.PortReliable,hmac]
  by_cases hip : x.packet.source = blockedIp
  · simp [PreRouting.PortReliable,hip]
  by_cases htcp : x.packet.protocol = ipprotoTcp
  · rw [x.portReliable_iff hmac hip htcp]
    simp [hmac,hip,htcp]
  · have hnone : PreRouting.tcpDestination x.packet = none := by
      simp [PreRouting.tcpDestination,htcp]
    simp [PreRouting.PortReliable,hmac,hip,htcp,hnone]

/-- A later fragment of a TCP packet whose bytes three and four are 5001 in network byte order. -/
def laterFragment : Ipv4 where
  typeOfService := 0
  identification := 7
  fragment := 185
  timeToLive := 64
  protocol := ipprotoTcp
  checksum := 0
  source := Ipv4Address.of 10 0 0 1
  destination := Ipv4Address.of 10 0 0 2
  options := []
  payload := [0,0,0x13,0x89]
  words := Ipv4.words_nil
  options_le := Ipv4.options_nil_le
  fits := by decide

def laterFragmentSeen : PreRouting where
  ethernet := ⟨MacAddress.of 2 0 0 0 0 1,MacAddress.of 2 0 0 0 0 2,ethPIp.toUInt16⟩
  packet := laterFragment
  memory := storeAt (storeAt (fun _ => 0) 0 [2,0,0,0,0,1,2,0,0,0,0,2,8,0]) 14 laterFragment.encode
  ethHdr := 0
  ipHdr := 14
  linear := 24
  pulled := by decide
  linear_le := by decide
  ethernet_stored := by decide
  packet_stored := by decide

/-- The first fragment of the same bytes: they are a TCP header's ports. -/
def firstFragmentSeen : PreRouting where
  ethernet := laterFragmentSeen.ethernet
  packet := { laterFragment with fragment := 0 }
  memory := storeAt (storeAt (fun _ => 0) 0 [2,0,0,0,0,1,2,0,0,0,0,2,8,0]) 14
    { laterFragment with fragment := 0 }.encode
  ethHdr := 0
  ipHdr := 14
  linear := 24
  pulled := by decide
  linear_le := by decide
  ethernet_stored := by decide
  packet_stored := by decide

/-- A later fragment in whose payload no 5001 stands in a port's place. -/
def quietFragmentSeen : PreRouting where
  ethernet := laterFragmentSeen.ethernet
  packet := { laterFragment with payload := [0x13,0x89,0,0], fits := by decide }
  memory := storeAt (storeAt (fun _ => 0) 0 [2,0,0,0,0,1,2,0,0,0,0,2,8,0]) 14
    { laterFragment with payload := [0x13,0x89,0,0], fits := by decide : Ipv4 }.encode
  ethHdr := 0
  ipHdr := 14
  linear := 24
  pulled := by decide
  linear_le := by decide
  ethernet_stored := by decide
  packet_stored := by decide

/-- The port of the first fragment is there to be read, and the quiet one is let through. -/
theorem fragments_decided :
    ((macFirewallHook (some firstFragmentSeen.skb)).1 = .drop ↔ firstFragmentSeen.Forbidden) ∧
      ((macFirewallHook (some quietFragmentSeen.skb)).1 = .drop ↔ quietFragmentSeen.Forbidden) := by
  constructor
  · apply (verdict_right_iff firstFragmentSeen).mpr
    exact Or.inr (Or.inr (Or.inr (Or.inl (by decide))))
  · apply (verdict_right_iff quietFragmentSeen).mpr
    exact Or.inr (Or.inr (Or.inr (Or.inr (Or.inl (by decide)))))

/-- The later fragment's payload is taken for a port number, and it is dropped. -/
theorem laterFragment_dropped :
    ¬ ∀ x : PreRouting, (macFirewallHook (some x.skb)).1 = .drop ↔ x.Forbidden := by
  intro hall
  have hdrop : (macFirewallHook (some laterFragmentSeen.skb)).1 = .drop := by decide
  obtain hmac | hip | hport := (hall laterFragmentSeen).mp hdrop
  · revert hmac
    decide
  · revert hip
    decide
  · revert hport
    decide

end NetLab.MacFirewall
