import NetLab.Foundation.Look

/-! The layouts of Ethernet, IPv4, TCP and UDP headers, and what a reader finds at the offsets of
their fields. Lengths that a header announces follow from what it carries. -/
namespace NetLab

def ethernetSize : ℕ := 14

/-- Without options, as TCP's. -/
def ipv4Size : ℕ := 20

def tcpSize : ℕ := 20
def udpSize : ℕ := 8

/-- `ETH_P_IP` -/
def ethPIp : ℕ := 0x0800

def ipprotoIcmp : UInt8 := 1
def ipprotoTcp : UInt8 := 6
def ipprotoUdp : UInt8 := 17

abbrev MacAddress := Vector UInt8 6
abbrev Ipv4Address := Vector UInt8 4

def MacAddress.of (a b c d e f : UInt8) : MacAddress := #v[a,b,c,d,e,f]

def Ipv4Address.of (a b c d : UInt8) : Ipv4Address := #v[a,b,c,d]

structure Ethernet where
  destination : MacAddress
  source : MacAddress
  etherType : UInt16

def Ethernet.encode (e : Ethernet) : List UInt8 :=
  e.destination.toList ++ e.source.toList ++ htons e.etherType

@[simp] theorem Ethernet.encode_length (e : Ethernet) : e.encode.length = ethernetSize := by
  simp [Ethernet.encode,htons,ethernetSize]

/-- The three fields make up the header. -/
theorem forall_lt_ethernetSize {P : ℕ → Prop} : (∀ k < ethernetSize, P k) ↔
    (∀ k < 6, P (0+k)) ∧ (∀ k < 6, P (6+k)) ∧ P 12 ∧ P (12+1) := by
  unfold ethernetSize
  constructor
  · intro h
    exact ⟨fun k hk => h _ (by omega),fun k hk => h _ (by omega),h _ (by omega),h _ (by omega)⟩
  · rintro ⟨h0,h6,h12,h13⟩ k hk
    obtain hk | hk | rfl | rfl : k < 6 ∨ (6 ≤ k ∧ k-6 < 6) ∨ k = 12 ∨ k = 13 := by omega
    · simpa using h0 k hk
    · simpa [Nat.add_sub_cancel' hk.1] using h6 (k-6) hk.2
    · exact h12
    · exact h13

/-- An IPv4 packet, whole or a fragment. -/
structure Ipv4 where
  typeOfService : UInt8
  identification : UInt16
  /-- Three flags and, in units of eight bytes, the place of the payload in the whole packet. -/
  fragment : UInt16
  timeToLive : UInt8
  protocol : UInt8
  checksum : UInt16
  source : Ipv4Address
  destination : Ipv4Address
  options : List UInt8
  payload : List UInt8
  words : 4 ∣ options.length
  options_le : options.length ≤ 40
  fits : ipv4Size+options.length+payload.length < 2^16

namespace Ipv4

/-- A header without options. -/
theorem words_nil : 4 ∣ ([] : List UInt8).length := dvd_zero 4

theorem options_nil_le : ([] : List UInt8).length ≤ 40 := Nat.zero_le 40

/-- The header length in words of four bytes. -/
def ihl (p : Ipv4) : ℕ := 5+p.options.length/4

def headerLength (p : Ipv4) : ℕ := 4*p.ihl

def totalLength (p : Ipv4) : ℕ := p.headerLength+p.payload.length

def fragmentOffset (p : Ipv4) : ℕ := p.fragment.toNat % 2^13

theorem ihl_le (p : Ipv4) : 5 ≤ p.ihl ∧ p.ihl ≤ 15 := by
  have := p.options_le
  unfold ihl
  omega

theorem headerLength_eq (p : Ipv4) : p.headerLength = ipv4Size+p.options.length := by
  have := p.words
  unfold headerLength ihl ipv4Size
  omega

/-- Version 4 and the header length share the first byte. -/
def header (p : Ipv4) : List UInt8 :=
  [(0x40+p.ihl).toUInt8,p.typeOfService] ++ htons p.totalLength.toUInt16 ++
    htons p.identification ++ htons p.fragment ++ [p.timeToLive,p.protocol] ++ htons p.checksum ++
    p.source.toList ++ p.destination.toList ++ p.options

def encode (p : Ipv4) : List UInt8 := p.header ++ p.payload

@[simp] theorem header_length (p : Ipv4) : p.header.length = p.headerLength := by
  rw [headerLength_eq]
  simp [header,htons,ipv4Size]
  omega

@[simp] theorem encode_length (p : Ipv4) : p.encode.length = p.totalLength := by
  simp [encode,totalLength]

variable {p : Ipv4} {m : Memory} {i : ℕ}

/-- What a reader that is given a stored header finds in it. -/
structure Found (p : Ipv4) (m : Memory) (i : ℕ) : Prop where
  ihl : (m i).toNat % 16 = p.ihl
  protocol : m (i+9) = p.protocol
  source : segment m (i+12) 4 = p.source.toList
  destination : segment m (i+16) 4 = p.destination.toList

theorem found (h : Stored m i p.header) : p.Found m i := by
  simp only [header,stored_append,stored_cons,List.length_append,List.length_cons,htons,
    List.length_nil,Vector.length_toList,Nat.add_assoc,Nat.reduceAdd] at h
  obtain ⟨⟨⟨⟨⟨⟨⟨⟨⟨hfirst,-⟩,-⟩,-⟩,-⟩,-,hprotocol,-⟩,-⟩,hsource⟩,hdestination⟩,-⟩ := h
  refine ⟨?_,hprotocol,?_,?_⟩
  · have hle := p.ihl_le
    rw [hfirst,Nat.toUInt8_eq,UInt8.toNat_ofNat']
    omega
  · simpa [Stored] using hsource
  · simpa [Stored] using hdestination

end Ipv4

/-- The bits of a TCP header's fourteenth byte. -/
structure TcpFlags where
  fin : Bool
  syn : Bool
  rst : Bool
  psh : Bool
  ack : Bool
  urg : Bool
  ece : Bool
  cwr : Bool

def TcpFlags.encode (f : TcpFlags) : UInt8 :=
  f.fin.toUInt8+2*f.syn.toUInt8+4*f.rst.toUInt8+8*f.psh.toUInt8+16*f.ack.toUInt8+
    32*f.urg.toUInt8+64*f.ece.toUInt8+128*f.cwr.toUInt8

structure Tcp where
  source : UInt16
  destination : UInt16
  sequence : UInt32
  acknowledgment : UInt32
  flags : TcpFlags
  window : UInt16
  checksum : UInt16
  urgentPointer : UInt16
  options : List UInt8
  payload : List UInt8
  words : 4 ∣ options.length
  options_le : options.length ≤ 40

structure Udp where
  source : UInt16
  destination : UInt16
  checksum : UInt16
  payload : List UInt8

/-- A 32-bit number in network byte order. -/
def htonl (v : UInt32) : List UInt8 := htons (v >>> 16).toUInt16 ++ htons v.toUInt16

def Tcp.encode (t : Tcp) : List UInt8 :=
  htons t.source ++ htons t.destination ++ htonl t.sequence ++ htonl t.acknowledgment ++
    [(16*(5+t.options.length/4)).toUInt8,t.flags.encode] ++ htons t.window ++ htons t.checksum ++
    htons t.urgentPointer ++ t.options ++ t.payload

def Udp.encode (u : Udp) : List UInt8 :=
  htons u.source ++ htons u.destination ++ htons (udpSize+u.payload.length).toUInt16 ++
    htons u.checksum ++ u.payload

inductive Transport
  | tcp (t : Tcp)
  | udp (u : Udp)

namespace Transport

def protocol : Transport → UInt8
  | .tcp _ => ipprotoTcp
  | .udp _ => ipprotoUdp

def encode : Transport → List UInt8
  | .tcp t => t.encode
  | .udp u => u.encode

def source : Transport → UInt16
  | .tcp t => t.source
  | .udp u => u.source

def destination : Transport → UInt16
  | .tcp t => t.destination
  | .udp u => u.destination

end Transport

def Ipv4.Carries (p : Ipv4) (t : Transport) : Prop := p.protocol = t.protocol ∧ p.payload = t.encode

/-- An Ethernet frame with an IPv4 packet; a short one is padded. -/
structure Ipv4Frame where
  destination : MacAddress
  source : MacAddress
  packet : Ipv4
  padding : List UInt8

def Ipv4Frame.ethernet (f : Ipv4Frame) : Ethernet := ⟨f.destination,f.source,ethPIp.toUInt16⟩

def Ipv4Frame.encode (f : Ipv4Frame) : List UInt8 := f.ethernet.encode ++ f.packet.encode ++ f.padding

section Found

variable {m : Memory} {i : ℕ}

/-- What a reader that is given a stored Ethernet header finds in it. -/
theorem Ethernet.found {e : Ethernet} (h : Stored m i e.encode) :
    segment m i 6 = e.destination.toList ∧ segment m (i+6) 6 = e.source.toList ∧
      ntohs m (i+12) = e.etherType.toNat := by
  simp only [Ethernet.encode,stored_append,List.length_append,Vector.length_toList,
    Nat.reduceAdd] at h
  obtain ⟨⟨hdestination,hsource⟩,htype⟩ := h
  exact ⟨by simpa [Stored] using hdestination,by simpa [Stored] using hsource,htype.ntohs⟩

/-- The two ports lie at the same offsets in both transport headers. -/
theorem Transport.ports_found {t : Transport} (h : Stored m i t.encode) :
    ntohs m i = t.source.toNat ∧ ntohs m (i+2) = t.destination.toNat := by
  have hports : ∀ (source destination : UInt16) (rest : List UInt8),
      Stored m i (htons source ++ (htons destination ++ rest)) →
      ntohs m i = source.toNat ∧ ntohs m (i+2) = destination.toNat := by
    intro source destination rest h
    obtain ⟨hsource,hrest⟩ := stored_append.mp h
    exact ⟨hsource.ntohs,(stored_append.mp hrest).1.ntohs⟩
  cases t with
  | tcp t =>
    simp only [Transport.encode,Tcp.encode,List.append_assoc] at h
    exact hports _ _ _ h
  | udp t =>
    simp only [Transport.encode,Udp.encode,List.append_assoc] at h
    exact hports _ _ _ h

theorem Tcp.flags_found {t : Tcp} (h : Stored m i t.encode) : m (i+13) = t.flags.encode := by
  simp only [Tcp.encode,stored_append,stored_cons,List.length_append,htonl,htons,List.length_cons,
    List.length_nil,Nat.add_assoc,Nat.reduceAdd] at h
  obtain ⟨⟨⟨⟨⟨⟨-,-,hflags,-⟩,-⟩,-⟩,-⟩,-⟩,-⟩ := h
  exact hflags

theorem Ipv4Frame.encode_length_le (f : Ipv4Frame) :
    ethernetSize+ipv4Size ≤ f.encode.length := by
  simp [Ipv4Frame.encode,Ipv4.totalLength,Ipv4.headerLength_eq,Nat.add_assoc]

/-- The two headers of a stored frame and the payload behind them. -/
theorem Ipv4Frame.found {f : Ipv4Frame} (h : Stored m i f.encode) :
    Stored m i f.ethernet.encode ∧ Stored m (i+ethernetSize) f.packet.header ∧
      Stored m (i+ethernetSize+f.packet.headerLength) f.packet.payload := by
  rw [Ipv4Frame.encode,stored_append] at h
  simpa [Ipv4.encode,and_assoc] using h.1

end Found

end NetLab
