import NetLab.Foundation.Headers

/-! `packet_capture.c`: one `recv` on a packet socket, and the decoder of what it returned. -/
namespace NetLab.PacketCapture

/-- `BUFFER_SIZE` -/
def bufferSize : ℕ := 65536

/-- One message of the program with the values printed in it. -/
inductive Line
  | waiting
  | socketError
  | recvError
  | captured (bytes : ℕ)
  | destinationMac (mac : List UInt8)
  | sourceMac (mac : List UInt8)
  | etherType (value : ℕ)
  | ipv4Detected
  | sourceIp (address : List UInt8)
  | destinationIp (address : List UInt8)
  | ipProtocol (value : UInt8)
  | tcpDetected
  | udpDetected
  | icmpDetected
  | sourcePort (port : ℕ)
  | destinationPort (port : ℕ)
  | flags (fin syn rst psh ack urg : Bool)
  | tooSmallForEthernet
  | tooSmallForIpv4
deriving DecidableEq

structure Report where
  lines : List Line
  success : Bool
deriving DecidableEq

def decodeTcp (tcp : ℕ) : Look (List Line) := do
  let tcpFlags ← Look.byte (tcp+13)
  let source ← Look.short tcp
  let dest ← Look.short (tcp+2)
  return [.tcpDetected,.sourcePort source,.destinationPort dest,
    .flags (tcpFlags &&& 0x01 != 0) (tcpFlags &&& 0x02 != 0) (tcpFlags &&& 0x04 != 0)
      (tcpFlags &&& 0x08 != 0) (tcpFlags &&& 0x10 != 0) (tcpFlags &&& 0x20 != 0)]

def decodeUdp (udp : ℕ) : Look (List Line) := do
  -- both lines print `ntohs(udp->dest)`
  let source ← Look.short (udp+2)
  let dest ← Look.short (udp+2)
  return [.udpDetected,.sourcePort source,.destinationPort dest]

/-- The chain of tests on `ip->protocol`. -/
def decodeTransport (ipHeaderLen : ℕ) : Look (List Line) := do
  let protocol ← Look.byte (ethernetSize+9)
  if protocol = ipprotoTcp then decodeTcp (ethernetSize+ipHeaderLen)
  else if protocol = ipprotoUdp then decodeUdp (ethernetSize+ipHeaderLen)
  else if protocol = ipprotoIcmp then return [.icmpDetected]
  else return []

/-- `inet_ntop` does not fail for an IPv4 address and a buffer of `INET_ADDRSTRLEN` bytes. -/
def decodeIpv4 : Look (List Line) := do
  let first ← Look.byte ethernetSize
  let ipHeaderLen := first.toNat % 16*4
  let saddr ← Look.field (ethernetSize+12) 4
  let daddr ← Look.field (ethernetSize+16) 4
  let protocol ← Look.byte (ethernetSize+9)
  let rest ← decodeTransport ipHeaderLen
  return [.sourceIp saddr,.destinationIp daddr,.ipProtocol protocol] ++ rest

/-- What `main` does once `received_bytes` is not negative. -/
def decode (received : ℕ) : Look Report :=
  if received < ethernetSize then return ⟨[.tooSmallForEthernet],false⟩
  else do
    let dest ← Look.field 0 6
    let source ← Look.field 6 6
    let proto ← Look.short 12
    let ethernet := [.captured received,.destinationMac dest,.sourceMac source,.etherType proto]
    if proto = ethPIp then
      if received < ethernetSize+ipv4Size then
        return ⟨ethernet ++ [.ipv4Detected,.tooSmallForIpv4],false⟩
      else do
        let ipv4 ← decodeIpv4
        return ⟨ethernet ++ [.ipv4Detected] ++ ipv4,true⟩
    else return ⟨ethernet,true⟩

/-- How the two system calls before the decoder end. -/
inductive Capture
  | noSocket
  | recvFails
  | frame (bytes : List UInt8)

/-- `main`; `stale` is what the uninitialised buffer holds. A longer frame is cut by `recv`. -/
def main (stale : Memory) : Capture → Looked Report
  | .noSocket => ⟨⟨[.socketError],false⟩,[]⟩
  | .recvFails => ⟨⟨[.waiting,.recvError],false⟩,[]⟩
  | .frame bytes =>
    let r := decode (min bytes.length bufferSize) (storeAt stale 0 (bytes.take bufferSize))
    ⟨⟨.waiting::r.value.lines,r.value.success⟩,r.offsets⟩

/-- Where the transport header lies according to the first byte of the IPv4 header. -/
def transportStart (m : Memory) : ℕ := ethernetSize+(m ethernetSize).toNat % 16*4

/-- The headers that the first `received` bytes announce. -/
def announced (received : ℕ) (m : Memory) : List Span :=
  ⟨0,ethernetSize⟩::
  if ethernetSize ≤ received ∧ ntohs m 12 = ethPIp then
    ⟨ethernetSize,ipv4Size⟩::
    if ethernetSize+ipv4Size ≤ received then
      if m (ethernetSize+9) = ipprotoTcp then [⟨transportStart m,tcpSize⟩]
      else if m (ethernetSize+9) = ipprotoUdp then [⟨transportStart m,udpSize⟩]
      else []
    else []
  else []

/-- An announced transport header has at least its first `tcp` or `udp` bytes among the
`received` ones. -/
def TransportFits (tcp udp received : ℕ) (m : Memory) : Prop :=
  ethernetSize+ipv4Size ≤ received → ntohs m 12 = ethPIp →
    (m (ethernetSize+9) = ipprotoTcp → transportStart m+tcp ≤ received) ∧
    (m (ethernetSize+9) = ipprotoUdp → transportStart m+udp ≤ received)

section Reads

variable {P : ℕ → Prop} {received : ℕ} {m : Memory}

theorem decodeTcp_all (tcp : ℕ) : Look.All P (decodeTcp tcp m) ↔
    P (tcp+13) ∧ (P tcp ∧ P (tcp+1)) ∧ P (tcp+2) ∧ P (tcp+3) := by
  simp [decodeTcp]

theorem decodeUdp_all (udp : ℕ) : Look.All P (decodeUdp udp m) ↔ P (udp+2) ∧ P (udp+3) := by
  simp [decodeUdp]

/-- What the decoder reads of the transport header. -/
def TransportReads (P : ℕ → Prop) (m : Memory) : Prop :=
  (m (ethernetSize+9) = ipprotoTcp → Look.All P (decodeTcp (transportStart m) m)) ∧
  (m (ethernetSize+9) = ipprotoUdp → Look.All P (decodeUdp (transportStart m) m))

theorem decodeTransport_all :
    Look.All P (decodeTransport ((m ethernetSize).toNat % 16*4) m) ↔
      P (ethernetSize+9) ∧ TransportReads P m := by
  unfold decodeTransport TransportReads transportStart
  rw [Look.all_bind,Look.all_byte,Look.byte_value]
  refine and_congr_right fun _ => ?_
  by_cases htcp : m (ethernetSize+9) = ipprotoTcp
  · simp [htcp,ipprotoTcp,ipprotoUdp]
  by_cases hudp : m (ethernetSize+9) = ipprotoUdp
  · simp [hudp,ipprotoTcp,ipprotoUdp]
  by_cases hicmp : m (ethernetSize+9) = ipprotoIcmp
  · simp [hicmp,ipprotoTcp,ipprotoUdp,ipprotoIcmp]
  · simp [htcp,hudp,hicmp]

/-- Everything the decoder reads: the Ethernet header, five fields of an IPv4 header that is
there, and the transport header behind it. -/
theorem decode_all : Look.All P (decode received m) ↔ (ethernetSize ≤ received →
    (∀ k < ethernetSize, P k) ∧ (ntohs m 12 = ethPIp → ethernetSize+ipv4Size ≤ received →
      P ethernetSize ∧ (∀ k < 8, P (ethernetSize+12+k)) ∧ P (ethernetSize+9) ∧
        TransportReads P m)) := by
  have haddresses : (∀ k < 8, P (ethernetSize+12+k)) ↔
      (∀ k < 4, P (ethernetSize+12+k)) ∧ ∀ k < 4, P (ethernetSize+16+k) := by
    constructor
    · intro h
      refine ⟨fun k hk => h k (by omega),fun k hk => ?_⟩
      rw [show ethernetSize+16+k = ethernetSize+12+(k+4) by omega]
      exact h (k+4) (by omega)
    · rintro ⟨h0,h4⟩ k hk
      by_cases hlt : k < 4
      · exact h0 k hlt
      · have h := h4 (k-4) (by omega)
        rwa [show ethernetSize+16+(k-4) = ethernetSize+12+k by omega] at h
  have hipv4 : Look.All P (decodeIpv4 m) ↔ P ethernetSize ∧
      (∀ k < 8, P (ethernetSize+12+k)) ∧ P (ethernetSize+9) ∧ TransportReads P m := by
    simp only [decodeIpv4,Look.all_bind,Look.all_byte,Look.all_field,Look.byte_value,
      decodeTransport_all,Look.all_pure,haddresses]
    tauto
  unfold decode
  rw [forall_lt_ethernetSize]
  by_cases hshort : received < ethernetSize
  · simp [hshort]
  by_cases hip : ntohs m 12 = ethPIp
  · by_cases hshort' : received < ethernetSize+ipv4Size
    · simp [hshort,hip,hshort',not_lt.mp hshort,not_le.mpr hshort']
    · simp [hshort,hip,hshort',not_lt.mp hshort,not_lt.mp hshort',hipv4,and_assoc]
  · simp [hshort,hip,not_lt.mp hshort]

end Reads

end NetLab.PacketCapture
