import NetLab.PacketCapture.Capture

/-! The decoder reports the header fields of a captured frame, except that it prints a UDP
destination port twice. -/
namespace NetLab.PacketCapture

/-- The fields of the Ethernet and the IPv4 header. -/
def frameFields (f : Ipv4Frame) : List Line :=
  [.waiting,.captured f.encode.length,.destinationMac f.destination.toList,
    .sourceMac f.source.toList,.etherType ethPIp,.ipv4Detected,
    .sourceIp f.packet.source.toList,.destinationIp f.packet.destination.toList,
    .ipProtocol f.packet.protocol]

def tcpFields (t : Tcp) : List Line :=
  [.tcpDetected,.sourcePort t.source.toNat,.destinationPort t.destination.toNat,
    .flags t.flags.fin t.flags.syn t.flags.rst t.flags.psh t.flags.ack t.flags.urg]

def udpFields (u : Udp) : List Line :=
  [.udpDetected,.sourcePort u.source.toNat,.destinationPort u.destination.toNat]

/-- The header fields of a frame that carries `t`, in the order of the report. -/
def fieldsOf (f : Ipv4Frame) : Transport → List Line
  | .tcp t => frameFields f ++ tcpFields t
  | .udp u => frameFields f ++ udpFields u

/-- What the report says of the transport header. -/
def transportReport : Transport → List Line
  | .tcp t => tcpFields t
  | .udp u =>
    [.udpDetected,.sourcePort u.destination.toNat,.destinationPort u.destination.toNat]

section Values

variable {m : Memory} {i : ℕ}

/-- The six masks pick the six flags. -/
theorem TcpFlags.masks (f : TcpFlags) :
    (f.encode &&& 0x01 != 0) = f.fin ∧ (f.encode &&& 0x02 != 0) = f.syn ∧
      (f.encode &&& 0x04 != 0) = f.rst ∧ (f.encode &&& 0x08 != 0) = f.psh ∧
      (f.encode &&& 0x10 != 0) = f.ack ∧ (f.encode &&& 0x20 != 0) = f.urg := by
  obtain ⟨fin,syn,rst,psh,ack,urg,ece,cwr⟩ := f
  revert fin syn rst psh ack urg ece cwr
  decide

theorem decodeTcp_value {t : Tcp} (h : Stored m i t.encode) :
    (decodeTcp i m).value = transportReport (.tcp t) := by
  obtain ⟨hsource,hdestination⟩ := Transport.ports_found (t := .tcp t) h
  obtain ⟨hfin,hsyn,hrst,hpsh,hack,hurg⟩ := TcpFlags.masks t.flags
  simp only [decodeTcp,Look.bind_value,Look.byte_value,Look.short_value,Look.pure_value,
    Tcp.flags_found h,hsource,hdestination,hfin,hsyn,hrst,hpsh,hack,hurg]
  rfl

/-- The line for the source port shows the destination port. -/
theorem decodeUdp_value {u : Udp} (h : Stored m i u.encode) :
    (decodeUdp i m).value = transportReport (.udp u) := by
  obtain ⟨-,hdestination⟩ := Transport.ports_found (t := .udp u) h
  simp only [decodeUdp,Look.bind_value,Look.short_value,Look.pure_value,hdestination]
  rfl

theorem decodeTransport_value {f : Ipv4Frame} {t : Transport} (h : Stored m 0 f.encode)
    (ht : f.packet.Carries t) :
    (decodeTransport (f.packet.ihl*4) m).value = transportReport t := by
  obtain ⟨-,hheader,hpayload⟩ := Ipv4Frame.found h
  rw [Nat.zero_add] at hheader hpayload
  rw [ht.2,Ipv4.headerLength,Nat.mul_comm] at hpayload
  have hprotocol : m (ethernetSize+9) = t.protocol := (Ipv4.found hheader).protocol.trans ht.1
  unfold decodeTransport
  rw [Look.bind_value,Look.byte_value,hprotocol]
  cases t with
  | tcp t => exact decodeTcp_value hpayload
  | udp u => exact decodeUdp_value hpayload

theorem decodeIpv4_value {f : Ipv4Frame} {t : Transport} (h : Stored m 0 f.encode)
    (ht : f.packet.Carries t) : (decodeIpv4 m).value =
    [.sourceIp f.packet.source.toList,.destinationIp f.packet.destination.toList,
      .ipProtocol f.packet.protocol] ++ transportReport t := by
  obtain ⟨-,hheader,-⟩ := Ipv4Frame.found h
  rw [Nat.zero_add] at hheader
  obtain ⟨hihl,hprotocol,hsource,hdestination⟩ := Ipv4.found hheader
  simp only [decodeIpv4,Look.bind_value,Look.byte_value,Look.field_value,Look.pure_value,hihl,
    hprotocol,hsource,hdestination,decodeTransport_value h ht]

/-- The whole report on a captured frame. -/
theorem main_value (stale : Memory) {f : Ipv4Frame} {t : Transport} (ht : f.packet.Carries t)
    (hwhole : f.encode.length ≤ bufferSize) :
    (main stale (.frame f.encode)).value = ⟨frameFields f ++ transportReport t,true⟩ := by
  have hlong := f.encode_length_le
  have hshort : ¬ f.encode.length < ethernetSize := by omega
  have hshort' : ¬ f.encode.length < ethernetSize+ipv4Size := by omega
  have hstored := stored_storeAt stale f.encode
  obtain ⟨hethernet,-,-⟩ := Ipv4Frame.found hstored
  obtain ⟨hdestination,hsource,htype⟩ := Ethernet.found hethernet
  rw [Nat.zero_add] at hsource htype
  have htype : ntohs (storeAt stale 0 f.encode) 12 = ethPIp := htype
  unfold main decode
  simp only [min_eq_left hwhole,List.take_of_length_le hwhole,if_neg hshort,if_neg hshort',
    Look.bind_value,Look.field_value,Look.short_value,htype,if_true,Look.pure_value,
    hdestination,hsource,decodeIpv4_value hstored ht]
  simp [frameFields,Ipv4Frame.ethernet]

end Values

/-- The report is right about a completely captured frame exactly when the frame does not carry
UDP between two different ports. -/
theorem reports_fields_iff (stale : Memory) {f : Ipv4Frame} {t : Transport}
    (ht : f.packet.Carries t) (hwhole : f.encode.length ≤ bufferSize) :
    (main stale (.frame f.encode)).value = ⟨fieldsOf f t,true⟩ ↔
      ∀ u, t = .udp u → u.source = u.destination := by
  rw [main_value stale ht hwhole]
  cases t with
  | tcp t => simp [transportReport,fieldsOf]
  | udp u => simp [transportReport,fieldsOf,udpFields,UInt16.toNat_inj,eq_comm]

/-- A query from port 1025 to port 53. -/
def query : Udp := ⟨1025,53,0,[1,2]⟩

def queryFrame : Ipv4Frame where
  destination := MacAddress.of 2 0 0 0 0 1
  source := MacAddress.of 2 0 0 0 0 2
  packet := {
    typeOfService := 0, identification := 7, fragment := 0, timeToLive := 64
    protocol := ipprotoUdp, checksum := 0
    source := Ipv4Address.of 10 0 0 1, destination := Ipv4Address.of 10 0 0 2
    options := [], payload := query.encode
    words := Ipv4.words_nil, options_le := Ipv4.options_nil_le, fits := by decide }
  padding := []

theorem queryFrame_carries : queryFrame.packet.Carries (.udp query) := ⟨rfl,rfl⟩

theorem reports_fields_iff_query : (main (fun _ => 0) (.frame queryFrame.encode)).value =
    ⟨fieldsOf queryFrame (.udp query),true⟩ ↔
      ∀ u, Transport.udp query = .udp u → u.source = u.destination :=
  reports_fields_iff _ queryFrame_carries (by decide)

/-- The query is reported to come from port 53. -/
theorem query_misreported : ¬ ∀ (stale : Memory) (f : Ipv4Frame) (t : Transport),
    f.packet.Carries t → f.encode.length ≤ bufferSize →
      (main stale (.frame f.encode)).value = ⟨fieldsOf f t,true⟩ := by
  intro hall
  have hquery := hall (fun _ => 0) queryFrame (.udp query) queryFrame_carries (by decide)
  rw [main_value _ queryFrame_carries (by decide)] at hquery
  revert hquery
  decide

end NetLab.PacketCapture
