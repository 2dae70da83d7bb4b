import NetLab.PacketCapture.Decoding
import NetLab.PacketCapture.BlockOrder

/-! Which captured frames the two dissectors read beyond their end. -/
namespace NetLab.PacketCapture

section Decoder

variable {received : ℕ} {m : Memory}

/-- The decoder stays inside the captured bytes exactly when they reach to the flags of an
announced TCP header, or to the destination port of an announced UDP header. -/
theorem decode_inside_iff :
    Look.All (fun i => i < received) (decode received m) ↔ TransportFits 14 4 received m := by
  rw [decode_all]
  constructor
  · intro h hlong hip
    obtain ⟨-,htransport⟩ := h (by omega)
    obtain ⟨-,-,-,htcp,hudp⟩ := htransport hip hlong
    refine ⟨fun hp => ?_,fun hp => ?_⟩
    · have := ((decodeTcp_all _).mp (htcp hp)).1
      omega
    · have := ((decodeUdp_all _).mp (hudp hp)).2
      omega
  · intro h hlong
    refine ⟨fun k hk => hk.trans_le hlong,fun hip hlong' => ?_⟩
    obtain ⟨htcp,hudp⟩ := h hlong' hip
    unfold ethernetSize at *
    unfold ipv4Size at hlong'
    refine ⟨by omega,fun k hk => by omega,by omega,fun hp => ?_,fun hp => ?_⟩
    · have := htcp hp
      rw [decodeTcp_all]
      omega
    · have := hudp hp
      rw [decodeUdp_all]
      omega

theorem mem_announced {h : Span} : h ∈ announced received m ↔ h = ⟨0,ethernetSize⟩ ∨
    (ethernetSize ≤ received ∧ ntohs m 12 = ethPIp) ∧ (h = ⟨ethernetSize,ipv4Size⟩ ∨
      ethernetSize+ipv4Size ≤ received ∧
        (m (ethernetSize+9) = ipprotoTcp ∧ h = ⟨transportStart m,tcpSize⟩ ∨
          m (ethernetSize+9) = ipprotoUdp ∧ h = ⟨transportStart m,udpSize⟩)) := by
  unfold announced
  rw [List.mem_cons]
  refine or_congr_right ?_
  split_ifs with hip hlong htcp hudp
  · simp [hip,hlong,htcp,ipprotoTcp,ipprotoUdp]
  · simp [hip,hlong,hudp,ipprotoTcp,ipprotoUdp]
  · simp [hip,hlong,htcp,hudp]
  · simp [hip,hlong]
  · simp [hip]

/-- It also leaves alone every header that is not there as a whole exactly when an announced
transport header is there as a whole. -/
theorem decode_careful_iff : Careful received (announced received m) (decode received m) ↔
    TransportFits tcpSize udpSize received m := by
  constructor
  · rintro ⟨-,hskips⟩ hlong hip
    have hshort : ethernetSize ≤ received := by omega
    have hannounced : ∀ {h}, _ → h ∈ announced received m :=
      fun h => mem_announced.mpr (.inr ⟨⟨hshort,hip⟩,.inr ⟨hlong,h⟩⟩)
    refine ⟨fun hp => ?_,fun hp => ?_⟩
    · by_contra hcut
      have hskip := hskips (transportStart m) tcpSize (hannounced (.inl ⟨hp,rfl⟩)) (by omega)
      obtain ⟨-,-,-,htcp,-⟩ := (decode_all.mp hskip hshort).2 hip hlong
      have hflags := ((decodeTcp_all _).mp (htcp hp)).1
      unfold tcpSize at hflags
      omega
    · by_contra hcut
      have hskip := hskips (transportStart m) udpSize (hannounced (.inr ⟨hp,rfl⟩)) (by omega)
      obtain ⟨-,-,-,-,hudp⟩ := (decode_all.mp hskip hshort).2 hip hlong
      have hport := ((decodeUdp_all _).mp (hudp hp)).1
      unfold udpSize at hport
      omega
  · intro h
    refine ⟨decode_inside_iff.mpr fun hlong hip => ?_,fun start size hx hcut => ?_⟩
    · obtain ⟨htcp,hudp⟩ := h hlong hip
      unfold tcpSize udpSize at *
      exact ⟨fun hp => by have := htcp hp; omega,fun hp => by have := hudp hp; omega⟩
    · rw [decode_all]
      intro hshort
      simp only [mem_announced,Span.mk.injEq] at hx
      obtain ⟨rfl,rfl⟩ | ⟨⟨-,hip⟩,⟨rfl,rfl⟩ | ⟨hlong,⟨hp,rfl,rfl⟩ | ⟨hp,rfl,rfl⟩⟩⟩ := hx
      · omega
      · exact ⟨fun k hk => .inl hk,fun _ hlong => by omega⟩
      · have := (h hlong hip).1 hp
        omega
      · have := (h hlong hip).2 hp
        omega

end Decoder

end NetLab.PacketCapture

namespace NetLab.PacketMmap

/-- The headers that the first `snaplen` bytes of a packet announce, as far as they are read. -/
def announced (snaplen : ℕ) (m : Memory) : List Span :=
  ⟨0,ethernetSize⟩::
  if ethernetSize ≤ snaplen ∧ ntohs m 12 = ethPIp then [⟨ethernetSize,ipv4Size⟩] else []

/-- The packet has a whole Ethernet header and, when it is announced, `ipv4` bytes of the IPv4
header behind it. -/
def HeadersFit (ipv4 snaplen : ℕ) (m : Memory) : Prop :=
  ethernetSize ≤ snaplen ∧ (ntohs m 12 = ethPIp → ethernetSize+ipv4 ≤ snaplen)

section Dissector

variable {P : ℕ → Prop} {snaplen : ℕ} {m : Memory}

theorem dissectIpv4_all (proto : ℕ) :
    Look.All P (dissectIpv4 proto m) ↔ (proto = ethPIp → P (ethernetSize+9)) := by
  by_cases hip : proto = ethPIp <;> simp [dissectIpv4,hip]

/-- Everything read of a packet: its Ethernet header, whatever the length, and the protocol of an
announced IPv4 header. -/
theorem dissect_all : Look.All P (dissect m) ↔
    (∀ k < ethernetSize, P k) ∧ (ntohs m 12 = ethPIp → P (ethernetSize+9)) := by
  rw [forall_lt_ethernetSize]
  simp only [dissect,Look.all_bind,Look.all_short,Look.all_field,Look.all_pure,dissectIpv4_all,
    Look.short_value]
  tauto

theorem dissect_inside_iff :
    Look.All (fun i => i < snaplen) (dissect m) ↔ HeadersFit 10 snaplen m := by
  rw [dissect_all]
  unfold HeadersFit ethernetSize
  constructor
  · rintro ⟨hethernet,hip⟩
    exact ⟨hethernet 13 (by omega),fun h => hip h⟩
  · rintro ⟨hethernet,hip⟩
    exact ⟨fun k hk => hk.trans_le hethernet,fun h => hip h⟩

theorem mem_announced {h : Span} : h ∈ announced snaplen m ↔ h = ⟨0,ethernetSize⟩ ∨
    (ethernetSize ≤ snaplen ∧ ntohs m 12 = ethPIp) ∧ h = ⟨ethernetSize,ipv4Size⟩ := by
  unfold announced
  split_ifs with hip <;> simp [hip]

theorem dissect_careful_iff : Careful snaplen (announced snaplen m) (dissect m) ↔
    HeadersFit ipv4Size snaplen m := by
  constructor
  · rintro ⟨hinside,hskips⟩
    have hshort := (dissect_inside_iff.mp hinside).1
    refine ⟨hshort,fun hip => ?_⟩
    by_contra hcut
    have hskip := hskips ethernetSize ipv4Size (mem_announced.mpr (.inr ⟨⟨hshort,hip⟩,rfl⟩))
      (by omega)
    have hprotocol := (dissect_all.mp hskip).2 hip
    unfold ipv4Size at hprotocol
    omega
  · rintro ⟨hshort,hfit⟩
    constructor
    · refine dissect_inside_iff.mpr ⟨hshort,fun hip => ?_⟩
      have := hfit hip
      unfold ipv4Size at this
      omega
    · intro start size hx hcut
      simp only [mem_announced,Span.mk.injEq] at hx
      obtain ⟨rfl,rfl⟩ | ⟨⟨-,hip⟩,rfl,rfl⟩ := hx
      · omega
      · have := hfit hip
        omega

end Dissector

end NetLab.PacketMmap

namespace NetLab

open PacketCapture (main bufferSize TransportFits)
open PacketMmap (dissect HeadersFit)

/-- Which captured frames are read only where they have bytes, and which are so without any read
of a header that is cut off: those for `packet_capture`, and those for `packet_mmap`, where
`stale` is what lies behind the frame. -/
theorem headers_inside_iff (frame : List UInt8) (stale : Memory) :
    ((Look.All (fun i => i < min frame.length bufferSize) (main stale (.frame frame)) ↔
      TransportFits 14 4 (min frame.length bufferSize) (storeAt stale 0 (frame.take bufferSize))) ∧
    (Careful (min frame.length bufferSize)
        (PacketCapture.announced (min frame.length bufferSize)
          (storeAt stale 0 (frame.take bufferSize)))
        (main stale (.frame frame)) ↔
      TransportFits tcpSize udpSize (min frame.length bufferSize)
        (storeAt stale 0 (frame.take bufferSize)))) ∧
    (Look.All (fun i => i < frame.length) (dissect (storeAt stale 0 frame)) ↔
      HeadersFit 10 frame.length (storeAt stale 0 frame)) ∧
    (Careful frame.length (PacketMmap.announced frame.length (storeAt stale 0 frame))
        (dissect (storeAt stale 0 frame)) ↔
      HeadersFit ipv4Size frame.length (storeAt stale 0 frame)) := by
  refine ⟨⟨PacketCapture.decode_inside_iff,?_⟩,PacketMmap.dissect_inside_iff,
    PacketMmap.dissect_careful_iff⟩
  rw [← PacketCapture.decode_careful_iff]
  exact ⟨fun h => ⟨h.inside,h.skips⟩,fun h => ⟨h.inside,h.skips⟩⟩

/-- An Ethernet and an IPv4 header that announces TCP, and nothing behind them. -/
def cutSegment : List UInt8 :=
  [2,0,0,0,0,1,2,0,0,0,0,2,8,0,0x45,0,0,20,0,0,0,0,64,6,0,0,10,0,0,1,10,0,0,2]

/-- Neither program stays inside every frame: one reads the ports and flags of a missing TCP
header, the other the protocol of a missing IPv4 header. -/
theorem cut_frames_overread :
    (¬ ∀ (frame : List UInt8) (stale : Memory),
      Look.All (fun i => i < min frame.length bufferSize) (main stale (.frame frame))) ∧
    ¬ ∀ (frame : List UInt8) (stale : Memory),
      Look.All (fun i => i < frame.length) (dissect (storeAt stale 0 frame)) := by
  constructor
  · intro hall
    have hfits := PacketCapture.decode_inside_iff.mp (hall cutSegment (fun _ => 0))
    have hend := (hfits (by decide) (by decide)).1 (by decide)
    revert hend
    decide
  · intro hall
    have hfits := PacketMmap.dissect_inside_iff.mp (hall (cutSegment.take 14) (fun _ => 0))
    have hend := hfits.2 (by decide)
    revert hend
    decide

end NetLab
